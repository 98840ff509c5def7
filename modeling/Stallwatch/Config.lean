import Stallwatch.Base.Path
import Stallwatch.Config.Toml
import Stallwatch.Filter.Parser

/-! Configuration in layers. Later wins, and every value remembers where it came from. -/
namespace Stallwatch

open Text Toml

/-- A path is kept as it was written. -/
inductive Origin where
  | default
  | file (path : OsString)
  | env (name : List Char)
  | flag (name : List Char)
  deriving DecidableEq

structure Sourced (α : Type) where
  value : α
  origin : Origin
  deriving DecidableEq

namespace Sourced

variable {α : Type}

protected def new (value : α) : Sourced α := ⟨value, .default⟩

def set (_ : Sourced α) (value : α) (origin : Origin) : Sourced α := ⟨value, origin⟩

/-- Set where there is a value. -/
def override (s : Sourced α) (value : Option α) (origin : Origin) : Sourced α :=
  match value with
  | some v => s.set v origin
  | none => s

end Sourced

structure Action where
  run : Option (List Char)
  log : Option (List Char)
  notify : Bool
  deriving DecidableEq

structure Rule where
  name : List Char
  when : Filter
  action : Action
  deriving DecidableEq

structure Config where
  thresholdMs : Sourced UInt64
  captureMs : Sourced UInt64
  historySecs : Sourced UInt64
  resources : Sourced (List (List Char))
  notifyEnabled : Sourced Bool
  notifyMinPeak : Sourced UInt64
  notifyCooldownSecs : Sourced UInt64
  rules : List Rule
  loaded : List OsString
  deriving DecidableEq

structure ConfigError where
  path : OsString
  line : ℕ
  msg : String
  deriving DecidableEq

namespace Config

protected def default : Config where
  thresholdMs := .new 50
  captureMs := .new 400
  historySecs := .new 300
  resources := .new ["cpu".toList, "memory".toList, "io".toList]
  notifyEnabled := .new true
  notifyMinPeak := .new 70
  notifyCooldownSecs := .new (6 * 60 * 60)
  rules := []
  loaded := []

/-- `v.max(least) as u64`. -/
def atLeast (least v : Int64) : UInt64 := (max v least).toUInt64

/-- `v.clamp(0, 100) as u64`. -/
def peak (v : Int64) : UInt64 := (min (max v 0) 100).toUInt64

def applyCapture (c : Config) (t : Table) (origin : Origin) : Config :=
  { c with
    thresholdMs := c.thresholdMs.override ((t.int "threshold_ms".toList).map (atLeast 1)) origin
    captureMs := c.captureMs.override ((t.int "capture_ms".toList).map (atLeast 50)) origin
    historySecs := c.historySecs.override ((t.int "history_secs".toList).map (atLeast 10)) origin
    resources := c.resources.override (t.strings "resources".toList) origin }

def applyNotify (c : Config) (t : Table) (origin : Origin) : Config :=
  { c with
    notifyEnabled := c.notifyEnabled.override (t.bool "enabled".toList) origin
    notifyMinPeak := c.notifyMinPeak.override ((t.int "min_peak".toList).map peak) origin
    notifyCooldownSecs :=
      c.notifyCooldownSecs.override ((t.int "cooldown_secs".toList).map (atLeast 0)) origin }

def ruleName (i : ℕ) (t : Table) : List Char :=
  (t.string "name".toList).getD ("rule ".toList ++ decimal (i + 1))

def missingWhen (name : List Char) : String :=
  "rule `" ++ String.ofList name ++ "` has no `when =` expression"

/-- The message of a filter that does not parse, which counts characters from one. -/
def badFilter (name : List Char) (e : Filter.ParseError) : String :=
  "rule `" ++ String.ofList name ++ "`: " ++ e.msg ++ " (at character " ++
    String.ofList (decimal (e.at_ + 1)) ++ ")"

/-- The rule in the table with number `i`, or the line and the message of the error. -/
def toRule (f : Rounding) (i : ℕ) (t : Table) : Outcome TomlError Rule :=
  match t.string "when".toList with
  | none => .err ⟨t.line, missingWhen (ruleName i t)⟩
  | some expr =>
    match Filter.parse f expr with
    | .ok filter => .ok {
        name := ruleName i t
        when := filter
        action := {
          run := t.string "run".toList
          log := t.string "log".toList
          notify := (t.bool "notify".toList).getD false } }
    | .err e => .err ⟨t.line, badFilter (ruleName i t) e⟩
    | .panic => .panic

/-- The rules of the tables from number `i` on. -/
def toRules (f : Rounding) (i : ℕ) : List Table → Outcome TomlError (List Rule)
  | [] => .ok []
  | t :: rest => do
    let rule ← toRule f i t
    let rules ← toRules f (i + 1) rest
    return rule :: rules

def located (path : OsString) (e : TomlError) : ConfigError := ⟨path, e.line, e.msg⟩

/-- The settings of a document. -/
def applyTables (c : Config) (doc : Doc) (origin : Origin) : Config :=
  let c := (doc.tables.lookup capture).elim c fun t => c.applyCapture t origin
  (doc.tables.lookup notify).elim c fun t => c.applyNotify t origin

/-- Parse one file over the current values. An error leaves the rules of the file out,
those before it included, since the caller gives the whole configuration up. -/
def applyToml (f : Rounding) (c : Config) (body : List Char) (path : OsString) :
    Outcome ConfigError Config :=
  match parseToml body with
  | .error e => .err (located path e)
  | .ok doc =>
    match toRules f 0 doc.rules with
    | .err e => .err (located path e)
    | .panic => .panic
    | .ok rules =>
      let c := c.applyTables doc (.file path)
      .ok { c with rules := c.rules ++ rules }

def thresholdVar : List Char := "STALLWATCH_THRESHOLD_MS".toList

def captureVar : List Char := "STALLWATCH_CAPTURE_MS".toList

def historyVar : List Char := "STALLWATCH_HISTORY_SECS".toList

/-- `env` is the value of each variable, where it is set and text. -/
def applyEnv (c : Config) (env : List Char → Option (List Char)) : Config :=
  let num (k : List Char) := (env k).bind fun v => (parseUnsigned 64 v).map UInt64.ofNat
  { c with
    thresholdMs := c.thresholdMs.override ((num thresholdVar).map fun v => max v 1) (.env thresholdVar)
    captureMs := c.captureMs.override ((num captureVar).map fun v => max v 50) (.env captureVar)
    historySecs := c.historySecs.override ((num historyVar).map fun v => max v 10) (.env historyVar) }

end Config

end Stallwatch
