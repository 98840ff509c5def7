import Stallwatch.Base.HashMap
import Stallwatch.Base.Text

/-! A very small subset of TOML: tables, arrays of tables, strings, integers, booleans
and string arrays. A line is read first and then entered into the document. -/
namespace Stallwatch.Toml

open Text

inductive Val where
  | str (s : List Char)
  | int (i : Int64)
  | bool (b : Bool)
  | arr (items : List (List Char))
  deriving DecidableEq

structure Table where
  line : ℕ
  keys : HashMap (List Char) Val

namespace Table

def string (t : Table) (k : List Char) : Option (List Char) :=
  match t.keys.lookup k with
  | some (.str s) => some s
  | _ => none

def int (t : Table) (k : List Char) : Option Int64 :=
  match t.keys.lookup k with
  | some (.int i) => some i
  | _ => none

def bool (t : Table) (k : List Char) : Option Bool :=
  match t.keys.lookup k with
  | some (.bool b) => some b
  | _ => none

def strings (t : Table) (k : List Char) : Option (List (List Char)) :=
  match t.keys.lookup k with
  | some (.arr v) => some v
  | _ => none

def insert (t : Table) (k : List Char) (v : Val) : Table := { t with keys := t.keys.insert k v }

end Table

structure Doc where
  tables : HashMap (List Char) Table
  rules : List Table

def Doc.empty : Doc := ⟨∅, []⟩

structure TomlError where
  line : ℕ
  msg : String
  deriving DecidableEq

/-- What is left of a line before a `#` outside quotes. The bytes that count are ASCII, so
characters can be scanned instead. -/
def stripFrom : Option Char → List Char → List Char
  | _, [] => []
  | some q, c :: cs => c :: stripFrom (if c = q then none else some q) cs
  | none, c :: cs =>
    if c = '"' ∨ c = '\'' then c :: stripFrom (some c) cs
    else if c = '#' then []
    else c :: stripFrom none cs

def stripComment (line : List Char) : List Char := stripFrom none line

/-- What a backslash and `c` stand for. -/
def escape (c : Char) : List Char :=
  if c = '"' then ['"']
  else if c = '\\' then ['\\']
  else if c = 'n' then ['\n']
  else if c = 't' then ['\t']
  else ['\\', c]

/-- A basic string behind its opening quote. What follows the closing quote is not read. -/
def basicString : List Char → Option (List Char)
  | [] => none
  | c :: cs =>
    if c = '"' then some []
    else if c = '\\' then
      match cs with
      | [] => none
      | d :: ds => (basicString ds).map (escape d ++ ·)
    else (basicString cs).map (c :: ·)

/-- A literal string behind its opening quote, which is not read beyond the next one. -/
def literalString (cs : List Char) : Option (List Char) :=
  if '\'' ∈ cs then some (cs.takeWhile (· ≠ '\'')) else none

def isQuote (c : Char) : Bool := c == '"' || c == '\''

def items (rest : List Char) : List (List Char) :=
  let inner := trimEndMatches (· == ']') rest
  ((inner.splitOn ',').map trim).filter (· ≠ []) |>.map (trimMatches isQuote)

def unterminated : String := "unterminated string"

def notAValue (s : List Char) : String :=
  "`" ++ String.ofList s ++ "` is not a string, number or boolean"

/-- The value or the message of the error. -/
def parseValue (s : List Char) : Except String Val :=
  if s = "true".toList then .ok (.bool true)
  else if s = "false".toList then .ok (.bool false)
  else match s with
  | '[' :: rest => .ok (.arr (items rest))
  | '\'' :: rest =>
    match literalString rest with
    | some text => .ok (.str text)
    | none => .error unterminated
  | '"' :: rest =>
    match basicString rest with
    | some text => .ok (.str text)
    | none => .error unterminated
  | _ =>
    match parseInt64 s with
    | some i => .ok (.int i)
    | none => .error (notAValue s)

/-- What one line of the document says. -/
inductive Entry where
  | blank
  | rule
  | table (name : List Char)
  | setting (key : List Char) (val : Val)
  deriving DecidableEq

def unknownArray (name : List Char) : String :=
  "unknown array of tables `[[" ++ String.ofList name ++ "]]`; only `[[rule]]` exists"

def unknownTable (name : List Char) : String :=
  "unknown table `[" ++ String.ofList name ++ "]`; expected `[capture]` or `[notify]`"

def notASetting (s : List Char) : String := "expected `key = value`, found `" ++ String.ofList s ++ "`"

def capture : List Char := "capture".toList

def notify : List Char := "notify".toList

def readLine (raw : List Char) : Except String Entry :=
  let s := trim (stripComment raw)
  if s = [] then .ok .blank
  else match s with
  | '[' :: '[' :: rest =>
    let name := trim (trimEndText "]]".toList rest)
    if name = "rule".toList then .ok .rule else .error (unknownArray name)
  | '[' :: rest =>
    let name := trim (trimEndMatches (· == ']') rest)
    if name = capture ∨ name = notify then .ok (.table name) else .error (unknownTable name)
  | _ =>
    match splitOnce '=' s with
    | none => .error (notASetting s)
    | some (k, v) => do
      let val ← parseValue (trim v)
      return .setting (trim k) val

structure Reader where
  doc : Doc
  current : Option (List Char)
  inRule : Bool

namespace Reader

def start : Reader := ⟨.empty, none, false⟩

end Reader

def outside (key : List Char) : String :=
  "`" ++ String.ofList key ++ "` is outside any table; it needs `[capture]` above it"

/-- The table of that name, begun on this line if there is none. -/
def openTable (tables : HashMap (List Char) Table) (name : List Char) (line : ℕ) :
    HashMap (List Char) Table :=
  match tables.lookup name with
  | some _ => tables
  | none => tables.insert name ⟨line, ∅⟩

def setIn (tables : HashMap (List Char) Table) (name key : List Char) (val : Val) :
    HashMap (List Char) Table :=
  match tables.lookup name with
  | some t => tables.insert name (t.insert key val)
  | none => tables

def setLast (rules : List Table) (key : List Char) (val : Val) : List Table :=
  match rules.getLast? with
  | some t => rules.dropLast ++ [t.insert key val]
  | none => rules

namespace Reader

def enter (r : Reader) (line : ℕ) : Entry → Except TomlError Reader
  | .blank => .ok r
  | .rule => .ok ⟨⟨r.doc.tables, r.doc.rules ++ [⟨line, ∅⟩]⟩, none, true⟩
  | .table name => .ok ⟨⟨openTable r.doc.tables name line, r.doc.rules⟩, some name, false⟩
  | .setting key val =>
    if r.inRule then .ok { r with doc := ⟨r.doc.tables, setLast r.doc.rules key val⟩ }
    else match r.current with
    | some name => .ok { r with doc := ⟨setIn r.doc.tables name key val, r.doc.rules⟩ }
    | none => .error ⟨line, outside key⟩

/-- One turn of the loop. -/
def next (r : Reader) (line : ℕ) (raw : List Char) : Except TomlError Reader :=
  match readLine raw with
  | .ok entry => r.enter line entry
  | .error msg => .error ⟨line, msg⟩

/-- The lines after the first `n`. -/
def run (r : Reader) (n : ℕ) : List (List Char) → Except TomlError Reader
  | [] => .ok r
  | raw :: rest => do
    let r ← r.next (n + 1) raw
    r.run (n + 1) rest

end Reader

def parseToml (body : List Char) : Except TomlError Doc := do
  let r ← Reader.start.run 0 (lines body)
  return r.doc

end Stallwatch.Toml
