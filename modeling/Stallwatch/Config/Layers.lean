import Mathlib.Data.List.Forall2
import Stallwatch.Config.Rules

/-! Layers of configuration. Each setting is what the last layer that sets it makes of
it, together with the name of that layer, and the rules are those of the files in order. -/
namespace Stallwatch

open Text Toml

inductive Layer where
  | file (path : OsString) (body : List Char)
  | env (vars : List Char → Option (List Char))

namespace Setting

/-- The variable that sets a setting, with the bound that its value is raised to. -/
def envVar : Setting → Option (List Char × UInt64)
  | .thresholdMs => some (Config.thresholdVar, 1)
  | .captureMs => some (Config.captureVar, 50)
  | .historySecs => some (Config.historyVar, 10)
  | _ => none

/-- What a variable gives its setting, where it holds an unsigned number. -/
def fromVariable (vars : List Char → Option (List Char)) (name : List Char) (least : UInt64) :
    Option Value :=
  ((vars name).bind (parseUnsigned 64)).map fun n => .number (max (.ofNat n) least)

/-- The range that every layer keeps a setting in. -/
def InRange : Setting → Value → Prop
  | .thresholdMs, .number n => 1 ≤ n
  | .captureMs, .number n => 50 ≤ n
  | .historySecs, .number n => 10 ≤ n
  | .notifyMinPeak, .number n => n ≤ 100
  | _, _ => True

end Setting

namespace Layer

/-- The value a layer has for a setting: a file that of its last assignment to the key,
if it is of the right type. -/
def sets (s : Setting) : Layer → Option Setting.Value
  | .file _ body => (latest (Assignment.valueAt s.place s.key) (settings body)).bind s.read
  | .env vars => s.envVar.bind fun v => Setting.fromVariable vars v.1 v.2

def origin (s : Setting) : Layer → Origin
  | .file path _ => .file path
  | .env _ => s.envVar.elim .default fun v => .env v.1

/-- The value together with its origin. -/
def gives (s : Setting) (l : Layer) : Option (Sourced Setting.Value) :=
  (l.sets s).map fun v => ⟨v, l.origin s⟩

end Layer

namespace Sourced

theorem override_eq {α : Type} (s : Sourced α) (v : Option α) (o : Origin) :
    s.override v o = (v.map fun v => (⟨v, o⟩ : Sourced α)).getD s := by
  cases v <;> rfl

end Sourced

namespace Config

theorem applyToml_gives {f : Rounding} {c c' : Config} {body : List Char} {path : OsString}
    (applied : c.applyToml f body path = .ok c') (s : Setting) :
    s.get c' = ((Layer.file path body).gives s).getD (s.get c) := by
  rw [applyToml_get applied, Sourced.override_eq]
  rfl

theorem variable_number (c : Sourced UInt64) (vars : List Char → Option (List Char))
    (name : List Char) (least : UInt64) :
    Setting.sourced .number (c.override
        ((((vars name).bind fun v => (parseUnsigned 64 v).map UInt64.ofNat).map fun v => max v least))
        (.env name)) =
      ((Setting.fromVariable vars name least).map fun v => (⟨v, .env name⟩ : Sourced _)).getD
        (Setting.sourced .number c) := by
  rw [Setting.sourced_override, Sourced.override_eq, Setting.fromVariable]
  cases vars name with
  | none => rfl
  | some v => cases h : parseUnsigned 64 v <;> simp [h]

theorem applyEnv_gives (c : Config) (vars : List Char → Option (List Char)) (s : Setting) :
    s.get (c.applyEnv vars) = ((Layer.env vars).gives s).getD (s.get c) := by
  cases s with
  | thresholdMs => exact variable_number _ vars _ _
  | captureMs => exact variable_number _ vars _ _
  | historySecs => exact variable_number _ vars _ _
  | resources | notifyEnabled | notifyMinPeak | notifyCooldownSecs => rfl

/-- The files applied in order. -/
def applyAll (f : Rounding) (c : Config) (files : List (OsString × List Char)) :
    Outcome ConfigError Config :=
  files.foldlM (fun c file => c.applyToml f file.2 file.1) c

variable {f : Rounding}

theorem applyAll_cons {c c' : Config} {file : OsString × List Char} {files : List (OsString × List Char)}
    (applied : c.applyAll f (file :: files) = .ok c') :
    ∃ d, c.applyToml f file.2 file.1 = .ok d ∧ d.applyAll f files = .ok c' :=
  Outcome.bind_eq_ok.mp applied

theorem applyAll_gives {files : List (OsString × List Char)} {c c' : Config}
    (applied : c.applyAll f files = .ok c') (s : Setting) :
    s.get c' = (latest (Layer.gives s) (files.map fun file => .file file.1 file.2)).getD (s.get c) := by
  induction files generalizing c with
  | nil =>
    cases applied
    rfl
  | cons file files ih =>
    obtain ⟨d, first, rest⟩ := applyAll_cons applied
    rw [ih rest, applyToml_gives first, List.map_cons, latest_cons]
    cases latest (Layer.gives s) (files.map fun file => .file file.1 file.2) <;> simp

theorem applyAll_rules {files : List (OsString × List Char)} {c c' : Config}
    (applied : c.applyAll f files = .ok c') :
    ∃ groups, List.Forall₂ (fun file rules => RulesOf f file.2 rules) files groups ∧
      c'.rules = c.rules ++ groups.flatten := by
  induction files generalizing c with
  | nil =>
    cases applied
    exact ⟨[], .nil, (List.append_nil _).symm⟩
  | cons file files ih =>
    obtain ⟨d, first, rest⟩ := applyAll_cons applied
    obtain ⟨own, ruled, added⟩ := applyToml_rules first
    obtain ⟨groups, others, rules⟩ := ih rest
    exact ⟨own :: groups, .cons ruled others, by rw [rules, added, List.append_assoc, List.flatten_cons]⟩

theorem toInt_max (v w : Int64) : (max v w).toInt = max v.toInt w.toInt := by
  rw [show max v w = if v ≤ w then w else v from rfl]
  split
  · rename_i above
    exact (max_eq_right (Int64.le_iff_toInt_le.mp above)).symm
  · rename_i below
    exact (max_eq_left (Int64.le_iff_toInt_le.mp (Int64.le_of_lt (Int64.not_le.mp below)))).symm

theorem toInt_min (v w : Int64) : (min v w).toInt = min v.toInt w.toInt := by
  rw [show min v w = if v ≤ w then v else w from rfl]
  split
  · rename_i below
    exact (min_eq_left (Int64.le_iff_toInt_le.mp below)).symm
  · rename_i above
    exact (min_eq_right (Int64.le_iff_toInt_le.mp (Int64.le_of_lt (Int64.not_le.mp above)))).symm

/- A number that is not negative is the same unsigned. -/
theorem toNat_cast {v : Int64} (nonneg : 0 ≤ v.toInt) : v.toUInt64.toNat = v.toInt.toNat :=
  Int64.toNat_toUInt64_of_le (Int64.le_iff_toInt_le.mpr nonneg)

theorem atLeast_toNat (least v : Int64) (nonneg : 0 ≤ least.toInt) :
    (atLeast least v).toNat = (max v.toInt least.toInt).toNat := by
  have up : 0 ≤ (max v least).toInt := by
    rw [toInt_max]
    exact nonneg.trans (le_max_right _ _)
  rw [atLeast, toNat_cast up, toInt_max]

theorem peak_toNat (v : Int64) : (peak v).toNat = (min (max v.toInt 0) 100).toNat := by
  have value : (min (max v 0) 100 : Int64).toInt = min (max v.toInt 0) 100 := by
    rw [toInt_min, toInt_max]
    rfl
  have up : 0 ≤ (min (max v 0) 100 : Int64).toInt := by
    rw [value]
    omega
  rw [peak, toNat_cast up, value]

theorem most_least (least v : Int64) (nonneg : 0 ≤ least.toInt) :
    least.toUInt64 ≤ atLeast least v := by
  rw [UInt64.le_iff_toNat_le, atLeast_toNat least v nonneg, toNat_cast nonneg]
  omega

theorem peak_le (v : Int64) : peak v ≤ 100 := by
  rw [UInt64.le_iff_toNat_le, peak_toNat]
  have hundred : (100 : UInt64).toNat = 100 := rfl
  omega

theorem least_max (n least : UInt64) : least ≤ max n least := by
  rw [show max n least = if n ≤ least then least else n from rfl]
  split
  · exact UInt64.le_refl _
  · rename_i above
    exact UInt64.le_of_lt (UInt64.not_le.mp above)

theorem asNumber_eq_some {clamp : Int64 → UInt64} {val : Val} {v : Setting.Value}
    (read : Setting.asNumber clamp val = some v) : ∃ i, v = .number (clamp i) := by
  cases val with
  | int i => exact ⟨i, (Option.some.inj read).symm⟩
  | str s => cases read
  | bool b => cases read
  | arr items => cases read

theorem read_inRange {s : Setting} {val : Val} {v : Setting.Value} (read : s.read val = some v) :
    s.InRange v := by
  cases s with
  | thresholdMs =>
    obtain ⟨i, rfl⟩ := asNumber_eq_some read
    exact most_least 1 i (by decide)
  | captureMs =>
    obtain ⟨i, rfl⟩ := asNumber_eq_some read
    exact most_least 50 i (by decide)
  | historySecs =>
    obtain ⟨i, rfl⟩ := asNumber_eq_some read
    exact most_least 10 i (by decide)
  | notifyMinPeak =>
    obtain ⟨i, rfl⟩ := asNumber_eq_some read
    exact peak_le i
  | resources | notifyEnabled | notifyCooldownSecs => exact trivial

theorem variable_inRange {s : Setting} {name : List Char} {least n : UInt64}
    (env : s.envVar = some (name, least)) (above : least ≤ n) : s.InRange (.number n) := by
  cases s <;> cases env <;> exact above

theorem sets_inRange {s : Setting} {l : Layer} {v : Setting.Value} (sets : l.sets s = some v) :
    s.InRange v := by
  cases l with
  | file path body =>
    obtain ⟨val, _, read⟩ := Option.bind_eq_some_iff.mp sets
    exact read_inRange read
  | env vars =>
    obtain ⟨⟨name, least⟩, env, found⟩ := Option.bind_eq_some_iff.mp sets
    obtain ⟨n, _, rfl⟩ := Option.map_eq_some_iff.mp found
    exact variable_inRange env (least_max _ _)

theorem default_inRange (s : Setting) : s.InRange (s.get Config.default).value := by
  cases s <;> simp only [Setting.InRange, Setting.get, Setting.sourced] <;> decide

theorem gives_value {s : Setting} {layers : List Layer} {x : Sourced Setting.Value}
    (given : latest (Layer.gives s) layers = some x) :
    ∃ before l after v, layers = before ++ l :: after ∧ l.sets s = some v ∧
      (∀ m ∈ after, m.sets s = none) ∧ x = ⟨v, l.origin s⟩ := by
  obtain ⟨before, l, after, split, gives, silent⟩ := (latest_eq_some _).mp given
  obtain ⟨v, sets, rfl⟩ := Option.map_eq_some_iff.mp gives
  exact ⟨before, l, after, v, split, sets, fun m member => Option.map_eq_none_iff.mp (silent m member), rfl⟩

/-- What the layers make of one setting: the value of the last that sets it, under its
name, or the default. -/
def Resolved (layers : List Layer) (s : Setting) (x : Sourced Setting.Value) : Prop :=
  (∃ before l after v, layers = before ++ l :: after ∧ l.sets s = some v ∧
      (∀ m ∈ after, m.sets s = none) ∧ x = ⟨v, l.origin s⟩) ∨
    (∀ l ∈ layers, l.sets s = none) ∧ x = s.get Config.default

theorem resolved_latest (layers : List Layer) (s : Setting) :
    Resolved layers s ((latest (Layer.gives s) layers).getD (s.get Config.default)) := by
  cases given : latest (Layer.gives s) layers with
  | some x => exact .inl (gives_value given)
  | none =>
    refine .inr ⟨fun l member => ?_, rfl⟩
    exact Option.map_eq_none_iff.mp ((latest_eq_none _).mp given l member)

theorem resolved_inRange {layers : List Layer} {s : Setting} {x : Sourced Setting.Value}
    (resolved : Resolved layers s x) : s.InRange x.value := by
  rcases resolved with ⟨_, _, _, _, _, sets, _, rfl⟩ | ⟨_, rfl⟩
  · exact sets_inRange sets
  · exact default_inRange s

/-- The layers in order: the files and the environment. -/
def layersOf (files : List (OsString × List Char)) (vars : List Char → Option (List Char)) :
    List Layer :=
  (files.map fun file => .file file.1 file.2) ++ [.env vars]

theorem applyAll_resolved {files : List (OsString × List Char)} {c : Config}
    (applied : Config.default.applyAll f files = .ok c) (vars : List Char → Option (List Char))
    (s : Setting) : Resolved (layersOf files vars) s (s.get (c.applyEnv vars)) := by
  have last := resolved_latest (layersOf files vars) s
  have split : latest (Layer.gives s) (layersOf files vars) = ((Layer.env vars).gives s).or
      (latest (Layer.gives s) (files.map fun file => .file file.1 file.2)) := latest_concat _ _ _
  rw [split] at last
  rw [applyEnv_gives, applyAll_gives applied]
  cases given : (Layer.env vars).gives s with
  | some x => simpa only [given, Option.some_or, Option.getD_some] using last
  | none => simpa only [given, Option.none_or, Option.getD_none] using last

/-- Each setting is that of the last layer that sets it, within its range, and the rules are
those of the bodies one after the other, each what its `[[rule]]` table says. -/
theorem layered {files : List (OsString × List Char)} {c : Config}
    (applied : Config.default.applyAll f files = .ok c) (vars : List Char → Option (List Char)) :
    (∀ s : Setting, Resolved (layersOf files vars) s (s.get (c.applyEnv vars))) ∧
      (1 ≤ (c.applyEnv vars).thresholdMs.value ∧ 50 ≤ (c.applyEnv vars).captureMs.value ∧
        10 ≤ (c.applyEnv vars).historySecs.value ∧ (c.applyEnv vars).notifyMinPeak.value ≤ 100) ∧
      ∃ groups, List.Forall₂ (fun file rules => RulesOf f file.2 rules) files groups ∧
        (c.applyEnv vars).rules = groups.flatten := by
  have resolved := applyAll_resolved applied vars
  refine ⟨resolved, ⟨?_, ?_, ?_, ?_⟩, applyAll_rules applied⟩
  · exact resolved_inRange (resolved .thresholdMs)
  · exact resolved_inRange (resolved .captureMs)
  · exact resolved_inRange (resolved .historySecs)
  · exact resolved_inRange (resolved .notifyMinPeak)

def systemFile : OsString := Utf8.bytes "/etc/xdg/stallwatch/config.toml".toList

def userFile : OsString := Utf8.bytes "/root/.config/stallwatch/config.toml".toList

/-- Two files and one variable. The second file has a value of the wrong type, and a rule. -/
def session : List (OsString × List Char) :=
  [(systemFile, "[capture]\nthreshold_ms = 25\ncapture_ms = 900\n".toList),
    (userFile, "[capture]\nthreshold_ms = \"9\"\n[notify]\nmin_peak = 500\n\n".toList ++
      "[[rule]]\nwhen = \"peak >= 50\"\nrun = \"sync\"\n".toList)]

def sessionVars (name : List Char) : Option (List Char) :=
  if name = captureVar then some "7".toList else none

def sessionRule : Rule :=
  ⟨"rule 1".toList, ⟨.compare "peak".toList .ge (.num (.whole 50)), "peak >= 50".toList⟩,
    ⟨some "sync".toList, none, false⟩⟩

def sessionConfig : Config :=
  { Config.default with
    thresholdMs := ⟨25, .file systemFile⟩
    captureMs := ⟨900, .file systemFile⟩
    notifyMinPeak := ⟨100, .file userFile⟩
    rules := [sessionRule] }

theorem layered_session :
    (∀ s : Setting, Resolved (layersOf session sessionVars) s (s.get (sessionConfig.applyEnv sessionVars))) ∧
      50 ≤ (sessionConfig.applyEnv sessionVars).captureMs.value ∧
      ∃ groups, List.Forall₂ (fun file rules => RulesOf .exact file.2 rules) session groups ∧
        [sessionRule] = groups.flatten := by
  have applied : Config.default.applyAll .exact session = .ok sessionConfig := by decide +kernel
  have resolved := layered applied sessionVars
  exact ⟨resolved.1, resolved.2.1.2.1, resolved.2.2⟩

end Config

end Stallwatch
