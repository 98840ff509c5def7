import Stallwatch.Config
import Stallwatch.Config.Document

/-! The settings as one family: where each is written, the type it is read as, and what
a document makes of the configuration it is applied to. -/
namespace Stallwatch

open Text Toml

inductive Setting where
  | thresholdMs | captureMs | historySecs | resources
  | notifyEnabled | notifyMinPeak | notifyCooldownSecs
  deriving DecidableEq

namespace Setting

inductive Value where
  | number (n : UInt64)
  | flag (b : Bool)
  | names (xs : List (List Char))
  deriving DecidableEq

def all : List Setting :=
  [.thresholdMs, .captureMs, .historySecs, .resources, .notifyEnabled, .notifyMinPeak,
    .notifyCooldownSecs]

theorem mem_all (s : Setting) : s ∈ all := by cases s <;> decide

def table : Setting → List Char
  | .thresholdMs | .captureMs | .historySecs | .resources => capture
  | .notifyEnabled | .notifyMinPeak | .notifyCooldownSecs => notify

def key : Setting → List Char
  | .thresholdMs => "threshold_ms".toList
  | .captureMs => "capture_ms".toList
  | .historySecs => "history_secs".toList
  | .resources => "resources".toList
  | .notifyEnabled => "enabled".toList
  | .notifyMinPeak => "min_peak".toList
  | .notifyCooldownSecs => "cooldown_secs".toList

def place (s : Setting) : Place := .table s.table

def asNumber (clamp : Int64 → UInt64) : Val → Option Value
  | .int v => some (.number (clamp v))
  | _ => none

def asFlag : Val → Option Value
  | .bool b => some (.flag b)
  | _ => none

def asNames : Val → Option Value
  | .arr xs => some (.names xs)
  | _ => none

/-- The value a setting takes from a value of the type it is read as. -/
def read : Setting → Val → Option Value
  | .thresholdMs => asNumber (Config.atLeast 1)
  | .captureMs => asNumber (Config.atLeast 50)
  | .historySecs => asNumber (Config.atLeast 10)
  | .resources => asNames
  | .notifyEnabled => asFlag
  | .notifyMinPeak => asNumber Config.peak
  | .notifyCooldownSecs => asNumber (Config.atLeast 0)

def sourced {α : Type} (wrap : α → Value) (s : Sourced α) : Sourced Value := ⟨wrap s.value, s.origin⟩

def get (c : Config) : Setting → Sourced Value
  | .thresholdMs => sourced .number c.thresholdMs
  | .captureMs => sourced .number c.captureMs
  | .historySecs => sourced .number c.historySecs
  | .resources => sourced .names c.resources
  | .notifyEnabled => sourced .flag c.notifyEnabled
  | .notifyMinPeak => sourced .number c.notifyMinPeak
  | .notifyCooldownSecs => sourced .number c.notifyCooldownSecs

theorem sourced_override {α : Type} (wrap : α → Value) (s : Sourced α) (v : Option α) (o : Origin) :
    sourced wrap (s.override v o) = (sourced wrap s).override (v.map wrap) o := by
  cases v <;> rfl

section Lookup

variable (t : Table) (k : List Char) (o : Origin)

theorem override_number (s : Sourced UInt64) (clamp : Int64 → UInt64) :
    sourced .number (s.override ((t.int k).map clamp) o) =
      (sourced .number s).override ((t.keys.lookup k).bind (asNumber clamp)) o := by
  rw [sourced_override, Table.int]
  cases t.keys.lookup k with
  | none => rfl
  | some v => cases v <;> rfl

theorem override_flag (s : Sourced Bool) :
    sourced .flag (s.override (t.bool k) o) =
      (sourced .flag s).override ((t.keys.lookup k).bind asFlag) o := by
  rw [sourced_override, Table.bool]
  cases t.keys.lookup k with
  | none => rfl
  | some v => cases v <;> rfl

theorem override_names (s : Sourced (List (List Char))) :
    sourced .names (s.override (t.strings k) o) =
      (sourced .names s).override ((t.keys.lookup k).bind asNames) o := by
  rw [sourced_override, Table.strings]
  cases t.keys.lookup k with
  | none => rfl
  | some v => cases v <;> rfl

end Lookup

variable {s : Setting} (c : Config) (t : Table) (o : Origin)

theorem get_applyCapture (own : s.table = capture) :
    s.get (c.applyCapture t o) = (s.get c).override ((t.keys.lookup s.key).bind s.read) o := by
  cases s with
  | thresholdMs => exact override_number t _ o _ _
  | captureMs => exact override_number t _ o _ _
  | historySecs => exact override_number t _ o _ _
  | resources => exact override_names t _ o _
  | notifyEnabled => exact absurd own (by decide)
  | notifyMinPeak => exact absurd own (by decide)
  | notifyCooldownSecs => exact absurd own (by decide)

theorem get_applyNotify (own : s.table = notify) :
    s.get (c.applyNotify t o) = (s.get c).override ((t.keys.lookup s.key).bind s.read) o := by
  cases s with
  | thresholdMs => exact absurd own (by decide)
  | captureMs => exact absurd own (by decide)
  | historySecs => exact absurd own (by decide)
  | resources => exact absurd own (by decide)
  | notifyEnabled => exact override_flag t _ o _
  | notifyMinPeak => exact override_number t _ o _ _
  | notifyCooldownSecs => exact override_number t _ o _ _

theorem get_applyCapture_notify (other : s.table = notify) : s.get (c.applyCapture t o) = s.get c := by
  cases s with
  | thresholdMs => exact absurd other (by decide)
  | captureMs => exact absurd other (by decide)
  | historySecs => exact absurd other (by decide)
  | resources => exact absurd other (by decide)
  | notifyEnabled | notifyMinPeak | notifyCooldownSecs => rfl

theorem get_applyNotify_capture (other : s.table = capture) : s.get (c.applyNotify t o) = s.get c := by
  cases s with
  | thresholdMs | captureMs | historySecs | resources => rfl
  | notifyEnabled => exact absurd other (by decide)
  | notifyMinPeak => exact absurd other (by decide)
  | notifyCooldownSecs => exact absurd other (by decide)

theorem table_cases (s : Setting) : s.table = capture ∨ s.table = notify := by
  cases s with
  | thresholdMs | captureMs | historySecs | resources => exact .inl rfl
  | notifyEnabled | notifyMinPeak | notifyCooldownSecs => exact .inr rfl

/- Every setting is that of the document where it has one of the right type. -/
theorem get_applyTables (s : Setting) (c : Config) (doc : Doc) (o : Origin) :
    s.get (c.applyTables doc o) = (s.get c).override ((doc.get s.place s.key).bind s.read) o := by
  unfold Config.applyTables
  rcases s.table_cases with own | own
  · have found : doc.get s.place s.key = (doc.tables.lookup capture).bind fun t => t.keys.lookup s.key := by
      rw [place, own, Doc.get]
    rw [found]
    have kept : ∀ d : Config, s.get ((doc.tables.lookup notify).elim d fun t => d.applyNotify t o) = s.get d := by
      intro d
      cases doc.tables.lookup notify with
      | none => rfl
      | some t => exact get_applyNotify_capture d t o own
    rw [kept]
    cases doc.tables.lookup capture with
    | none => rfl
    | some t => exact get_applyCapture c t o own
  · have found : doc.get s.place s.key = (doc.tables.lookup notify).bind fun t => t.keys.lookup s.key := by
      rw [place, own, Doc.get]
    rw [found]
    have kept : s.get ((doc.tables.lookup capture).elim c fun t => c.applyCapture t o) = s.get c := by
      cases doc.tables.lookup capture with
      | none => rfl
      | some t => exact get_applyCapture_notify c t o own
    rw [← kept]
    cases doc.tables.lookup notify with
    | none => rfl
    | some t => exact get_applyNotify _ t o own

end Setting

namespace Config

theorem rules_applyTables (c : Config) (doc : Doc) (o : Origin) :
    (c.applyTables doc o).rules = c.rules ∧ (c.applyTables doc o).loaded = c.loaded := by
  unfold applyTables
  cases doc.tables.lookup capture <;> cases doc.tables.lookup notify <;> exact ⟨rfl, rfl⟩

/- What a body does that is accepted. -/
theorem applyToml_eq_ok {f : Rounding} {c c' : Config} {body : List Char} {path : OsString} :
    c.applyToml f body path = .ok c' ↔
      ∃ doc rules, parseToml body = .ok doc ∧ toRules f 0 doc.rules = .ok rules ∧
        c' = { c.applyTables doc (.file path) with rules := c.rules ++ rules } := by
  constructor
  · intro applied
    unfold applyToml at applied
    split at applied
    · cases applied
    · rename_i doc parsed
      split at applied
      · cases applied
      · cases applied
      · rename_i rules made
        cases applied
        exact ⟨doc, rules, parsed, made, by rw [(rules_applyTables c doc _).1]⟩
  · rintro ⟨doc, rules, parsed, made, rfl⟩
    simp only [applyToml, parsed, made, rules_applyTables]

/- Settings that the body has become its own; the others stay. -/
theorem applyToml_get {f : Rounding} {c c' : Config} {body : List Char} {path : OsString}
    (applied : c.applyToml f body path = .ok c') (s : Setting) :
    s.get c' = (s.get c).override
      ((latest (Assignment.valueAt s.place s.key) (settings body)).bind s.read) (.file path) := by
  obtain ⟨doc, rules, parsed, _, rfl⟩ := applyToml_eq_ok.mp applied
  rcases parseToml_cases body with ⟨doc', ok, _, get, _⟩ | ⟨_, msg, failed⟩
  · rw [parsed] at ok
    cases ok
    rw [← get, ← Setting.get_applyTables]
    cases s <;> rfl
  · rw [parsed] at failed
    cases failed

end Config

end Stallwatch
