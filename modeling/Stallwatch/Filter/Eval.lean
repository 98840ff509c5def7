import Stallwatch.Base.Trim
import Stallwatch.Filter.Parser
import Stallwatch.Report

/-! What a filter means. The operators compare numbers as numbers and everything else as
text; a match looks for any of several alternatives in a text. -/
namespace Stallwatch.Filter

open Text

/-- Anything a filter can be evaluated against. -/
class Queryable (Q : Type) where
  fieldStr : Q → List Char → Option (List Char)
  fieldNum : Rounding → Q → List Char → Option F64
  fieldBool : Q → List Char → Option Bool := fun _ _ => none

open Queryable

instance : Queryable Stall where
  fieldStr s name :=
    match String.ofList name with
    | "unit" => some s.unit.toList
    | "cgroup" => some s.cgroup.toList
    | "resource" => some s.resource.display.toList
    | "kind" | "type" => some s.kind.display.toList
    | _ => none
  fieldNum f s name :=
    match String.ofList name with
    | "pct" | "pressure_pct" => some s.pressurePct
    | "peak" | "peak_pct" => some s.peakPct
    | "delta_ms" => some (F64.div f (F64.ofNat f s.deltaUsec.toNat) (.whole 1000))
    | "delta_usec" => some (F64.ofNat f s.deltaUsec.toNat)
    | _ => none

instance : Queryable Warning where
  fieldStr w name :=
    match String.ofList name with
    | "warning.source" | "source" => some w.source.toList
    | "warning.severity" | "severity" => some w.severity.display.toList
    | "warning.message" | "message" => some w.message.toList
    | _ => none
  fieldNum _ _ _ := none
  fieldBool w name :=
    match String.ofList name with
    | "warning.transient" | "transient" => some w.transient
    | _ => none

section Evaluation

variable (f : Rounding) (display : F64 → List Char)

/-- The distance between 1.0 and the next number. -/
def epsilon : F64 := .finite false (1 / (2 ^ 52 : ℕ))

def formatNum (n : F64) : List Char :=
  if n.fract.same (.whole 0) then (toString n.asI64.toInt).toList else display n

def compareNum (lhs : F64) (op : Op) (rhs : F64) : Bool :=
  match op with
  | .eq => (F64.sub f lhs rhs).abs.lt epsilon
  | .ne => (F64.sub f lhs rhs).abs.atLeast epsilon
  | .gt => rhs.lt lhs
  | .lt => lhs.lt rhs
  | .ge => lhs.atLeast rhs
  | .le => rhs.atLeast lhs
  | .match => decide (display rhs <:+: display lhs)

/-- Text is ordered by its bytes, which is the order of its characters. -/
def compareText (lhs : List Char) (op : Op) (rhs : List Char) : Bool :=
  match op with
  | .eq => eqIgnoreAsciiCase lhs rhs
  | .ne => !eqIgnoreAsciiCase lhs rhs
  | .match =>
    ((rhs.splitOn '|').filter (· ≠ [])).any fun p => decide (asciiLower (trim p) <:+: asciiLower lhs)
  | .gt => decide (rhs < lhs)
  | .lt => decide (lhs < rhs)
  | .ge => !decide (lhs < rhs)
  | .le => !decide (rhs < lhs)

variable {Q : Type} [Queryable Q]

/-- `display` writes a number as the shortest text that is read back as it. -/
def compare (s : Q) (field : List Char) (op : Op) (value : Value) : Bool :=
  match fieldNum f s field, value with
  | some lhs, .num rhs => compareNum f display lhs op rhs
  | _, value =>
    match fieldStr s field with
    | none => false
    | some lhs =>
      match value with
      | .str t => compareText lhs op t
      | .num n => compareText lhs op (formatNum display n)

def eval (s : Q) : Node → Bool
  | .and a b => eval s a && eval s b
  | .or a b => eval s a || eval s b
  | .not a => !eval s a
  | .truthy name =>
    (((fieldBool s name).or ((fieldNum f s name).map fun n => !n.same (.whole 0))).or
      ((fieldStr s name).map fun t => !t.isEmpty)).getD false
  | .compare field op value => compare f display s field op value

section Match

variable {s : Q} {field value : List Char}

/- A pattern is compared as text. -/
theorem eval_match (text : fieldStr s field = some value) (pattern : List Char) :
    eval f display s (.compare field .match (.str pattern)) = true ↔
      ∃ p ∈ pattern.splitOn '|', p ≠ [] ∧ asciiLower (trim p) <:+: asciiLower value := by
  have compared : eval f display s (.compare field .match (.str pattern)) =
      compareText value .match pattern := by
    cases number : fieldNum f s field <;> simp [eval, compare, number, text]
  rw [compared]
  simp [compareText]

/-- Some alternative that is not blank occurs in the text, in whatever case. -/
def Finds (pattern value : List Char) : Prop :=
  ∃ p ∈ pattern.splitOn '|', trim p ≠ [] ∧ asciiLower (trim p) <:+: asciiLower value

/-- An alternative of blanks, of at least one. -/
def BlankAlternative (pattern : List Char) : Prop := ∃ p ∈ pattern.splitOn '|', p ≠ [] ∧ trim p = []

/- A blank alternative occurs in every text. -/
theorem eval_match_blank (text : fieldStr s field = some value) {pattern : List Char}
    (wildcard : BlankAlternative pattern) :
    eval f display s (.compare field .match (.str pattern)) = true := by
  obtain ⟨p, listed, some, blank⟩ := wildcard
  refine (eval_match f display text pattern).mpr ⟨p, listed, some, ?_⟩
  rw [blank]
  exact List.nil_infix

theorem eval_match_finds (text : fieldStr s field = some value) {pattern : List Char}
    (narrow : ¬ BlankAlternative pattern) :
    eval f display s (.compare field .match (.str pattern)) = true ↔ Finds pattern value := by
  rw [eval_match f display text]
  constructor
  · rintro ⟨p, listed, some, occurs⟩
    exact ⟨p, listed, fun blank => narrow ⟨p, listed, some, blank⟩, occurs⟩
  · rintro ⟨p, listed, words, occurs⟩
    have some : p ≠ [] := by
      rintro rfl
      exact words rfl
    exact ⟨p, listed, some, occurs⟩

/-- A match finds its alternatives exactly when none of them is blank, or another of them
occurs anyway. -/
theorem match_finds_iff (text : fieldStr s field = some value) (pattern : List Char) :
    (eval f display s (.compare field .match (.str pattern)) = true ↔ Finds pattern value) ↔
      ¬ BlankAlternative pattern ∨ Finds pattern value := by
  by_cases wildcard : BlankAlternative pattern
  · have matched := eval_match_blank f display text wildcard
    simp [matched, wildcard]
  · have exact := eval_match_finds f display text wildcard
    simp [exact, wildcard]

end Match

end Evaluation

def stalled (unit : String) : Stall :=
  ⟨unit, "/sys/fs/cgroup/" ++ unit, .io, .full, 10000, .whole 10, .whole 10⟩

theorem match_finds_ghostty :
    eval .exact (F64.format 1) (stalled "com.mitchellh.ghostty")
      (.compare "unit".toList .match (.str "firefox|ghostty".toList)) = true :=
  ((match_finds_iff .exact (F64.format 1) (s := stalled "com.mitchellh.ghostty") rfl _).mpr
    (.inl (by unfold BlankAlternative; decide))).mpr (by unfold Finds; decide)

/- A space behind the last bar. -/
theorem not_match_finds :
    eval .exact (F64.format 1) (stalled "chrome") (.compare "unit".toList .match (.str "firefox| ".toList)) =
        true ∧ ¬ Finds "firefox| ".toList "chrome".toList ∧
      ¬ ∀ (f : Rounding) (display : F64 → List Char) (s : Stall) (field value pattern : List Char),
        Queryable.fieldStr s field = some value →
        (eval f display s (.compare field .match (.str pattern)) = true ↔ Finds pattern value) := by
  have matched : eval .exact (F64.format 1) (stalled "chrome")
      (.compare "unit".toList .match (.str "firefox| ".toList)) = true :=
    eval_match_blank .exact (F64.format 1) (s := stalled "chrome") rfl
      (by unfold BlankAlternative; decide)
  have absent : ¬ Finds "firefox| ".toList "chrome".toList := by
    unfold Finds
    decide
  refine ⟨matched, absent, fun finds => absent ?_⟩
  exact (finds .exact (F64.format 1) (stalled "chrome") "unit".toList _ _ rfl).mp matched

end Stallwatch.Filter
