import Mathlib.Data.List.Lex
import Mathlib.Order.Lattice
import Stallwatch.Base.Utf8

/-! Paths as the standard library sees them: lists of components, with equality,
order, prefix and parent taken on the components. File names are bytes. -/
namespace Stallwatch

abbrev OsString := List UInt8

inductive Component where
  | rootDir
  | curDir
  | parentDir
  | normal (name : OsString)
  deriving DecidableEq, Repr

/-- Root, current directory and parent directory come before every name. -/
def Component.key : Component → List ℕ
  | .rootDir => [0]
  | .curDir => [1]
  | .parentDir => [2]
  | .normal name => 3 :: name.map UInt8.toNat

theorem Component.key_injective : Function.Injective Component.key := by
  intro a b h
  cases a <;> cases b <;> simp_all [Component.key]
  exact List.map_injective_iff.mpr (fun _ _ => UInt8.toNat_inj.mp) h

instance : LinearOrder Component := LinearOrder.lift' Component.key Component.key_injective

/-- The root can only be the first component. -/
structure PathBuf where
  components : List Component
  rootFirst : .rootDir ∉ components.tail
  deriving DecidableEq, Repr

namespace PathBuf

theorem components_injective : Function.Injective components := by
  rintro ⟨as, _⟩ ⟨bs, _⟩ h
  cases h
  rfl

instance : LinearOrder PathBuf := LinearOrder.lift' components components_injective

def isAbsolute (p : PathBuf) : Bool := p.components.head? == some .rootDir

def startsWith (p base : PathBuf) : Bool := base.components.isPrefixOf p.components

theorem dropLast_rootFirst {cs : List Component} (h : .rootDir ∉ cs.tail) :
    .rootDir ∉ cs.dropLast.tail := by
  cases cs with
  | nil => exact h
  | cons c cs =>
    cases cs with
    | nil => exact h
    | cons d cs => exact fun hm => h (List.dropLast_subset _ hm)

def parent (p : PathBuf) : Option PathBuf :=
  match p.components.getLast? with
  | none | some .rootDir => none
  | some _ => some ⟨p.components.dropLast, dropLast_rootFirst p.rootFirst⟩

theorem parent_eq_some {p a : PathBuf} :
    p.parent = some a ↔ ∃ c, c ≠ .rootDir ∧ p.components = a.components ++ [c] := by
  have taken : ∀ c, p.components.getLast? = some c → c ≠ .rootDir →
      p.parent = some ⟨p.components.dropLast, dropLast_rootFirst p.rootFirst⟩ := by
    intro c last notRoot
    unfold parent
    rw [last]
    cases c <;> first | rfl | exact absurd rfl notRoot
  constructor
  · intro stepped
    cases last : p.components.getLast? with
    | none => simp [parent, last] at stepped
    | some c =>
      have notRoot : c ≠ .rootDir := by
        rintro rfl
        simp [parent, last] at stepped
      rw [taken c last notRoot, Option.some.injEq] at stepped
      rw [← stepped]
      exact ⟨c, notRoot, (List.dropLast_append_getLast? c last).symm⟩
  · rintro ⟨c, notRoot, hc⟩
    rw [taken c (by simp [hc]) notRoot, Option.some.injEq]
    exact components_injective (by simp [hc])

theorem parent_length {p a : PathBuf} (h : p.parent = some a) :
    p.components.length = a.components.length + 1 := by
  obtain ⟨c, _, hc⟩ := parent_eq_some.mp h
  simp [hc]

/-- `q` lies strictly below `p`, component by component. -/
def Within (q p : PathBuf) : Prop := q ≠ p ∧ q.startsWith p = true

theorem startsWith_iff {p base : PathBuf} :
    p.startsWith base = true ↔ base.components <+: p.components := List.isPrefixOf_iff_prefix

theorem Within.trans {r q p : PathBuf} (h : r.Within q) (k : q.Within p) : r.Within p := by
  obtain ⟨hne, hrq⟩ := h
  obtain ⟨kne, hqp⟩ := k
  rw [startsWith_iff] at hrq hqp
  refine ⟨?_, startsWith_iff.mpr (hqp.trans hrq)⟩
  rintro rfl
  exact kne (components_injective (hrq.eq_of_length (le_antisymm hrq.length_le hqp.length_le)))

theorem Within.lt {q p : PathBuf} (h : q.Within p) : p < q := by
  obtain ⟨hne, hpre⟩ := h
  obtain ⟨rest, hrest⟩ := startsWith_iff.mp hpre
  cases rest with
  | nil => exact absurd (components_injective (by simpa using hrest.symm)) hne
  | cons c rest =>
    have extended : List.Lex (· < ·) p.components (p.components ++ c :: rest) := by
      simpa using List.Lex.append_left (· < ·) (.nil) p.components
    rw [hrest] at extended
    exact extended

theorem Within.length_lt {q p : PathBuf} (h : q.Within p) :
    p.components.length < q.components.length := by
  have prefixed := startsWith_iff.mp h.2
  refine lt_of_le_of_ne prefixed.length_le fun same => h.1 ?_
  exact (components_injective (prefixed.eq_of_length same)).symm

theorem within_parent {q a : PathBuf} (h : q.parent = some a) : q.Within a := by
  obtain ⟨c, _, hc⟩ := parent_eq_some.mp h
  refine ⟨?_, startsWith_iff.mpr ⟨[c], hc.symm⟩⟩
  rintro rfl
  simp at hc

/- A path with a component is above another exactly when it is met going up from there. -/
theorem within_iff {q p : PathBuf} (nonempty : p.components ≠ []) :
    q.Within p ↔ ∃ a, q.parent = some a ∧ (a = p ∨ a.Within p) := by
  constructor
  · rintro ⟨hne, hpre⟩
    obtain ⟨t, ht⟩ := startsWith_iff.mp hpre
    obtain rfl | ⟨init, c, rfl⟩ := t.eq_nil_or_concat'
    · exact absurd (components_injective (by simpa using ht.symm)) hne
    · have notRoot : c ≠ .rootDir := by
        rintro rfl
        refine q.rootFirst ?_
        rw [← ht]
        obtain ⟨d, ds, hd⟩ := List.exists_cons_of_ne_nil nonempty
        simp [hd]
      have rootFirst : .rootDir ∉ (p.components ++ init).tail := by
        have h := dropLast_rootFirst q.rootFirst
        rwa [← ht, ← List.append_assoc, List.dropLast_concat] at h
      refine ⟨⟨p.components ++ init, rootFirst⟩,
        parent_eq_some.mpr ⟨c, notRoot, by simp [← ht]⟩, ?_⟩
      by_cases same : (⟨p.components ++ init, rootFirst⟩ : PathBuf) = p
      · exact .inl same
      · exact .inr ⟨same, startsWith_iff.mpr (List.prefix_append _ _)⟩
  · rintro ⟨a, ha, rfl | h⟩
    · exact within_parent ha
    · exact (within_parent ha).trans h

/-- `p` is met going up from `q`. -/
def Descends : PathBuf → PathBuf → Prop := Relation.TransGen fun q a => q.parent = some a

theorem descends_iff {q p : PathBuf} :
    q.Descends p ↔ ∃ a, q.parent = some a ∧ (a = p ∨ a.Descends p) := by
  rw [Descends, Relation.TransGen.head'_iff]
  simp only [Relation.reflTransGen_iff_eq_or_transGen, eq_comm]

theorem Descends.trans {r q p : PathBuf} (h : r.Descends q) (k : q.Descends p) : r.Descends p :=
  Relation.TransGen.trans h k

theorem Descends.within {q p : PathBuf} (h : q.Descends p) : q.Within p := by
  induction h with
  | single step => exact within_parent step
  | tail _ step ih => exact ih.trans (within_parent step)

theorem Descends.length_lt {q p : PathBuf} (h : q.Descends p) :
    p.components.length < q.components.length := h.within.length_lt

/- Only the empty path has more below it, component by component, than going up tells. -/
theorem descends_iff_within {q p : PathBuf} (nonempty : p.components ≠ []) :
    q.Descends p ↔ q.Within p := by
  refine ⟨Descends.within, ?_⟩
  induction size : q.components.length using Nat.strongRecOn generalizing q with
  | ind n ih =>
    intro within
    obtain ⟨a, up, same | outer⟩ := (within_iff nonempty).mp within
    · exact descends_iff.mpr ⟨a, up, .inl same⟩
    · have shorter : a.components.length < n := by
        rw [← size, parent_length up]
        exact Nat.lt_succ_self _
      exact descends_iff.mpr ⟨a, up, .inr (ih _ shorter rfl outer)⟩

theorem nonempty_of_isAbsolute {p : PathBuf} (absolute : p.isAbsolute = true) : p.components ≠ [] := by
  intro none
  simp [isAbsolute, none] at absolute

def fileName (p : PathBuf) : Option OsString :=
  match p.components.getLast? with
  | some (.normal name) => some name
  | _ => none

def componentText : Component → OsString
  | .rootDir => []
  | .curDir => [0x2E]
  | .parentDir => [0x2E, 0x2E]
  | .normal name => name

/-- The path as written, with single separators. -/
def text (p : PathBuf) : OsString :=
  if p.components = [.rootDir] then [0x2F]
  else List.intercalate [0x2F] (p.components.map componentText)

def toStringLossy (p : PathBuf) : String := String.ofList (Utf8.fromUtf8Lossy p.text)

def component (name : List Char) : Component :=
  if name = ['.', '.'] then .parentDir else .normal (Utf8.bytes name)

/-- An absolute path from its names. -/
def absolute (names : List String) : PathBuf where
  components := .rootDir :: names.map fun s => component s.toList
  rootFirst := by
    simp only [List.tail_cons, List.mem_map, not_exists, not_and]
    intro s _
    unfold component
    split <;> exact Component.noConfusion

end PathBuf

end Stallwatch
