import Mathlib.Algebra.GroupWithZero.Nat
import Mathlib.Data.List.Basic
import Mathlib.Data.List.Infix
import Mathlib.Data.List.Pairwise
import Mathlib.Data.Nat.Notation
import Mathlib.Tactic.Common
import Stallwatch.Base.Text

/-! Texts with slots. A slot is a pattern with the value that goes in its place. Filling
slots one after another agrees with filling them all in one pass as long as no value makes
a pattern that was not there before. -/
namespace Stallwatch

abbrev Slot (α : Type*) := List α × List α

namespace Slots

variable {α : Type*}

/-- No pattern starts here. -/
def Free (σ : List (Slot α)) (s : List α) : Prop := ∀ e ∈ σ, ¬ e.1 <+: s

/-- Every pattern starts with the mark and has it nowhere else, and none starts another. -/
structure Marked (m : α) (σ : List (Slot α)) : Prop where
  opens : ∀ e ∈ σ, ∃ body, e.1 = m :: body ∧ m ∉ body
  apart : σ.Pairwise fun e f => ¬ e.1 <+: f.1 ∧ ¬ f.1 <+: e.1

section Patterns

variable {m : α} {σ τ : List (Slot α)} {s : List α} {a : α} {e : Slot α}

/- The patterns that start at one place are one. -/
theorem Marked.unique (marked : Marked m σ) {e f : Slot α} (he : e ∈ σ) (hf : f ∈ σ)
    (first : e.1 <+: s) (second : f.1 <+: s) : e = f := by
  by_contra different
  have symm : Std.Symm fun e f : Slot α => ¬ e.1 <+: f.1 ∧ ¬ f.1 <+: e.1 := ⟨fun _ _ h => h.symm⟩
  obtain ⟨left, right⟩ := marked.apart.forall he hf different
  exact (List.prefix_or_prefix_of_prefix first second).elim left right

/- Without the mark no pattern starts. -/
theorem free_unmarked (marked : Marked m σ) (other : a ≠ m) : Free σ (a :: s) := by
  intro e he first
  obtain ⟨body, shape, _⟩ := marked.opens e he
  rw [shape] at first
  exact other (List.cons_prefix_cons.mp first).1.symm

theorem Marked.left (marked : Marked m (σ ++ τ)) : Marked m σ :=
  ⟨fun e he => marked.opens e (List.mem_append_left τ he), (List.pairwise_append.mp marked.apart).1⟩

theorem Marked.right (marked : Marked m (σ ++ τ)) : Marked m τ :=
  ⟨fun e he => marked.opens e (List.mem_append_right σ he), (List.pairwise_append.mp marked.apart).2.1⟩

theorem Marked.sublist (marked : Marked m σ) (sub : τ.Sublist σ) : Marked m τ :=
  ⟨fun e he => marked.opens e (sub.subset he), marked.apart.sublist sub⟩

theorem Marked.apart_left (marked : Marked m (σ ++ τ)) (he : e ∈ σ) (s : List α) : Free τ (e.1 ++ s) := by
  intro f hf first
  have apart := (List.pairwise_append.mp marked.apart).2.2 e he f hf
  exact (List.prefix_or_prefix_of_prefix (List.prefix_append e.1 s) first).elim apart.1 apart.2

theorem Marked.apart_right (marked : Marked m (σ ++ τ)) (he : e ∈ τ) (s : List α) : Free σ (e.1 ++ s) := by
  intro f hf first
  have apart := (List.pairwise_append.mp marked.apart).2.2 f hf e he
  exact (List.prefix_or_prefix_of_prefix (List.prefix_append e.1 s) first).elim apart.2 apart.1

theorem free_append {s : List α} : Free (σ ++ τ) s ↔ Free σ s ∧ Free τ s := by
  simp only [Free, List.mem_append]
  exact ⟨fun h => ⟨fun e he => h e (.inl he), fun e he => h e (.inr he)⟩,
    fun h e he => he.elim (h.1 e) (h.2 e)⟩

end Patterns

variable [DecidableEq α]

/-- The slot whose pattern starts here. -/
def slotAt (σ : List (Slot α)) (s : List α) : Option (Slot α) := σ.find? fun e => e.1.isPrefixOf s

/-- `fill` behind a pattern of which `n` elements are still to come. -/
def fillFrom (σ : List (Slot α)) : ℕ → List α → List α
  | _, [] => []
  | n + 1, _ :: s => fillFrom σ n s
  | 0, a :: s =>
    match slotAt σ (a :: s) with
    | some e => e.2 ++ fillFrom σ (e.1.length - 1) s
    | none => a :: fillFrom σ 0 s

/-- One pass from left to right. What was filled in is not read again. -/
def fill (σ : List (Slot α)) (s : List α) : List α := fillFrom σ 0 s

/-- The places at which a pattern starts. -/
def starts (σ : List (Slot α)) : List α → ℕ
  | [] => 0
  | a :: s => (if (slotAt σ (a :: s)).isSome then 1 else 0) + starts σ s

section Scan

variable {m : α} {σ τ : List (Slot α)} {s w : List α} {a : α} {e : Slot α}

theorem slotAt_free (free : Free σ s) : slotAt σ s = none := by
  rw [slotAt, List.find?_eq_none]
  intro e member starts
  exact free e member (List.isPrefixOf_iff_prefix.mp starts)

theorem starts_of_slotAt (found : slotAt σ s = some e) : e ∈ σ ∧ e.1 <+: s :=
  ⟨List.mem_of_find?_eq_some found, by simpa using List.find?_some found⟩

theorem free_of_slotAt (none : slotAt σ s = none) : Free σ s := by
  intro e member starts
  exact List.find?_eq_none.mp none e member (List.isPrefixOf_iff_prefix.mpr starts)

theorem slotAt_pattern (marked : Marked m σ) (he : e ∈ σ) : slotAt σ (e.1 ++ s) = some e := by
  cases found : slotAt σ (e.1 ++ s) with
  | none => exact absurd (List.prefix_append _ _) (free_of_slotAt found e he)
  | some f =>
    obtain ⟨hf, second⟩ := starts_of_slotAt found
    rw [marked.unique he hf (List.prefix_append _ _) second]

theorem fillFrom_skip (w s : List α) : fillFrom σ w.length (w ++ s) = fillFrom σ 0 s := by
  induction w with
  | nil => rfl
  | cons a w ih => exact ih

theorem fill_nil : fill σ [] = [] := rfl

theorem fill_slot (marked : Marked m σ) (he : e ∈ σ) (s : List α) :
    fill σ (e.1 ++ s) = e.2 ++ fill σ s := by
  have here := slotAt_pattern (s := s) marked he
  obtain ⟨body, shape, _⟩ := marked.opens e he
  rw [shape, List.cons_append] at here
  rw [fill, shape, List.cons_append, fillFrom, here]
  simp only [shape, List.length_cons, Nat.add_sub_cancel, fillFrom_skip, fill]

theorem fill_free (free : Free σ (a :: s)) : fill σ (a :: s) = a :: fill σ s := by
  rw [fill, fillFrom, slotAt_free free]
  rfl

/- A text is read slot by slot and element by element. -/
theorem scan_induct (marked : Marked m σ) {motive : List α → Prop} (nil : motive [])
    (slot : ∀ e ∈ σ, ∀ s, motive s → motive (e.1 ++ s))
    (copy : ∀ a s, Free σ (a :: s) → motive s → motive (a :: s)) (s : List α) : motive s := by
  induction h : s.length using Nat.strongRecOn generalizing s with
  | ind n ih =>
    subst h
    cases s with
    | nil => exact nil
    | cons a s =>
      cases found : slotAt σ (a :: s) with
      | none => exact copy a s (free_of_slotAt found) (ih s.length (by simp) s rfl)
      | some e =>
        obtain ⟨he, rest, whole⟩ := starts_of_slotAt found
        obtain ⟨body, shape, _⟩ := marked.opens e he
        rw [← whole]
        refine slot e he rest (ih rest.length ?_ rest rfl)
        rw [← whole, shape, List.cons_append, List.length_cons, List.length_append]
        omega

theorem starts_le (w s : List α) : starts σ s ≤ starts σ (w ++ s) := by
  induction w with
  | nil => exact le_refl _
  | cons a w ih =>
    rw [List.cons_append, starts]
    omega

theorem starts_free (free : Free σ (a :: s)) : starts σ (a :: s) = starts σ s := by
  rw [starts, slotAt_free free]
  simp

theorem starts_unmarked (marked : Marked m σ) (none : m ∉ w) (s : List α) :
    starts σ (w ++ s) = starts σ s := by
  induction w with
  | nil => rfl
  | cons a w ih =>
    rw [List.mem_cons, not_or] at none
    rw [List.cons_append, starts_free (free_unmarked marked (Ne.symm none.1)), ih none.2]

theorem fill_unmarked (marked : Marked m σ) (none : m ∉ w) (s : List α) :
    fill σ (w ++ s) = w ++ fill σ s := by
  induction w with
  | nil => rfl
  | cons a w ih =>
    rw [List.mem_cons, not_or] at none
    rw [List.cons_append, fill_free (free_unmarked marked (Ne.symm none.1)), ih none.2]
    rfl

theorem starts_slot (marked : Marked m σ) (he : e ∈ σ) (s : List α) :
    starts σ (e.1 ++ s) = starts σ s + 1 := by
  have here := slotAt_pattern (s := s) marked he
  obtain ⟨body, shape, none⟩ := marked.opens e he
  rw [shape, List.cons_append] at here ⊢
  rw [starts, here, starts_unmarked marked none, Option.isSome_some, if_pos rfl, Nat.add_comm]

/- Where no pattern starts in a text, it is copied. -/
theorem fill_quiet (quiet : starts σ (w ++ s) = starts σ s) : fill σ (w ++ s) = w ++ fill σ s := by
  induction w with
  | nil => rfl
  | cons a w ih =>
    have later := starts_le (σ := σ) w s
    rw [List.cons_append, starts] at quiet
    split at quiet
    · omega
    · rename_i none
      rw [Nat.zero_add] at quiet
      have free : Free σ (a :: (w ++ s)) := free_of_slotAt (by simpa using none)
      rw [List.cons_append, fill_free free, ih quiet]
      rfl

theorem fill_still (none : starts σ s = 0) : fill σ s = s := by
  have quiet : starts σ (s ++ []) = starts σ [] := by rw [List.append_nil, none]; rfl
  have copied := fill_quiet quiet
  rwa [List.append_nil, fill_nil, List.append_nil] at copied

theorem starts_none (missing : ∀ e ∈ σ, ¬ e.1 <:+: s) : starts σ s = 0 := by
  induction s with
  | nil => rfl
  | cons a s ih =>
    have free : Free σ (a :: s) := fun e he first => missing e he first.isInfix
    rw [starts_free free]
    exact ih fun e he inner => missing e he (inner.trans (List.suffix_cons a s).isInfix)

theorem starts_eq_zero (marked : Marked m [e]) : starts [e] s = 0 ↔ ¬ e.1 <:+: s := by
  refine ⟨fun none inner => ?_, fun missing => starts_none fun f hf => List.mem_singleton.mp hf ▸ missing⟩
  obtain ⟨before, after, rfl⟩ := inner
  have here := starts_slot marked (List.mem_singleton_self e) after
  have most := starts_le (σ := [e]) before (e.1 ++ after)
  rw [List.append_assoc] at none
  omega

/- A text is filled on both sides of an element that is in no pattern. -/
theorem fill_cut (marked : Marked m σ) {c : α} (free : ∀ e ∈ σ, c ∉ e.1) (s t : List α) :
    fill σ (s ++ c :: t) = fill σ s ++ c :: fill σ t ∧
      starts σ (s ++ c :: t) = starts σ s + starts σ t := by
  have clear : ∀ w, Free σ w → Free σ (w ++ c :: t) := by
    intro w none e he first
    rcases List.prefix_or_prefix_of_prefix first (List.prefix_append _ _) with within | beyond
    · exact none e he within
    · obtain ⟨rest, whole⟩ := beyond
      cases rest with
      | nil => exact none e he (by rw [← whole, List.append_nil])
      | cons d rest =>
        rw [← whole] at first
        obtain ⟨rfl, _⟩ := List.cons_prefix_cons.mp ((List.prefix_append_right_inj w).mp first)
        exact free e he (whole ▸ by simp)
  induction s using scan_induct marked with
  | nil =>
    have none : Free σ (c :: t) := by
      intro e he first
      obtain ⟨body, shape, _⟩ := marked.opens e he
      have missing := free e he
      rw [shape] at first missing
      obtain ⟨rfl, _⟩ := List.cons_prefix_cons.mp first
      exact missing List.mem_cons_self
    rw [List.nil_append, fill_free none, starts_free none, fill_nil]
    exact ⟨rfl, (Nat.zero_add _).symm⟩
  | slot e he s ih =>
    rw [List.append_assoc, fill_slot marked he, fill_slot marked he, starts_slot marked he,
      starts_slot marked he, ih.1, ih.2, List.append_assoc]
    exact ⟨rfl, by omega⟩
  | copy a s none ih =>
    have still := clear _ none
    rw [List.cons_append] at still ⊢
    rw [fill_free still, fill_free none, starts_free still, starts_free none, ih.1, ih.2]
    exact ⟨rfl, rfl⟩

theorem not_mem_fill (marked : Marked m σ) {c : α} (clean : ∀ e ∈ σ, c ∉ e.2) (missing : c ∉ s) :
    c ∉ fill σ s := by
  induction s using scan_induct marked with
  | nil => exact missing
  | slot e he s ih =>
    rw [List.mem_append, not_or] at missing
    rw [fill_slot marked he, List.mem_append, not_or]
    exact ⟨clean e he, ih missing.2⟩
  | copy a s none ih =>
    rw [List.mem_cons, not_or] at missing
    rw [fill_free none, List.mem_cons, not_or]
    exact ⟨missing.1, ih missing.2⟩

theorem count_other (marked : Marked m σ) {c : α} (free : ∀ e ∈ σ, c ∉ e.1 ∧ c ∉ e.2) (s : List α) :
    (fill σ s).count c = s.count c := by
  induction s using scan_induct marked with
  | nil => rfl
  | slot e he s ih =>
    obtain ⟨pattern, value⟩ := free e he
    rw [fill_slot marked he, List.count_append, List.count_append, ih, List.count_eq_zero.mpr pattern,
      List.count_eq_zero.mpr value]
  | copy a s none ih => rw [fill_free none, List.count_cons, List.count_cons, ih]

/-- The pieces between an element that is in no pattern, and in no value that is placed, are
filled one by one. -/
theorem splitOn_fill (marked : Marked m σ) {c : α} (free : ∀ e ∈ σ, c ∉ e.1)
    (clean : (∀ e ∈ σ, c ∉ e.2) ∨ starts σ s = 0) :
    (fill σ s).splitOn c = (s.splitOn c).map (fill σ) := by
  induction s using Text.split_induct c with
  | whole s member =>
    have missing : c ∉ fill σ s := by
      rcases clean with clean | none
      · exact not_mem_fill marked clean member
      · rwa [fill_still none]
    rw [List.splitOn_eq_singleton missing, List.splitOn_eq_singleton member, List.map_singleton]
  | cut before after _ front back =>
    obtain ⟨filled, count⟩ := fill_cut marked free before after
    rw [filled, List.splitOn_append_cons_self, List.splitOn_append_cons_self,
      front (clean.imp_right fun none => by omega), back (clean.imp_right fun none => by omega),
      List.map_append]

end Scan

/- Two sets of slots whose patterns are told apart. -/
section Two

variable {m : α} {σ τ : List (Slot α)} {e : Slot α}

/- A pattern that is none of the slots' is copied. -/
theorem through (marked : Marked m σ) {p body : List α} (shape : p = m :: body) (none : m ∉ body)
    (s : List α) (free : Free σ (p ++ s)) :
    starts σ (p ++ s) = starts σ s ∧ fill σ (p ++ s) = p ++ fill σ s := by
  subst shape
  rw [List.cons_append] at free ⊢
  rw [starts_free free, fill_free free, starts_unmarked marked none, fill_unmarked marked none]
  exact ⟨rfl, rfl⟩

theorem Marked.through_left (marked : Marked m (σ ++ τ)) (he : e ∈ σ) (s : List α) :
    starts τ (e.1 ++ s) = starts τ s ∧ fill τ (e.1 ++ s) = e.1 ++ fill τ s := by
  obtain ⟨body, shape, none⟩ := marked.left.opens e he
  exact through marked.right shape none s (marked.apart_left he s)

theorem Marked.through_right (marked : Marked m (σ ++ τ)) (he : e ∈ τ) (s : List α) :
    starts σ (e.1 ++ s) = starts σ s ∧ fill σ (e.1 ++ s) = e.1 ++ fill σ s := by
  obtain ⟨body, shape, none⟩ := marked.right.opens e he
  exact through marked.left shape none s (marked.apart_right he s)

/- The patterns of the text itself stay. -/
theorem starts_fill_le (marked : Marked m (σ ++ τ)) (s : List α) : starts τ s ≤ starts τ (fill σ s) := by
  induction s using scan_induct marked with
  | nil => exact le_refl _
  | slot e he s ih =>
    rcases List.mem_append.mp he with first | second
    · rw [(marked.through_left first s).1, fill_slot marked.left first]
      exact ih.trans (starts_le _ _)
    · rw [(marked.through_right second s).2, starts_slot marked.right second, starts_slot marked.right second]
      exact Nat.succ_le_succ ih
  | copy a s free ih =>
    obtain ⟨first, second⟩ := free_append.mp free
    rw [starts_free second, fill_free first]
    exact ih.trans (starts_le [a] _)

/-- If filling the first slots makes no pattern of the others, filling the others
afterwards is filling all at once. -/
theorem fill_fill (marked : Marked m (σ ++ τ)) {s : List α}
    (same : starts τ (fill σ s) = starts τ s) : fill τ (fill σ s) = fill (σ ++ τ) s := by
  induction s using scan_induct marked with
  | nil => rfl
  | slot e he s ih =>
    rw [fill_slot marked he]
    rcases List.mem_append.mp he with first | second
    · rw [(marked.through_left first s).1, fill_slot marked.left first] at same
      rw [fill_slot marked.left first]
      have low := starts_fill_le marked s
      have high := starts_le (σ := τ) e.2 (fill σ s)
      rw [fill_quiet (by omega), ih (by omega)]
    · rw [(marked.through_right second s).2, starts_slot marked.right second,
        starts_slot marked.right second] at same
      rw [(marked.through_right second s).2, fill_slot marked.right second, ih (by omega)]
  | copy a s free ih =>
    obtain ⟨first, second⟩ := free_append.mp free
    rw [starts_free second, fill_free first] at same
    rw [fill_free free, fill_free first]
    have low := starts_fill_le marked s
    have high := starts_le (σ := τ) [a] (fill σ s)
    rw [List.singleton_append] at high
    have quiet : starts τ ([a] ++ fill σ s) = starts τ (fill σ s) := by
      rw [List.singleton_append]
      omega
    have copied := fill_quiet quiet
    rw [List.singleton_append, List.singleton_append] at copied
    rw [copied, ih (by omega)]

theorem fill_none (s : List α) : fill [] s = s := by
  induction s with
  | nil => rfl
  | cons a s ih => rw [fill_free (fun _ h => absurd h List.not_mem_nil), ih]

/- A slot filled with its own pattern is no slot. -/
theorem fill_idle (marked : Marked m (σ ++ [e])) (idle : e.2 = e.1) (s : List α) :
    fill (σ ++ [e]) s = fill σ s := by
  induction s using scan_induct marked with
  | nil => rfl
  | slot f hf s ih =>
    rw [fill_slot marked hf, ih]
    rcases List.mem_append.mp hf with first | second
    · rw [fill_slot marked.left first]
    · rw [(marked.through_right second s).2]
      cases List.mem_singleton.mp second
      rw [idle]
  | copy a s free ih =>
    rw [fill_free free, fill_free (free_append.mp free).1, ih]

/- Each pattern that is filled loses its mark. -/
theorem count_mark (marked : Marked m (σ ++ τ)) (free : ∀ e ∈ τ, m ∉ e.2) (s : List α) :
    (fill (σ ++ τ) s).count m + starts τ s = (fill σ s).count m := by
  induction s using scan_induct marked with
  | nil => rfl
  | slot e he s ih =>
    rw [fill_slot marked he]
    rcases List.mem_append.mp he with first | second
    · rw [(marked.through_left first s).1, fill_slot marked.left first, List.count_append, List.count_append]
      omega
    · rw [(marked.through_right second s).2, starts_slot marked.right second]
      obtain ⟨body, shape, none⟩ := marked.right.opens e second
      rw [List.count_append, List.count_append, List.count_eq_zero.mpr (free e second), shape,
        List.count_cons_self, List.count_eq_zero.mpr none]
      omega
  | copy a s free ih =>
    obtain ⟨first, second⟩ := free_append.mp free
    rw [fill_free free, fill_free first, starts_free second, List.count_cons, List.count_cons]
    omega

/-- With values that have no mark the condition is necessary. -/
theorem fill_fill_iff (marked : Marked m (σ ++ τ)) (free : ∀ e ∈ τ, m ∉ e.2) (s : List α) :
    fill τ (fill σ s) = fill (σ ++ τ) s ↔ starts τ (fill σ s) = starts τ s := by
  refine ⟨fun same => ?_, fill_fill marked⟩
  have alone : Marked m ([] ++ τ) := marked.right
  have after := count_mark alone free (fill σ s)
  have once := count_mark marked free s
  rw [List.nil_append, fill_none, same] at after
  omega

/- What one more slot changes. -/
theorem count_fill (marked : Marked m (σ ++ [e])) (x : α) (s : List α) :
    (fill (σ ++ [e]) s).count x + starts [e] s * e.1.count x =
      (fill σ s).count x + starts [e] s * e.2.count x := by
  induction s using scan_induct marked with
  | nil => simp [fill_nil, starts]
  | slot f hf s ih =>
    rw [fill_slot marked hf]
    rcases List.mem_append.mp hf with first | second
    · rw [(marked.through_left first s).1, fill_slot marked.left first, List.count_append, List.count_append]
      omega
    · rw [(marked.through_right second s).2, starts_slot marked.right second]
      cases List.mem_singleton.mp second
      rw [List.count_append, List.count_append, Nat.add_one_mul, Nat.add_one_mul]
      omega
  | copy a s free ih =>
    obtain ⟨first, second⟩ := free_append.mp free
    rw [fill_free free, fill_free first, starts_free second, List.count_cons, List.count_cons]
    omega

/-- A quantity of the slots of `τ`, as often as each starts in `t` but not in `s`. -/
def excess (τ : List (Slot α)) (s t : List α) (q : Slot α → ℕ) : ℕ :=
  (τ.map fun e => (starts [e] t - starts [e] s) * q e).sum

/- The same for what is in neither text of a pair counted twice. -/
theorem count_excess (marked : Marked m (σ ++ τ)) {s t : List α} {front : List (Slot α)}
    (marked' : Marked m (front ++ τ)) (more : ∀ e ∈ τ, starts [e] s ≤ starts [e] t) (x : α) :
    (fill (front ++ τ) t).count x + excess τ s t (·.1.count x) + (fill σ s).count x =
      (fill (σ ++ τ) s).count x + excess τ s t (·.2.count x) + (fill front t).count x := by
  induction τ generalizing σ front with
  | nil =>
    simp only [List.append_nil, excess, List.map_nil, List.sum_nil]
    omega
  | cons e τ ih =>
    have split : ∀ ρ : List (Slot α), ρ ++ e :: τ = (ρ ++ [e]) ++ τ := fun ρ => by simp
    rw [split] at marked marked' ⊢
    rw [split]
    have here := more e List.mem_cons_self
    have rest := ih marked marked' fun f hf => more f (List.mem_cons_of_mem e hf)
    have one := count_fill marked.left x s
    have other := count_fill marked'.left x t
    obtain ⟨k, same⟩ := Nat.exists_eq_add_of_le here
    rw [same, Nat.add_mul, Nat.add_mul] at other
    simp only [excess, List.map_cons, List.sum_cons, same, Nat.add_sub_cancel_left] at rest ⊢
    omega

/- A text that ends in an element of no value, and lacks an element of each, does not reach
into a value. -/
theorem prefix_of_fill (marked : Marked m σ) {q s : List α} {c : α} (last : q.getLast? = some c)
    (closed : ∀ e ∈ σ, c ∉ e.2) (alien : ∀ e ∈ σ, ∃ x ∈ e.2, x ∉ q) (first : q <+: fill σ s) :
    q <+: s := by
  induction s using scan_induct marked generalizing q with
  | nil => exact first
  | slot e he s _ =>
    rw [fill_slot marked he] at first
    rcases List.prefix_or_prefix_of_prefix first (List.prefix_append e.2 _) with within | beyond
    · exact absurd (within.subset (List.mem_of_getLast? last)) (closed e he)
    · obtain ⟨x, member, other⟩ := alien e he
      exact absurd (beyond.subset member) other
  | copy a s free ih =>
    rw [fill_free free] at first
    cases q with
    | nil => exact List.nil_prefix
    | cons b q =>
      obtain ⟨rfl, later⟩ := List.cons_prefix_cons.mp first
      refine List.cons_prefix_cons.mpr ⟨rfl, ?_⟩
      cases q with
      | nil => exact List.nil_prefix
      | cons d q =>
        rw [List.getLast?_cons_cons] at last
        refine ih last (fun e he => ?_) later
        obtain ⟨x, member, other⟩ := alien e he
        exact ⟨x, member, fun inner => other (List.mem_cons_of_mem b inner)⟩

/-- Values without the mark, the closing element and some other element of each pattern can
be filled in beforehand. -/
theorem fill_fill_alien (marked : Marked m (σ ++ τ)) {c : α} (ends : ∀ f ∈ τ, f.1.getLast? = some c)
    (open_ : ∀ e ∈ σ, m ∉ e.2) (closed : ∀ e ∈ σ, c ∉ e.2)
    (alien : ∀ e ∈ σ, ∀ f ∈ τ, ∃ x ∈ e.2, x ∉ f.1) (s : List α) :
    fill τ (fill σ s) = fill (σ ++ τ) s := by
  apply fill_fill marked
  induction s using scan_induct marked with
  | nil => rfl
  | slot e he s ih =>
    rcases List.mem_append.mp he with first | second
    · rw [(marked.through_left first s).1, fill_slot marked.left first,
        starts_unmarked marked.right (open_ e first), ih]
    · rw [(marked.through_right second s).2, starts_slot marked.right second,
        starts_slot marked.right second, ih]
  | copy a s free ih =>
    obtain ⟨first, second⟩ := free_append.mp free
    have still : Free τ (a :: fill σ s) := by
      intro f hf begins
      obtain ⟨body, shape, _⟩ := marked.right.opens f hf
      have last := ends f hf
      rw [shape] at begins last
      obtain ⟨rfl, later⟩ := List.cons_prefix_cons.mp begins
      apply second f hf
      rw [shape]
      refine List.cons_prefix_cons.mpr ⟨rfl, ?_⟩
      cases body with
      | nil => exact List.nil_prefix
      | cons d body =>
        rw [List.getLast?_cons_cons] at last
        refine prefix_of_fill marked.left last closed (fun e he => ?_) later
        obtain ⟨x, member, other⟩ := alien e he f hf
        exact ⟨x, member, fun inner => other (shape ▸ List.mem_cons_of_mem _ inner)⟩
    rw [fill_free first, starts_free still, starts_free second, ih]

end Two

/- What two texts have in common that are filled alike. -/
section Alike

variable {m : α} {σ τ : List (Slot α)} {e : Slot α}

/-- Values that are not empty and have no mark. -/
def Dull (m : α) (τ : List (Slot α)) : Prop := ∀ e ∈ τ, e.2 ≠ [] ∧ m ∉ e.2

/- A pattern that is filled in leaves its mark in no text. -/
theorem fill_cancel (marked : Marked m τ) (dull : Dull m τ) {w z y : List α}
    (same : fill τ (w ++ z) = w ++ y) : fill τ z = y := by
  induction w with
  | nil => exact same
  | cons a w ih =>
    rw [List.cons_append] at same
    cases here : slotAt τ (a :: (w ++ z)) with
    | none =>
      rw [fill_free (free_of_slotAt here), List.cons_append, List.cons.injEq] at same
      exact ih same.2
    | some e =>
      obtain ⟨he, rest, whole⟩ := starts_of_slotAt here
      obtain ⟨body, shape, _⟩ := marked.opens e he
      obtain ⟨some, none⟩ := dull e he
      obtain ⟨x, value, split⟩ := List.exists_cons_of_ne_nil some
      rw [← whole, fill_slot marked he, split, List.cons_append, List.cons_append, List.cons.injEq] at same
      rw [shape, List.cons_append, List.cons.injEq] at whole
      rw [split, same.1, ← whole.1] at none
      exact absurd List.mem_cons_self none

/- More slots are filled behind the first mark only. -/
theorem prefix_fill_more (marked : Marked m (σ ++ τ)) {q s : List α} (none : m ∉ q)
    (first : q <+: fill σ s) : q <+: fill (σ ++ τ) s := by
  induction s using scan_induct marked generalizing q with
  | nil => exact first
  | slot e he s ih =>
    rw [fill_slot marked he]
    rcases List.mem_append.mp he with left | right
    · rw [fill_slot marked.left left] at first
      obtain ⟨more, split⟩ := first
      rcases List.append_eq_append_iff.mp split with ⟨rest, within, _⟩ | ⟨q', rfl, later⟩
      · rw [within, List.append_assoc]
        exact List.prefix_append _ _
      · rw [List.mem_append, not_or] at none
        exact (List.prefix_append_right_inj _).mpr (ih none.2 ⟨more, later.symm⟩)
    · rw [(marked.through_right right s).2] at first
      obtain ⟨body, shape, _⟩ := marked.right.opens e right
      cases q with
      | nil => exact List.nil_prefix
      | cons b q =>
        rw [shape] at first
        obtain ⟨rfl, _⟩ := List.cons_prefix_cons.mp first
        exact absurd List.mem_cons_self none
  | copy a s free ih =>
    rw [fill_free (free_append.mp free).1] at first
    rw [fill_free free]
    cases q with
    | nil => exact List.nil_prefix
    | cons b q =>
      obtain ⟨rfl, later⟩ := List.cons_prefix_cons.mp first
      rw [List.mem_cons, not_or] at none
      exact List.cons_prefix_cons.mpr ⟨rfl, ih none.2 later⟩

/- A text that no value agrees with at any place is not made by filling. -/
theorem prefix_of_fill_apart {q z y : List α}
    (apart : ∀ f ∈ τ, ∀ r, r <:+ q → r ≠ [] → ¬ f.2 <+: r ∧ ¬ r <+: f.2) (marked : Marked m τ)
    (same : fill τ z = q ++ y) : q <+: z := by
  induction q generalizing z with
  | nil => exact List.nil_prefix
  | cons a q ih =>
    cases z with
    | nil => cases same
    | cons b z =>
      cases here : slotAt τ (b :: z) with
      | none =>
        rw [fill_free (free_of_slotAt here), List.cons_append, List.cons.injEq] at same
        obtain ⟨rfl, same⟩ := same
        refine List.cons_prefix_cons.mpr ⟨rfl, ih (fun f hf r suffix => ?_) same⟩
        exact apart f hf r (suffix.trans (List.suffix_cons _ _))
      | some e =>
        obtain ⟨he, rest, whole⟩ := starts_of_slotAt here
        rw [← whole, fill_slot marked he] at same
        obtain ⟨left, right⟩ := apart e he (a :: q) (List.suffix_refl _) (List.cons_ne_nil _ _)
        have value : e.2 <+: a :: q ++ y := same ▸ List.prefix_append _ _
        exact ((List.prefix_or_prefix_of_prefix value (List.prefix_append _ _)).elim left right).elim

/- A pattern of the slot `e` that is in a word or reaches out of it. -/
theorem extra_in_word (marked : Marked m (σ ++ [e] ++ τ)) (dull : Dull m τ) {s : List α}
    {goal : Prop} (found : ∀ y z, fill τ (e.2 ++ y) = e.1 ++ z → goal)
    (behind : starts [e] s < starts [e] (fill σ s) →
      fill τ (fill [e] (fill σ s)) = fill (σ ++ [e] ++ τ) s → goal) (w : List α)
    (more : starts [e] s < starts [e] (w ++ fill σ s))
    (same : fill τ (fill [e] (w ++ fill σ s)) = w ++ fill (σ ++ [e] ++ τ) s) : goal := by
  induction w with
  | nil => exact behind more same
  | cons a w ih =>
    have single : Marked m [e] := marked.left.right
    obtain ⟨body, shape, none⟩ := single.opens e (List.mem_singleton_self e)
    rw [List.cons_append] at more same
    by_cases first : e.1 <+: a :: (w ++ fill σ s)
    · have among : e.1 <+: a :: (w ++ fill (σ ++ [e] ++ τ) s) := by
        rw [shape] at first ⊢
        obtain ⟨rfl, later⟩ := List.cons_prefix_cons.mp first
        refine List.cons_prefix_cons.mpr ⟨rfl, ?_⟩
        obtain ⟨rest, split⟩ := later
        rcases List.append_eq_append_iff.mp split with ⟨inner, within, _⟩ | ⟨q, rfl, later⟩
        · rw [within, List.append_assoc]
          exact List.prefix_append _ _
        · rw [List.mem_append, not_or] at none
          rw [List.append_assoc] at marked ⊢
          exact (List.prefix_append_right_inj _).mpr
            (prefix_fill_more marked none.2 ⟨rest, later.symm⟩)
      obtain ⟨rest, whole⟩ := first
      obtain ⟨z, split⟩ := among
      rw [← whole, fill_slot single (List.mem_singleton_self e)] at same
      exact found _ z (same.trans split.symm)
    · have free : Free [e] (a :: (w ++ fill σ s)) := by
        intro f hf
        rw [List.mem_singleton.mp hf]
        exact first
      rw [starts_free free] at more
      rw [fill_free free] at same
      exact ih more (fill_cancel marked.right dull (w := [a]) same)

/-- If filling `e` after others makes no difference although there are more of its patterns
than in the text itself, its value and its pattern start alike. -/
theorem extra_alike (marked : Marked m (σ ++ [e] ++ τ)) (dull : Dull m τ) {s : List α}
    (more : starts [e] s < starts [e] (fill σ s))
    (same : fill τ (fill [e] (fill σ s)) = fill (σ ++ [e] ++ τ) s) :
    ∃ y z, fill τ (e.2 ++ y) = e.1 ++ z := by
  have words : ∀ w, starts [e] s < starts [e] (w ++ fill σ s) →
      fill τ (fill [e] (w ++ fill σ s)) = w ++ fill (σ ++ [e] ++ τ) s →
      ∃ y z, fill τ (e.2 ++ y) = e.1 ++ z := by
    clear more same
    have first := marked.left
    have others : Marked m (σ ++ ([e] ++ τ)) := by rwa [← List.append_assoc]
    induction s using scan_induct marked with
    | nil => exact extra_in_word marked dull (fun y z h => ⟨y, z, h⟩) fun more => absurd more (lt_irrefl _)
    | slot f hf s ih =>
      refine extra_in_word marked dull (fun y z h => ⟨y, z, h⟩) fun more same => ?_
      rw [fill_slot marked hf] at same
      rcases List.mem_append.mp hf with left | right
      · rcases List.mem_append.mp left with before | here
        · rw [fill_slot others.left before] at more same
          rw [(first.through_left before s).1] at more
          exact ih f.2 more same
        · cases List.mem_singleton.mp here
          rw [(first.through_right here s).2] at more same
          rw [starts_slot first.right here, starts_slot first.right here] at more
          rw [fill_slot first.right here] at same
          exact ih [] (Nat.lt_of_succ_lt_succ more) (fill_cancel marked.right dull same)
      · rw [(others.through_right (List.mem_append_right _ right) s).2] at more same
        rw [(others.right.through_right right s).1, (others.right.through_right right _).1] at more
        rw [(others.right.through_right right _).2, fill_slot marked.right right] at same
        exact ih [] more (List.append_cancel_left same)
    | copy a s free ih =>
      refine extra_in_word marked dull (fun y z h => ⟨y, z, h⟩) fun more same => ?_
      obtain ⟨inner, _⟩ := free_append.mp free
      obtain ⟨before, here⟩ := free_append.mp inner
      rw [fill_free before] at more same
      rw [fill_free free] at same
      rw [starts_free here] at more
      exact ih [a] more same
  exact words [] more same

end Alike

end Slots

end Stallwatch
