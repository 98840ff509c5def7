import Mathlib.Data.List.Infix

/-! A log that keeps two generations: a record goes to the live one, and a rotation makes
the live one the previous, which is then no longer kept. -/
namespace Stallwatch

structure Generations (α : Type) where
  previous : List α
  live : List α

namespace Generations

variable {α : Type}

def empty : Generations α := ⟨[], []⟩

/-- All records, oldest first. -/
def kept (g : Generations α) : List α := g.previous ++ g.live

/-- At most `k` records, newest first. -/
def newest (k : ℕ) (g : Generations α) : List α := g.kept.reverse.take k

def append (g : Generations α) (rotate : Bool) (x : α) : Generations α :=
  if rotate then ⟨g.live, [x]⟩ else ⟨g.previous, g.live ++ [x]⟩

/- A rotation drops from the front. -/
theorem append_kept (g : Generations α) (rotate : Bool) (x : α) :
    (g.append rotate x).kept <:+ g.kept ++ [x] := by
  cases rotate with
  | false =>
    rw [kept, kept, List.append_assoc]
    exact List.suffix_rfl
  | true =>
    rw [kept, kept, List.append_assoc]
    exact List.suffix_append g.previous (g.live ++ [x])

/- The newest records are those of the live generation when it is long enough or alone. -/
theorem newest_live {k : ℕ} {g : Generations α} (within : k ≤ g.live.length ∨ g.previous = []) :
    g.newest k = g.live.reverse.take k := by
  rw [newest, kept, List.reverse_append]
  rcases within with long | alone
  · rw [List.take_append_of_le_length (by simpa using long)]
  · rw [alone, List.reverse_nil, List.append_nil]

theorem take_filter {p : α → Bool} {k : ℕ} {xs : List α} (all : ∀ x ∈ xs.take k, p x = true) :
    (xs.filter p).take k = xs.take k := by
  induction xs generalizing k with
  | nil => simp
  | cons x xs ih =>
    cases k with
    | zero => simp
    | succ k =>
      rw [List.take_succ_cons] at all ⊢
      rw [List.filter_cons_of_pos (all x (by simp)), List.take_succ_cons,
        ih fun y member => all y (by simp [member])]

/-- A reader of the live generation alone, which sees only the good records, sees the newest
`k` exactly when they are all there and all good. -/
theorem newest_seen_iff {β : Type} {good : α → Bool} {view : α → β}
    (tells : ∀ x y, view x = view y → good x = good y) (k : ℕ) (g : Generations α) :
    ((g.live.reverse.filter good).take k).map view = (g.newest k).map view ↔
      (k ≤ g.live.length ∨ g.previous = []) ∧ ∀ x ∈ g.newest k, good x = true := by
  constructor
  · intro same
    constructor
    · have lengths := congrArg List.length same
      have fewer := List.length_filter_le good g.live.reverse
      simp only [newest, kept, List.length_map, List.length_take, List.length_reverse,
        List.length_append] at lengths fewer
      rw [← List.length_eq_zero_iff]
      omega
    · intro x member
      have seen : view x ∈ ((g.live.reverse.filter good).take k).map view := by
        rw [same]
        exact List.mem_map_of_mem member
      obtain ⟨y, taken, same⟩ := List.mem_map.mp seen
      rw [← tells y x same]
      exact List.of_mem_filter (List.mem_of_mem_take taken)
  · rintro ⟨within, all⟩
    rw [newest_live within] at all ⊢
    rw [take_filter all]

end Generations

end Stallwatch
