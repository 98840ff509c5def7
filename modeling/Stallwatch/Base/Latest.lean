import Mathlib.Data.List.Induction
import Mathlib.Tactic.Common

/-! The last element of a list that has something to say. -/
namespace Stallwatch

variable {α β : Type} (f : α → Option β)

/-- The value of the last element that has one. -/
def latest (xs : List α) : Option β := xs.reverse.findSome? f

@[simp] theorem latest_nil : latest f [] = none := rfl

theorem latest_append (xs ys : List α) :
    latest f (xs ++ ys) = (latest f ys).or (latest f xs) := by
  rw [latest, List.reverse_append, List.findSome?_append]
  rfl

@[simp] theorem latest_cons (x : α) (xs : List α) :
    latest f (x :: xs) = (latest f xs).or (f x) := by
  rw [← List.singleton_append, latest_append]
  simp [latest]

@[simp] theorem latest_concat (xs : List α) (x : α) :
    latest f (xs ++ [x]) = (f x).or (latest f xs) := by
  rw [latest_append]
  simp [latest]

theorem latest_eq_none {xs : List α} : latest f xs = none ↔ ∀ x ∈ xs, f x = none := by
  rw [latest, List.findSome?_eq_none_iff]
  simp

/- Nothing after it has a value. -/
theorem latest_eq_some {xs : List α} {v : β} :
    latest f xs = some v ↔
      ∃ before x after, xs = before ++ x :: after ∧ f x = some v ∧ ∀ y ∈ after, f y = none := by
  constructor
  · induction xs using List.reverseRecOn with
    | nil => intro found; cases found
    | append_singleton xs x ih =>
      rw [latest_concat]
      cases here : f x with
      | some w =>
        intro found
        cases found
        exact ⟨xs, x, [], rfl, here, List.forall_mem_nil _⟩
      | none =>
        intro found
        obtain ⟨before, y, after, rfl, value, silent⟩ := ih found
        refine ⟨before, y, after ++ [x], by simp, value, ?_⟩
        intro z member
        rcases List.mem_append.mp member with member | member
        · exact silent z member
        · rw [List.mem_singleton.mp member, here]
  · rintro ⟨before, x, after, rfl, value, silent⟩
    rw [latest_append, latest_cons, (latest_eq_none f).mpr silent, value]
    rfl

end Stallwatch
