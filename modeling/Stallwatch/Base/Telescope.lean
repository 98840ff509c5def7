import Mathlib.Algebra.BigOperators.Group.List.Basic
import Mathlib.Algebra.Order.Sub.Basic
import Mathlib.Tactic.Common

/-! The growth of a counter that is read now and then. Between neighbouring readings it is
counted once, so that all of it together is no more than the growth from the first reading
to the last. -/
namespace Stallwatch.Telescope

variable {α : Type} [AddCommMonoid α] [LinearOrder α] [IsOrderedAddMonoid α] [CanonicallyOrderedAdd α]
  [Sub α] [OrderedSub α]

section

omit [LinearOrder α] [IsOrderedAddMonoid α] [CanonicallyOrderedAdd α] [OrderedSub α]

/-- What is counted between two readings: nothing unless both are there. -/
def gain : Option α → Option α → α
  | some before, some after => after - before
  | _, _ => 0

/-- One entry for each later reading; where nothing is measured nothing is counted. -/
def gains : Option α → List (Bool × Option α) → List α
  | _, [] => []
  | before, (measured, now) :: rest => (if measured then gain before now else 0) :: gains now rest

/-- From the first to the last. -/
def span : List α → α
  | [] => 0
  | first :: rest => rest.getLastD first - first

/-- The readings that are there. -/
def readings (before : Option α) (rest : List (Bool × Option α)) : List α :=
  before.toList ++ rest.filterMap Prod.snd

@[simp] theorem gain_none_left (after : Option α) : gain none after = 0 := rfl

@[simp] theorem gain_none_right (before : Option α) : gain before none = 0 := by cases before <;> rfl

end

omit [IsOrderedAddMonoid α] in
theorem span_cons {a b : α} {l : List α} (ascending : (a :: b :: l).Pairwise (· ≤ ·)) :
    b - a + span (b :: l) = span (a :: b :: l) := by
  obtain ⟨front, rest⟩ := List.pairwise_cons.mp ascending
  have least : b ≤ l.getLastD b := by
    have listed : l.getLastD b ∈ b :: l := List.getLastD_mem_cons
    rcases List.mem_cons.mp listed with same | later
    · exact same.ge
    · exact (List.pairwise_cons.mp rest).1 _ later
  rw [span, span, List.getLastD_cons, add_comm]
  exact tsub_add_tsub_cancel least (front b List.mem_cons_self)

omit [IsOrderedAddMonoid α] in
theorem span_tail_le {a : α} {l : List α} (ascending : (a :: l).Pairwise (· ≤ ·)) :
    span l ≤ span (a :: l) := by
  cases l with
  | nil => exact zero_le
  | cons b l =>
    rw [← span_cons ascending]
    exact le_add_of_nonneg_left zero_le

/-- Whatever readings are missing, and whatever is not measured, nothing is counted twice. -/
theorem sum_gains_le (before : Option α) (rest : List (Bool × Option α))
    (ascending : (readings before rest).Pairwise (· ≤ ·)) :
    (gains before rest).sum ≤ span (readings before rest) := by
  induction rest generalizing before with
  | nil => exact zero_le
  | cons step rest ih =>
    obtain ⟨measured, now⟩ := step
    have later : (readings now rest).Sublist (readings before ((measured, now) :: rest)) := by
      cases now <;> simp [readings]
    have counted := ih now (ascending.sublist later)
    rw [gains, List.sum_cons]
    match before, now with
    | none, none | none, some b =>
      simpa [readings] using counted
    | some a, none =>
      have dropped : span (readings none rest) ≤ span (readings (some a) ((measured, none) :: rest)) :=
        span_tail_le ascending
      simpa using counted.trans dropped
    | some a, some b =>
      have step : (if measured then gain (some a) (some b) else 0) ≤ b - a := by
        split
        · exact le_rfl
        · exact zero_le
      calc (if measured then gain (some a) (some b) else 0) + (gains (some b) rest).sum
          ≤ b - a + span (readings (some b) rest) := add_le_add step counted
        _ = span (readings (some a) ((measured, some b) :: rest)) := span_cons ascending

omit [IsOrderedAddMonoid α] in
/-- With every reading there and everything measured, all of the growth is counted. -/
theorem sum_gains {a : α} {rest : List (Bool × Option α)}
    (complete : ∀ step ∈ rest, step.1 = true ∧ step.2.isSome = true)
    (ascending : (readings (some a) rest).Pairwise (· ≤ ·)) :
    (gains (some a) rest).sum = span (readings (some a) rest) := by
  induction rest generalizing a with
  | nil => exact (tsub_self a).symm
  | cons step rest ih =>
    obtain ⟨⟨measured, present⟩, others⟩ := List.forall_mem_cons.mp complete
    obtain ⟨_, now⟩ := step
    obtain ⟨b, rfl⟩ := Option.isSome_iff_exists.mp present
    cases measured
    rw [gains, List.sum_cons, ih others (List.pairwise_cons.mp ascending).2]
    exact span_cons ascending

end Stallwatch.Telescope
