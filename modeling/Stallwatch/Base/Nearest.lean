import Mathlib.Algebra.Order.Field.Basic
import Mathlib.Algebra.Order.Floor.Semiring
import Mathlib.Tactic.Linarith
import Mathlib.Tactic.NormNum

/-! The nearest whole number, the even one of two. It keeps the order of what it rounds,
and whole numbers stay as they are. -/
namespace Stallwatch

section Nearest

variable {K : Type} [Semifield K] [LinearOrder K] [IsStrictOrderedRing K] [FloorSemiring K]

def nearestEven (x : K) : ℕ :=
  let n := ⌊x⌋₊
  if 2 * x < 2 * n + 1 then n
  else if 2 * n + 1 < 2 * x then n + 1
  else n + n % 2

@[simp] theorem nearestEven_natCast (n : ℕ) : nearestEven (n : K) = n := by
  simp [nearestEven]

omit [IsStrictOrderedRing K] in
theorem nearestEven_bounds (x : K) : ⌊x⌋₊ ≤ nearestEven x ∧ nearestEven x ≤ ⌊x⌋₊ + 1 := by
  unfold nearestEven
  dsimp only
  split_ifs <;> omega

theorem nearestEven_mono {x y : K} (le : x ≤ y) : nearestEven x ≤ nearestEven y := by
  obtain ⟨_, above⟩ := nearestEven_bounds x
  obtain ⟨below, _⟩ := nearestEven_bounds y
  rcases (Nat.floor_mono le).lt_or_eq with less | same
  · omega
  have double : 2 * x ≤ 2 * y := mul_le_mul_of_nonneg_left le (by norm_num)
  rcases lt_trichotomy (2 * x) (2 * ⌊x⌋₊ + 1) with down | tie | up
  · have here : nearestEven x = ⌊x⌋₊ := if_pos down
    omega
  · have late : ¬ 2 * y < 2 * ⌊y⌋₊ + 1 := by
      rw [← same, ← tie]
      exact not_lt.mpr double
    unfold nearestEven
    dsimp only
    rw [if_neg tie.not_lt, if_neg tie.not_gt, if_neg late, same]
    split <;> omega
  · have higher : 2 * ⌊y⌋₊ + 1 < 2 * y := by
      rw [← same]
      exact up.trans_le double
    have there : nearestEven y = ⌊y⌋₊ + 1 := by
      unfold nearestEven
      dsimp only
      rw [if_neg higher.not_gt, if_pos higher]
    omega

end Nearest

end Stallwatch
