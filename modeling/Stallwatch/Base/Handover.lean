import Mathlib.Algebra.Order.Ring.Nat
import Mathlib.Tactic.GCongr
import Mathlib.Tactic.Ring

/-! Following something that is handed down until it settles. Every node that does not
keep it passes at least `a / b` of its weight to a node further down. -/
namespace Stallwatch.Handover

variable {ν : Type} {below : ν → ν → Prop} {settled : ν → Prop} {depth weight : ν → ℕ}
  {a b bound : ℕ}

/- Skipping levels loses no more than passing through each of them. -/
theorem skip {v w k : ℕ} (le : a ≤ b) (step : v * a ≤ w * b) (pos : 0 < k) :
    v * a ^ k ≤ w * b ^ k := by
  obtain ⟨i, rfl⟩ := Nat.exists_eq_add_of_lt pos
  calc v * a ^ (0 + i + 1) = v * a * a ^ i := by ring
    _ ≤ w * b * b ^ i := by gcongr
    _ = w * b ^ (0 + i + 1) := by ring

theorem chain {u v w i k : ℕ} (first : u * a ^ i ≤ v * b ^ i) (second : v * a ^ k ≤ w * b ^ k) :
    u * a ^ (i + k) ≤ w * b ^ (i + k) := by
  calc u * a ^ (i + k) = u * a ^ i * a ^ k := by ring
    _ ≤ v * b ^ i * a ^ k := by gcongr
    _ = v * a ^ k * b ^ i := by ring
    _ ≤ w * b ^ k * b ^ i := by gcongr
    _ = w * b ^ (i + k) := by ring

/-- What is handed down settles somewhere, and has lost at most a factor per level. -/
theorem settles (le : a ≤ b) (pos : 0 < a)
    (trans : ∀ r q p, below r q → below q p → below r p)
    (deep : ∀ p, 0 < weight p → depth p ≤ bound)
    (step : ∀ p, 0 < weight p → ¬ settled p →
      ∃ q, below q p ∧ depth p < depth q ∧ weight p * a ≤ weight q * b)
    (p : ν) (some : 0 < weight p) :
    ∃ q, (q = p ∨ below q p) ∧ settled q ∧ 0 < weight q ∧ depth p ≤ depth q ∧
      weight p * a ^ (depth q - depth p) ≤ weight q * b ^ (depth q - depth p) := by
  induction left : bound - depth p using Nat.strongRecOn generalizing p with
  | ind n ih =>
    by_cases here : settled p
    · exact ⟨p, .inl rfl, here, some, le_rfl, by simp⟩
    · obtain ⟨q, under, deeper, passed⟩ := step p some here
      have kept : 0 < weight q := Nat.pos_of_mul_pos_right (lt_of_lt_of_le (Nat.mul_pos some pos) passed)
      have within := deep q kept
      obtain ⟨r, further, settles, heavy, down, least⟩ :=
        ih (bound - depth q) (by omega) q kept rfl
      have first := skip le passed (Nat.sub_pos_of_lt deeper)
      have levels : depth q - depth p + (depth r - depth q) = depth r - depth p := by omega
      refine ⟨r, .inr ?_, settles, heavy, by omega, levels ▸ chain first least⟩
      rcases further with rfl | further
      · exact under
      · exact trans _ _ _ further under

end Stallwatch.Handover
