import Mathlib.Data.List.Chain

/-! A bounded history of what comes one after the other with a gap. What has been dropped for
newer entries is as old as it takes them to come. -/
namespace Stallwatch.Recent

variable {α : Type} (time : α → ℕ) (gap : ℕ)

/-- Each comes a gap after the one before it, or later. -/
def Spaced (xs : List α) : Prop := xs.IsChain fun a b => time a + gap ≤ time b

variable {time gap} {xs : List α}

theorem Spaced.apart (spaced : Spaced time gap xs) {i : ℕ} (k : ℕ) (inside : i + k < xs.length) :
    time xs[i] + k * gap ≤ time xs[i + k] := by
  induction k with
  | zero => simp
  | succ k ih =>
    have next := List.isChain_iff_getElem.mp spaced (i + k) (by omega)
    have before := ih (by omega)
    rw [Nat.succ_mul]
    exact (Nat.add_assoc _ _ _).ge.trans ((Nat.add_le_add_right before gap).trans next)

theorem Spaced.concat (spaced : Spaced time gap xs) {x : α}
    (late : ∀ y ∈ xs.getLast?, time y + gap ≤ time x) : Spaced time gap (xs ++ [x]) := by
  refine List.isChain_append.mpr ⟨spaced, List.isChain_singleton _, fun y last z first => ?_⟩
  cases first
  exact late y last

/-- With room for the newest `n`, all that is gone is at least `n` gaps older than the newest. -/
theorem Spaced.dropped (spaced : Spaced time gap xs) {n : ℕ} {x : α}
    (gone : x ∈ xs.take (xs.length - n)) :
    ∃ last ∈ xs.getLast?, time x + n * gap ≤ time last := by
  obtain ⟨i, inside, rfl⟩ := List.mem_iff_getElem.mp gone
  rw [List.length_take] at inside
  obtain ⟨k, sum⟩ : ∃ k, i + k = xs.length - 1 := ⟨xs.length - 1 - i, by omega⟩
  have last : i + k < xs.length := by omega
  refine ⟨xs[i + k], ?_, ?_⟩
  · rw [List.getLast?_eq_getElem?, ← sum]
    exact List.getElem?_eq_getElem last
  · have enough : n * gap ≤ k * gap := Nat.mul_le_mul_right gap (by omega)
    rw [List.getElem_take]
    exact (Nat.add_le_add_left enough _).trans (spaced.apart k last)

end Stallwatch.Recent
