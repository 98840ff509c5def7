import Mathlib.Data.UInt
import Mathlib.Order.Lattice
import Mathlib.Order.MinMax

/-! Counters of 64 bits: saturating differences and sums, maxima, and products that do
not wrap. -/
namespace Stallwatch.Counter

def saturatingSub (a b : UInt64) : UInt64 := if a < b then 0 else a - b

theorem toNat_saturatingSub (a b : UInt64) : (saturatingSub a b).toNat = a.toNat - b.toNat := by
  unfold saturatingSub
  split
  · rename_i less
    have less := UInt64.lt_iff_toNat_lt.mp less
    simp only [UInt64.toNat_zero]
    omega
  · rename_i less
    have less := UInt64.le_iff_toNat_le.mp (UInt64.not_lt.mp less)
    exact UInt64.toNat_sub_of_le _ _ (UInt64.le_iff_toNat_le.mpr less)

@[simp] theorem zero_saturatingSub (b : UInt64) : saturatingSub 0 b = 0 := by
  rw [← UInt64.toNat_inj, toNat_saturatingSub, UInt64.toNat_zero, Nat.zero_sub]

def saturatingAdd (a b : UInt64) : UInt64 := if a + b < a then UInt64.ofNat (2 ^ 64 - 1) else a + b

theorem toNat_saturatingAdd (a b : UInt64) :
    (saturatingAdd a b).toNat = min (2 ^ 64 - 1) (a.toNat + b.toNat) := by
  have left := a.toNat_lt
  have right := b.toNat_lt
  simp only [saturatingAdd, UInt64.lt_iff_toNat_lt, UInt64.toNat_add]
  split
  · rename_i wraps
    rw [UInt64.toNat_ofNat_of_lt' (by decide)]
    omega
  · rename_i fits
    rw [UInt64.toNat_add]
    omega

def saturatingMul (a b : UInt64) : UInt64 :=
  if a.toNat * b.toNat < 2 ^ 64 then a * b else UInt64.ofNat (2 ^ 64 - 1)

/-- `n.clamp(low, high)`. -/
def clamp (low high n : UInt64) : UInt64 := if n < low then low else if high < n then high else n

/-- `a.div_ceil(b)`. -/
def divCeil (a b : UInt64) : UInt64 := if 0 < a % b then a / b + 1 else a / b

/-- `n.saturating_add(1)` for a counter of 32 bits. -/
def saturatingSucc (n : UInt32) : UInt32 := if n = UInt32.ofNat (2 ^ 32 - 1) then n else n + 1

theorem toNat_saturatingSucc (n : UInt32) :
    (saturatingSucc n).toNat = min (n.toNat + 1) (2 ^ 32 - 1) := by
  have bound := n.toNat_lt
  unfold saturatingSucc
  split
  · rename_i full
    rw [full]
    rfl
  · rename_i room
    rw [← UInt32.toNat_inj] at room
    simp only [UInt32.toNat_ofNat'] at room
    rw [UInt32.toNat_add]
    simp only [UInt32.toNat_one]
    omega

theorem toNat_divCeil {a b : UInt64} (pos : 0 < b.toNat) (small : a.toNat + b.toNat < 2 ^ 64) :
    (divCeil a b).toNat = (a.toNat + b.toNat - 1) / b.toNat := by
  have whole := Nat.div_add_mod a.toNat b.toNat
  have rest := Nat.mod_lt a.toNat pos
  have quotient : a.toNat / b.toNat ≤ a.toNat := Nat.div_le_self _ _
  unfold divCeil
  split
  · rename_i more
    rw [UInt64.lt_iff_toNat_lt, UInt64.toNat_mod, UInt64.toNat_zero] at more
    rw [UInt64.toNat_add, UInt64.toNat_div, UInt64.toNat_one, Nat.mod_eq_of_lt (by omega)]
    symm
    rw [Nat.div_eq_iff pos]
    constructor
    · rw [Nat.add_mul, Nat.mul_comm]
      omega
    · rw [Nat.add_mul, Nat.mul_comm]
      omega
  · rename_i none
    rw [UInt64.lt_iff_toNat_lt, UInt64.toNat_mod, UInt64.toNat_zero] at none
    rw [UInt64.toNat_div]
    symm
    rw [Nat.div_eq_iff pos]
    constructor
    · rw [Nat.mul_comm]
      omega
    · rw [Nat.mul_comm]
      omega

theorem toNat_max (a b : UInt64) : (if a < b then b else a).toNat = max a.toNat b.toNat := by
  split
  · rename_i less
    exact (max_eq_right (UInt64.lt_iff_toNat_lt.mp less).le).symm
  · rename_i less
    exact (max_eq_left (UInt64.le_iff_toNat_le.mp (UInt64.not_lt.mp less))).symm

theorem toNat_mul_of_le {d k : UInt64} (small : d.toNat ≤ (2 ^ 64 - 1) / 100) (hk : k.toNat ≤ 100) :
    (d * k).toNat = d.toNat * k.toNat := by
  rw [UInt64.toNat_mul]
  refine Nat.mod_eq_of_lt ?_
  calc d.toNat * k.toNat ≤ (2 ^ 64 - 1) / 100 * 100 := Nat.mul_le_mul small hk
    _ < 2 ^ 64 := by decide

/- A sum that does not wrap. -/
theorem toNat_sum {ks : List UInt64} (fits : (ks.map UInt64.toNat).sum < 2 ^ 64) :
    ks.sum.toNat = (ks.map UInt64.toNat).sum := by
  induction ks with
  | nil => rfl
  | cons k ks ih =>
    rw [List.map_cons, List.sum_cons] at fits
    rw [List.sum_cons, List.map_cons, List.sum_cons, UInt64.toNat_add, ih (by omega),
      Nat.mod_eq_of_lt fits]

end Stallwatch.Counter
