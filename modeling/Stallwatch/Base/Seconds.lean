import Stallwatch.Base.Duration
import Stallwatch.Base.Nearest
import Stallwatch.Base.Outcome

/-! Spans of time as floating-point seconds: written down, kept between two bounds, and
read back to the nearest nanosecond. -/
namespace Stallwatch

namespace F64

/-- A decimal that is written in the code. -/
def literal (f : Rounding) (q : ℚ≥0) : F64 := ofMagnitude false (f.round q)

/-- `a.max(b)`, which ignores a NaN. -/
def max : F64 → F64 → F64
  | .nan, b => b
  | a, .nan => a
  | a, b => if a.lt b then b else a

/-- `x.clamp(lo, hi)`, which asserts that the bounds are in order. -/
def clamp (x lo hi : F64) : Outcome Empty F64 :=
  if hi.atLeast lo then .ok (if x.lt lo then lo else if hi.lt x then hi else x) else .panic

theorem add_exact (a b : ℚ≥0) : add .exact (.finite false a) (.finite false b) = .finite false (a + b) :=
  rfl

theorem div_exact (a : ℚ≥0) {b : ℚ≥0} (nonzero : b ≠ 0) :
    div .exact (.finite false a) (.finite false b) = .finite false (a / b) := if_neg nonzero

theorem max_finite (a b : ℚ≥0) : max (.finite false a) (.finite false b) = .finite false (a ⊔ b) := by
  rw [max, lt_finite]
  · rcases le_or_gt b a with le | less
    · rw [if_neg (by simpa using le), sup_of_le_left le]
    · rw [if_pos (by simpa using less), sup_of_le_right less.le]
  · simp
  · simp

theorem clamp_finite (x lo hi : ℚ≥0) :
    clamp (.finite false x) (.finite false lo) (.finite false hi) =
      if lo ≤ hi then .ok (.finite false (lo ⊔ x ⊓ hi)) else .panic := by
  simp only [clamp, atLeast_finite, lt_finite, decide_eq_true_eq]
  split
  · rename_i order
    congr 1
    rcases lt_or_ge x lo with less | above
    · rw [if_pos less, inf_of_le_left (less.le.trans order), sup_of_le_left less.le]
    rw [if_neg above.not_gt]
    rcases lt_or_ge hi x with less | below
    · rw [if_pos less, inf_of_le_right less.le, sup_of_le_right order]
    · rw [if_neg below.not_gt, inf_of_le_left below, sup_of_le_right above]
  · rfl

end F64

namespace Duration

def fromMillis (ms : UInt64) : Duration := ⟨ms / 1000, ms.toNat % 1000 * 1000000, by omega⟩

def fromNanos (n : ℕ) : Duration := ⟨.ofNat (n / 10 ^ 9), n % 10 ^ 9, Nat.mod_lt _ (by decide)⟩

/-- Panics on what is negative, too long or no number. -/
def fromSecsF64 : F64 → Outcome Empty Duration
  | .finite s q =>
    let n := nearestEven (q * (10 ^ 9 : ℕ))
    if (s = true ∧ q ≠ 0) ∨ 2 ^ 64 * 10 ^ 9 ≤ n then .panic else .ok (fromNanos n)
  | _ => .panic

/-- A span in exact seconds. -/
def seconds (d : Duration) : ℚ≥0 := (d.asNanos : ℚ≥0) / (10 ^ 9 : ℕ)

theorem seconds_mul (d : Duration) : d.seconds * (10 ^ 9 : ℕ) = d.asNanos :=
  div_mul_cancel₀ _ (by norm_num)

theorem seconds_le {a b : Duration} : a.seconds ≤ b.seconds ↔ a.asNanos ≤ b.asNanos := by
  rw [seconds, seconds, div_le_div_iff_of_pos_right (by norm_num), Nat.cast_le]

theorem asSecsF64_exact (d : Duration) : d.asSecsF64 .exact = .finite false d.seconds := by
  have sum : (d.secs.toNat : ℚ≥0) + d.nanos / (10 ^ 9 : ℕ) = d.seconds := by
    rw [seconds, asNanos, Nat.cast_add, Nat.cast_mul, add_div, mul_div_cancel_right₀ _ (by norm_num)]
  rw [← sum]
  change F64.add .exact (.finite false d.secs.toNat)
    (F64.div .exact (.finite false d.nanos) (.finite false (10 ^ 9 : ℕ))) = _
  rw [F64.div_exact _ (by norm_num), F64.add_exact]

theorem asNanos_lt (d : Duration) : d.asNanos < 2 ^ 64 * 10 ^ 9 := by
  have secs := d.secs.toNat_lt
  have below := d.below
  rw [asNanos]
  omega

@[simp] theorem asNanos_fromMillis (ms : UInt64) : (fromMillis ms).asNanos = 1000000 * ms.toNat := by
  simp only [asNanos, fromMillis, UInt64.toNat_div, UInt64.reduceToNat]
  omega

@[simp] theorem asNanos_fromSecs (secs : UInt64) : (fromSecs secs).asNanos = secs.toNat * 10 ^ 9 := by
  rw [asNanos, fromSecs, Nat.add_zero]

theorem asNanos_fromNanos {n : ℕ} (fits : n < 2 ^ 64 * 10 ^ 9) : (fromNanos n).asNanos = n := by
  have secs : n / 10 ^ 9 < 2 ^ 64 := Nat.div_lt_of_lt_mul (by omega)
  rw [asNanos, fromNanos, UInt64.toNat_ofNat_of_lt' secs]
  exact Nat.div_add_mod' _ _

/- Seconds no longer than some span are read back. -/
theorem fromSecsF64_finite {q : ℚ≥0} {limit : Duration} (le : q ≤ limit.seconds) :
    ∃ d, fromSecsF64 (.finite false q) = .ok d ∧ d.asNanos = nearestEven (q * (10 ^ 9 : ℕ)) := by
  have short : nearestEven (q * (10 ^ 9 : ℕ)) ≤ limit.asNanos := by
    have mono := nearestEven_mono (mul_le_mul_left le ((10 ^ 9 : ℕ) : ℚ≥0))
    rwa [seconds_mul, nearestEven_natCast] at mono
  have fits := short.trans_lt limit.asNanos_lt
  refine ⟨_, ?_, asNanos_fromNanos fits⟩
  simp only [fromSecsF64]
  exact if_neg (by simp only [Bool.false_eq_true, false_and, false_or]; omega)

end Duration

end Stallwatch
