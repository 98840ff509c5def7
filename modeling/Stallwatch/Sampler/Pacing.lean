import Stallwatch.Base.Seconds
import Stallwatch.Sampler

/-! How long the daemon waits before its next sweep. The wait grows with the cost of the
last sweep and stays between what was asked for and half a minute. -/
namespace Stallwatch

namespace Sampler

/-- The bounds are asserted to be in order by `clamp`. -/
def recommendedInterval (f : Rounding) (s : Sampler) (duty : F64) (floor ceil : Duration) :
    Outcome Empty Duration := do
  let sweep := F64.max ((Duration.fromNanos s.lastSweep).asSecsF64 f) (.literal f (1 / (10000 : ℕ)))
  let duty ← duty.clamp (.literal f (1 / (1000 : ℕ))) (.whole 1)
  let secs ← (F64.div f sweep duty).clamp (floor.asSecsF64 f) (ceil.asSecsF64 f)
  Duration.fromSecsF64 secs

/-- The seconds of the last sweep, a tenth of a millisecond at least. -/
def cost (s : Sampler) : ℚ≥0 := (Duration.fromNanos s.lastSweep).seconds ⊔ 1 / (10000 : ℕ)

/-- The wait that a share of one core allows, between its bounds. -/
def wait (s : Sampler) (q : ℚ≥0) (floor ceil : Duration) : ℚ≥0 :=
  floor.seconds ⊔ s.cost / q ⊓ ceil.seconds

section Exact

theorem thousandth_le_one : (1 : ℚ≥0) / (1000 : ℕ) ≤ 1 := div_le_one_of_le₀ (by norm_num) zero_le

theorem thousandth_pos : (0 : ℚ≥0) < 1 / (1000 : ℕ) := one_div_pos.mpr (by norm_num)

variable (s : Sampler) {q q' : ℚ≥0} {floor ceil : Duration}

theorem recommendedInterval_eq (least : 1 / (1000 : ℕ) ≤ q) (most : q ≤ 1) :
    recommendedInterval .exact s (.finite false q) floor ceil =
      if floor.seconds ≤ ceil.seconds then
        Duration.fromSecsF64 (.finite false (s.wait q floor ceil))
      else .panic := by
  have kept : (F64.finite false q).clamp (.literal .exact (1 / (1000 : ℕ))) (.whole 1) =
      .ok (.finite false q) := by
    change F64.clamp (.finite false q) (.finite false (1 / (1000 : ℕ))) (.finite false (1 : ℕ)) = _
    rw [Nat.cast_one, F64.clamp_finite, if_pos thousandth_le_one, inf_of_le_left most,
      sup_of_le_right least]
  have spent : F64.max ((Duration.fromNanos s.lastSweep).asSecsF64 .exact)
      (.literal .exact (1 / (10000 : ℕ))) = .finite false s.cost := by
    rw [Duration.asSecsF64_exact]
    exact F64.max_finite _ _
  have positive : q ≠ 0 := (thousandth_pos.trans_le least).ne'
  rw [recommendedInterval, spent, kept, Outcome.ok_bind, F64.div_exact _ positive,
    Duration.asSecsF64_exact, Duration.asSecsF64_exact, F64.clamp_finite]
  split
  · rw [Outcome.ok_bind, wait]
  · rw [Outcome.panic_bind]

/- With its bounds in order the wait is the nearest nanosecond. -/
theorem recommendedInterval_ok (least : 1 / (1000 : ℕ) ≤ q) (most : q ≤ 1)
    (order : floor.asNanos ≤ ceil.asNanos) :
    ∃ i, recommendedInterval .exact s (.finite false q) floor ceil = .ok i ∧
      i.asNanos = nearestEven (s.wait q floor ceil * (10 ^ 9 : ℕ)) := by
  have bounds := Duration.seconds_le.mpr order
  have below : s.wait q floor ceil ≤ ceil.seconds := sup_le bounds inf_le_right
  obtain ⟨i, read, nanos⟩ := Duration.fromSecsF64_finite below
  exact ⟨i, by rw [recommendedInterval_eq s least most, if_pos bounds, read], nanos⟩

theorem floor_le_wait : floor.asNanos ≤ nearestEven (s.wait q floor ceil * (10 ^ 9 : ℕ)) := by
  have above : floor.seconds ≤ s.wait q floor ceil := le_sup_left
  have mono := nearestEven_mono (mul_le_mul_left above ((10 ^ 9 : ℕ) : ℚ≥0))
  rwa [Duration.seconds_mul, nearestEven_natCast] at mono

theorem wait_anti (positive : 0 < q) (less : q ≤ q') :
    nearestEven (s.wait q' floor ceil * (10 ^ 9 : ℕ)) ≤ nearestEven (s.wait q floor ceil * (10 ^ 9 : ℕ)) := by
  have quotient : s.cost / q' ≤ s.cost / q := div_le_div_of_nonneg_left zero_le positive less
  have shorter : s.wait q' floor ceil ≤ s.wait q floor ceil :=
    sup_le_sup_left (inf_le_inf_right _ quotient) _
  exact nearestEven_mono (mul_le_mul_left shorter _)

end Exact

end Sampler

namespace Polling

/-- The flag `--tick`, in milliseconds; it has no upper bound. -/
def tickMs (flag : UInt64) : UInt64 := if flag < 100 then 100 else flag

/-- The flag `--duty`, a percentage. -/
def duty (f : Rounding) (flag : UInt64) : Outcome Empty F64 :=
  (F64.div f (F64.ofNat f flag.toNat) (.whole 100)).clamp (.literal f (1 / (1000 : ℕ)))
    (.literal f (1 / (2 : ℕ)))

def floor (tick : UInt64) : Duration := .fromMillis (tickMs tick)

def ceil : Duration := .fromSecs 30

theorem duty_exact (flag : UInt64) :
    ∃ q, duty .exact flag = .ok (.finite false q) ∧ 1 / (1000 : ℕ) ≤ q ∧ q ≤ 1 := by
  have computed : duty .exact flag = F64.clamp (.finite false (flag.toNat / (100 : ℕ)))
      (.finite false (1 / (1000 : ℕ))) (.finite false (1 / (2 : ℕ))) := by
    change F64.clamp (F64.div .exact (.finite false flag.toNat) (.finite false (100 : ℕ))) _ _ = _
    rw [F64.div_exact _ (by norm_num)]
    rfl
  have order : (1 : ℚ≥0) / (1000 : ℕ) ≤ 1 / (2 : ℕ) := one_div_le_one_div_of_le (by norm_num) (by norm_num)
  have half : (1 : ℚ≥0) / (2 : ℕ) ≤ 1 := div_le_one_of_le₀ (by norm_num) zero_le
  rw [computed, F64.clamp_finite, if_pos order]
  exact ⟨_, rfl, le_sup_left, sup_le Sampler.thousandth_le_one (inf_le_right.trans half)⟩

theorem floor_le_ceil (tick : UInt64) : (floor tick).asNanos ≤ ceil.asNanos ↔ tick ≤ 30000 := by
  rw [floor, ceil, Duration.asNanos_fromMillis, Duration.asNanos_fromSecs, tickMs, Counter.toNat_max,
    UInt64.le_iff_toNat_le]
  simp only [UInt64.reduceToNat]
  omega

/-- Every wait is at least the one that was asked for, and a smaller share of the core never
makes it shorter, exactly when that is half a minute at most. -/
theorem pacing_iff (s : Sampler) (tick less more : UInt64) {d d' : F64}
    (smaller : duty .exact less = .ok d) (larger : duty .exact more = .ok d')
    (order : d'.atLeast d = true) :
    (∃ i i', s.recommendedInterval .exact d (floor tick) ceil = .ok i ∧
      s.recommendedInterval .exact d' (floor tick) ceil = .ok i' ∧
      (floor tick).asNanos ≤ i.asNanos ∧ (floor tick).asNanos ≤ i'.asNanos ∧
      i'.asNanos ≤ i.asNanos) ↔ tick ≤ 30000 := by
  obtain ⟨q, computed, least, most⟩ := duty_exact less
  obtain ⟨q', computed', least', most'⟩ := duty_exact more
  rw [smaller, Outcome.ok.injEq] at computed
  rw [larger, Outcome.ok.injEq] at computed'
  subst computed computed'
  rw [F64.atLeast_finite, decide_eq_true_iff] at order
  rw [← floor_le_ceil]
  constructor
  · rintro ⟨i, _, returned, _⟩
    rw [Sampler.recommendedInterval_eq s least most] at returned
    split at returned
    · rename_i bounds
      exact Duration.seconds_le.mp bounds
    · cases returned
  · intro bounds
    obtain ⟨i, returned, nanos⟩ := s.recommendedInterval_ok least most bounds
    obtain ⟨i', returned', nanos'⟩ := s.recommendedInterval_ok least' most' bounds
    have positive : 0 < q := Sampler.thousandth_pos.trans_le least
    refine ⟨i, i', returned, returned', ?_, ?_, ?_⟩
    · rw [nanos]
      exact s.floor_le_wait
    · rw [nanos']
      exact s.floor_le_wait
    · rw [nanos, nanos']
      exact s.wait_anti positive order

/-- Ten milliseconds for a sweep. -/
def swept : Sampler := ⟨∅, 0, 10000000⟩

theorem pacing_second : ∃ i i',
    swept.recommendedInterval .exact (.finite false (1 / (100 : ℕ))) (floor 1000) ceil = .ok i ∧
      swept.recommendedInterval .exact (.finite false (2 / (100 : ℕ))) (floor 1000) ceil = .ok i' ∧
      (floor 1000).asNanos ≤ i.asNanos ∧ (floor 1000).asNanos ≤ i'.asNanos ∧ i'.asNanos ≤ i.asNanos :=
  (pacing_iff swept 1000 1 2 (by decide +kernel) (by decide +kernel) (by decide +kernel)).mpr (by decide)

/- A minute between sweeps. -/
theorem not_pacing :
    swept.recommendedInterval .exact (.finite false (2 / (100 : ℕ))) (floor 60000) ceil = .panic ∧
      ¬ ∀ (s : Sampler) (tick less more : UInt64) (d d' : F64), duty .exact less = .ok d →
        duty .exact more = .ok d' → d'.atLeast d = true →
        ∃ i i', s.recommendedInterval .exact d (floor tick) ceil = .ok i ∧
          s.recommendedInterval .exact d' (floor tick) ceil = .ok i' ∧
          (floor tick).asNanos ≤ i.asNanos ∧ (floor tick).asNanos ≤ i'.asNanos ∧
          i'.asNanos ≤ i.asNanos := by
  have panics : swept.recommendedInterval .exact (.finite false (2 / (100 : ℕ))) (floor 60000) ceil =
      .panic := by
    have least : (1 : ℚ≥0) / (1000 : ℕ) ≤ 2 / (100 : ℕ) := by decide +kernel
    have most : (2 : ℚ≥0) / (100 : ℕ) ≤ 1 := by decide +kernel
    have late : ¬ (floor 60000).asNanos ≤ ceil.asNanos := by
      rw [floor_le_ceil]
      decide
    have apart : ¬ (floor 60000).seconds ≤ ceil.seconds := fun order => late (Duration.seconds_le.mp order)
    rw [Sampler.recommendedInterval_eq swept least most, if_neg apart]
  refine ⟨panics, fun paced => ?_⟩
  have given : duty .exact 2 = .ok (.finite false (2 / (100 : ℕ))) := by decide +kernel
  obtain ⟨i, _, returned, _⟩ := paced swept 60000 2 2 _ _ given given (by decide +kernel)
  rw [panics] at returned
  cases returned

end Polling

end Stallwatch
