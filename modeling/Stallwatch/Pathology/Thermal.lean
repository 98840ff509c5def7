import Stallwatch.Pathology.Exported

/-! Temperatures and limits: a drive that gets hotter is never taken more lightly, under any
rounding. -/
namespace Stallwatch.Pathology

open Text Metrics

/-- How serious a finding is; no finding is the least. -/
def level : Option Warning → ℕ
  | none => 0
  | some w => match w.severity with
    | .note => 1
    | .warn => 2
    | .critical => 3

variable {f : Rounding}

section Celsius

/- A reading is a number, and a higher one is not a lower number. -/
theorem celsius_finite (f : Rounding) (milli : UInt64) : ∃ p q : ℚ≥0, f.round milli.toNat = p ∧
    f.round (p / (1000 : ℕ)) = q ∧ celsius f milli = .finite false q := by
  have large : ((milli.toNat : ℕ) : ℚ≥0) ≤ ((2 ^ 64 : ℕ) : ℚ≥0) := Nat.cast_le.mpr milli.toNat_lt.le
  obtain ⟨p, rounded, below⟩ := f.round_le (e := 64) (by decide) large
  have less : p / (1000 : ℕ) ≤ ((2 ^ 64 : ℕ) : ℚ≥0) := (div_le_self zero_le (by norm_num)).trans below
  obtain ⟨q, divided, _⟩ := f.round_le (e := 64) (by decide) less
  have nonzero : ((1000 : ℕ) : ℚ≥0) ≠ 0 := by norm_num
  refine ⟨p, q, rounded, divided, ?_⟩
  rw [celsius, F64.ofNat, rounded, F64.ofMagnitude_coe, F64.whole, F64.div, if_neg nonzero, divided]
  rfl

theorem celsius_mono {milli milli' : UInt64} (le : milli ≤ milli') {q q' : ℚ≥0}
    (read : celsius f milli = .finite false q) (read' : celsius f milli' = .finite false q') :
    q ≤ q' := by
  obtain ⟨p, r, rounded, divided, exact⟩ := celsius_finite f milli
  obtain ⟨p', r', rounded', divided', exact'⟩ := celsius_finite f milli'
  cases read.symm.trans exact
  cases read'.symm.trans exact'
  have wider : p ≤ p' := by
    have mono := f.mono (Nat.cast_le (α := ℚ≥0).mpr (UInt64.le_iff_toNat_le.mp le))
    rw [rounded, rounded'] at mono
    exact WithTop.coe_le_coe.mp mono
  have mono := f.mono (div_le_div_of_nonneg_right wider (zero_le (a := ((1000 : ℕ) : ℚ≥0))))
  rw [divided, divided'] at mono
  exact WithTop.coe_le_coe.mp mono

end Celsius

section Margin

variable {t t' c c' : ℚ≥0}

/-- Not further below the limit than the margin, as it is computed. -/
def Near (f : Rounding) (t c : ℚ≥0) : Prop := c ≤ 5 ∨ f.round (c - 5) ≤ t

instance : Decidable (Near f t c) := inferInstanceAs (Decidable (_ ∨ _))

theorem atLeast_ofMagnitude (p : WithTop ℚ≥0) :
    F64.atLeast (.finite false t) (F64.ofMagnitude false p) = true ↔ p ≤ t := by
  induction p using WithTop.recTopCoe with
  | top => simp [F64.atLeast, F64.place]
  | coe p => simp [WithTop.coe_le_coe]

theorem atLeast_negative (p : WithTop ℚ≥0) :
    F64.atLeast (.finite false t) (F64.ofMagnitude true p) = true := by
  induction p using WithTop.recTopCoe with
  | top => simp [F64.atLeast, F64.place]
  | coe p =>
    have below : -(p : ℚ) ≤ (t : ℚ) := (neg_nonpos.mpr p.2).trans t.2
    exact decide_eq_true (WithBot.coe_le_coe.mpr (WithTop.coe_le_coe.mpr below))

theorem near_iff : F64.atLeast (.finite false t) (F64.sub f (.finite false c) nearLimitMarginC) = true ↔
    Near f t c := by
  have five : ((5 : ℕ) : ℚ≥0) = 5 := by norm_num
  have less : F64.sub f (.finite false c) nearLimitMarginC =
      if c = 5 then .finite false 0
      else if 5 < c then F64.ofMagnitude false (f.round (c - 5))
      else F64.ofMagnitude true (f.round (5 - c)) := by
    rw [← five]
    rfl
  rw [less]
  split
  · rename_i same
    exact iff_of_true (by simp) (.inl same.le)
  · rename_i apart
    split
    · rename_i above
      rw [atLeast_ofMagnitude]
      exact ⟨.inr, fun near => near.resolve_left above.not_ge⟩
    · rename_i below
      exact iff_of_true (atLeast_negative _) (.inl (not_lt.mp below))

theorem Near.mono (near : Near f t c) (hotter : t ≤ t') (closer : c' ≤ c) : Near f t' c' := by
  rcases near with small | near
  · exact .inl (closer.trans small)
  · exact .inr (((f.mono (tsub_le_tsub_right closer 5)).trans near).trans (WithTop.coe_le_coe.mpr hotter))

theorem level_assess (label : List Char) :
    level (assess f label (.finite false t) (some (.finite false c))) =
    if c ≤ t then 3 else if Near f t c then 1 else 0 := by
  by_cases critical : c ≤ t
  · have reached : F64.atLeast (.finite false t) (.finite false c) = true := by simpa using critical
    simp only [assess, reached, if_true, if_pos critical]
    rfl
  · have under : ¬ F64.atLeast (.finite false t) (.finite false c) = true := by simpa using critical
    simp only [assess, if_neg under, if_neg critical, near_iff]
    by_cases near : Near f t c
    · rw [if_pos near, if_pos near]
      rfl
    · rw [if_neg near, if_neg near]
      rfl

end Margin

/- In exact arithmetic a finding begins five degrees below the limit. -/
theorem found_exact {milli crit : ℕ} : ((crit : ℚ≥0) / (1000 : ℕ) ≤ (milli : ℚ≥0) / (1000 : ℕ) ∨
    Near .exact ((milli : ℚ≥0) / (1000 : ℕ)) ((crit : ℚ≥0) / (1000 : ℕ))) ↔ crit ≤ milli + 5000 := by
  have pos : (0 : ℚ≥0) < (1000 : ℕ) := by norm_num
  have margin : (crit : ℚ≥0) / (1000 : ℕ) ≤ (milli : ℚ≥0) / (1000 : ℕ) + 5 ↔ crit ≤ milli + 5000 := by
    have sum : (milli : ℚ≥0) / (1000 : ℕ) + 5 = ((milli + 5000 : ℕ) : ℚ≥0) / (1000 : ℕ) := by
      rw [Nat.cast_add, add_div]
      norm_num
    rw [sum, div_le_div_iff_of_pos_right pos, Nat.cast_le]
  have near : Near .exact ((milli : ℚ≥0) / (1000 : ℕ)) ((crit : ℚ≥0) / (1000 : ℕ)) ↔
      (crit : ℚ≥0) / (1000 : ℕ) ≤ 5 ∨ (crit : ℚ≥0) / (1000 : ℕ) ≤ (milli : ℚ≥0) / (1000 : ℕ) + 5 :=
    or_congr_right (WithTop.coe_le_coe.trans tsub_le_iff_right)
  rw [near, ← margin]
  constructor
  · rintro (above | small | near)
    · exact above.trans (le_add_of_nonneg_right (by norm_num))
    · exact small.trans (le_add_of_nonneg_left zero_le)
    · exact near
  · exact fun near => .inr (.inr near)

section Hotter

variable {h h' : Hwmon} {idx : ℕ} {t c : UInt64} {p q : ℚ≥0}

theorem level_checkSensor (input : (h.sensor idx).input = some t) (crit : (h.sensor idx).crit = some c)
    (read : celsius f t = .finite false p) (limit : celsius f c = .finite false q) :
    level (checkSensor f h idx) = if q ≤ p then 3 else if Near f p q then 1 else 0 := by
  simp only [checkSensor, input, crit, Option.bind_some, Option.map_some, read, limit]
  exact level_assess _

/- Without a limit of its own a sensor is not taken seriously at any temperature. -/
theorem level_silent (f : Rounding) (silent : (h.sensor idx).input = none ∨ (h.sensor idx).crit = none) :
    level (checkSensor f h idx) = 0 := by
  unfold checkSensor
  rcases silent with none | none
  · rw [none]
    rfl
  · rw [none]
    cases (h.sensor idx).input <;> rfl

theorem level_mono (hotter : ∀ t ∈ (h.sensor idx).input, ∃ t' ∈ (h'.sensor idx).input, t ≤ t')
    (closer : ∀ c ∈ (h.sensor idx).crit, ∃ c' ∈ (h'.sensor idx).crit, c' ≤ c) :
    level (checkSensor f h idx) ≤ level (checkSensor f h' idx) := by
  cases input : (h.sensor idx).input with
  | none => exact (level_silent f (.inl input)).le.trans (Nat.zero_le _)
  | some t =>
    cases crit : (h.sensor idx).crit with
    | none => exact (level_silent f (.inr crit)).le.trans (Nat.zero_le _)
    | some c =>
      obtain ⟨t', input', hot⟩ := hotter t input
      obtain ⟨c', crit', close⟩ := closer c crit
      obtain ⟨_, p, _, _, read⟩ := celsius_finite f t
      obtain ⟨_, q, _, _, limit⟩ := celsius_finite f c
      obtain ⟨_, p', _, _, read'⟩ := celsius_finite f t'
      obtain ⟨_, q', _, _, limit'⟩ := celsius_finite f c'
      have warmer : p ≤ p' := celsius_mono hot read read'
      have lower : q' ≤ q := celsius_mono close limit' limit
      rw [level_checkSensor input crit read limit, level_checkSensor input' crit' read' limit']
      by_cases critical : q ≤ p
      · rw [if_pos critical, if_pos (lower.trans (critical.trans warmer))]
      · rw [if_neg critical]
        by_cases near : Near f p q
        · rw [if_pos near, if_pos (near.mono warmer lower)]
          split <;> omega
        · rw [if_neg near]
          exact Nat.zero_le _

/-- A sensor that gets hotter, or whose limit falls, is never taken more lightly, whatever the
rounding; at its limit it is critical. In exact arithmetic it is mentioned from five degrees
below the limit on. -/
theorem hotter_not_milder (f : Rounding)
    (hotter : ∀ t ∈ (h.sensor idx).input, ∃ t' ∈ (h'.sensor idx).input, t ≤ t')
    (closer : ∀ c ∈ (h.sensor idx).crit, ∃ c' ∈ (h'.sensor idx).crit, c' ≤ c) :
    level (checkSensor f h idx) ≤ level (checkSensor f h' idx) ∧
      ∀ t ∈ (h.sensor idx).input, ∀ c ∈ (h.sensor idx).crit,
        (c ≤ t → level (checkSensor f h idx) = 3) ∧
        (level (checkSensor .exact h idx) ≠ 0 ↔ c.toNat ≤ t.toNat + 5000) := by
  refine ⟨level_mono hotter closer, fun t input c crit => ⟨fun reached => ?_, ?_⟩⟩
  · obtain ⟨_, p, _, _, read⟩ := celsius_finite f t
    obtain ⟨_, q, _, _, limit⟩ := celsius_finite f c
    rw [level_checkSensor input crit read limit, if_pos (celsius_mono reached limit read)]
  · obtain ⟨p', p, rounded, divided, read⟩ := celsius_finite .exact t
    obtain ⟨q', q, rounded', divided', limit⟩ := celsius_finite .exact c
    cases WithTop.coe_inj.mp rounded
    cases WithTop.coe_inj.mp divided
    cases WithTop.coe_inj.mp rounded'
    cases WithTop.coe_inj.mp divided'
    rw [level_checkSensor input crit read limit, ← found_exact]
    split
    · rename_i above
      exact iff_of_true nofun (.inl above)
    · rename_i under
      split
      · rename_i near
        exact iff_of_true nofun (.inr near)
      · rename_i far
        exact iff_of_false (fun some => some rfl) fun found => found.elim under far

end Hotter

/-- A drive that has gone from four degrees below its limit to the limit. -/
def drive (milli : UInt64) : Hwmon := ⟨"nvme".toList, fun _ => ⟨some milli, some 82000, none⟩⟩

theorem hotter_not_milder_drive :
    level (checkSensor .exact (drive 78000) 1) ≤ level (checkSensor .exact (drive 82000) 1) ∧
      ∀ t ∈ ((drive 78000).sensor 1).input, ∀ c ∈ ((drive 78000).sensor 1).crit,
        (c ≤ t → level (checkSensor .exact (drive 78000) 1) = 3) ∧
        (level (checkSensor .exact (drive 78000) 1) ≠ 0 ↔ c.toNat ≤ t.toNat + 5000) := by
  refine hotter_not_milder .exact (fun t read => ⟨82000, rfl, ?_⟩) fun c limit => ⟨82000, rfl, ?_⟩
  · cases read
    decide
  · cases limit
    exact UInt64.le_refl _

end Stallwatch.Pathology
