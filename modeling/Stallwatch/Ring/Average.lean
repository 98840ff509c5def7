import Stallwatch.Ring

/-! The average of a history against its worst tick. A cgroup has at most one part of each
window, and no part is more than the peak of it, so neither are all of them together. -/
namespace Stallwatch

open scoped NNRat

/-- A tick as the sampler measures it, in exact rationals. -/
structure Frame.Measured (fr : Frame) : Prop where
  window : 0 < fr.windowUsec.toNat
  distinct : (fr.stalls.map Stall.key).Nodup
  pressure : ∀ s ∈ fr.stalls,
    s.pressurePct = F64.percent .exact s.deltaUsec.toNat fr.windowUsec.toNat

namespace Total

/- Wrapping only makes the sum smaller. -/
theorem foldl_usec_le (ss : List Stall) (t : Total) :
    (ss.foldl add t).usec.toNat ≤ t.usec.toNat + (ss.map fun s => s.deltaUsec.toNat).sum := by
  induction ss generalizing t with
  | nil => exact le_rfl
  | cons s ss ih =>
    have next : (t.add s).usec.toNat ≤ t.usec.toNat + s.deltaUsec.toNat := by
      rw [add, UInt64.toNat_add]
      exact Nat.mod_le _ _
    have later := ih (t.add s)
    rw [List.map_cons, List.sum_cons]
    exact later.trans (by omega)

theorem summary_usec_le {ss : List Stall} {t : Total} (total : HashMap.summary start add ss = some t) :
    t.usec.toNat ≤ (ss.map fun s => s.deltaUsec.toNat).sum := by
  obtain ⟨first, _, folded⟩ := Option.map_eq_some_iff.mp total
  have le := foldl_usec_le ss (start first)
  rw [folded] at le
  simpa [start] using le

end Total

theorem F64.percent_exact {part whole : ℕ} (hp : part < 2 ^ 64) (hw : whole < 2 ^ 64) (pos : 0 < whole) :
    percent .exact part whole = .finite false (part / whole * 100) := by
  rw [percent_eq .exact hp hw pos, share_exact]
  rfl

namespace Frame

variable {fr : Frame}

theorem Measured.magnitude (measured : fr.Measured) {s : Stall} (listed : s ∈ fr.stalls) :
    s.pressurePct = .finite false (s.deltaUsec.toNat / fr.windowUsec.toNat * 100) := by
  rw [measured.pressure s listed]
  exact F64.percent_exact s.deltaUsec.toNat_lt fr.windowUsec.toNat_lt measured.window

theorem Measured.nonNegative (measured : fr.Measured) {s : Stall} (listed : s ∈ fr.stalls) :
    s.pressurePct.NonNegative := by
  rw [measured.magnitude listed]
  exact ⟨rfl, by rw [F64.whole, F64.atLeast_finite]; simp⟩

/- A stall takes no more of the window than its share. -/
theorem Measured.delta_le (measured : fr.Measured) {s : Stall} (listed : s ∈ fr.stalls) {q : ℚ≥0}
    (peak : s.pressurePct.magnitude ≤ q) :
    (s.deltaUsec.toNat : ℚ≥0) ≤ q / 100 * fr.windowUsec.toNat := by
  have pos : (0 : ℚ≥0) < fr.windowUsec.toNat := by exact_mod_cast measured.window
  rw [measured.magnitude listed] at peak
  have share : (s.deltaUsec.toNat / fr.windowUsec.toNat : ℚ≥0) ≤ q / 100 :=
    (le_div_iff₀ (by norm_num)).mpr peak
  exact (div_le_iff₀ pos).mp share

theorem Measured.ofKey_length (measured : fr.Measured) (k : Stall.Key) :
    (Stall.ofKey k fr.stalls).length ≤ 1 := by
  have same : (Stall.ofKey k fr.stalls).map Stall.key =
      List.replicate (Stall.ofKey k fr.stalls).length k := by
    rw [List.eq_replicate_iff, List.length_map]
    refine ⟨rfl, fun key member => ?_⟩
    obtain ⟨s, listed, rfl⟩ := List.mem_map.mp member
    simpa using (List.mem_filter.mp listed).2
  have kept : (Stall.ofKey k fr.stalls).Sublist fr.stalls := List.filter_sublist
  have distinct := measured.distinct.sublist (kept.map Stall.key)
  rw [same, List.nodup_replicate] at distinct
  exact distinct

/- The part of a key in one window. -/
theorem Measured.part_le (measured : fr.Measured) {k : Stall.Key} {q : ℚ≥0}
    (peak : ∀ s ∈ Stall.ofKey k fr.stalls, s.pressurePct.magnitude ≤ q) :
    ((((Stall.ofKey k fr.stalls).map fun s => s.deltaUsec.toNat).sum : ℕ) : ℚ≥0) ≤
      q / 100 * fr.windowUsec.toNat := by
  rcases Nat.le_one_iff_eq_zero_or_eq_one.mp (measured.ofKey_length k) with zero | one
  · rw [List.length_eq_zero_iff.mp zero]
    simp
  · obtain ⟨s, found⟩ := List.length_eq_one_iff.mp one
    have member : s ∈ Stall.ofKey k fr.stalls := by simp [found]
    have le := measured.delta_le (List.mem_of_mem_filter member) (peak s member)
    simpa [found] using le

end Frame

namespace Ring

/- All parts of a key together. -/
theorem parts_le {frames : List Frame} (measured : ∀ fr ∈ frames, fr.Measured) {k : Stall.Key}
    {q : ℚ≥0}
    (peak : ∀ s ∈ Stall.ofKey k (frames.flatMap Frame.stalls), s.pressurePct.magnitude ≤ q) :
    ((((Stall.ofKey k (frames.flatMap Frame.stalls)).map fun s => s.deltaUsec.toNat).sum : ℕ) : ℚ≥0) ≤
      q / 100 * ((frames.map fun fr => fr.windowUsec.toNat).sum : ℕ) := by
  induction frames with
  | nil => simp [Stall.ofKey]
  | cons fr frames ih =>
    obtain ⟨here, rest⟩ := List.forall_mem_cons.mp measured
    have split : Stall.ofKey k ((fr :: frames).flatMap Frame.stalls) =
        Stall.ofKey k fr.stalls ++ Stall.ofKey k (frames.flatMap Frame.stalls) := by
      simp [Stall.ofKey]
    rw [split] at peak ⊢
    have part := here.part_le fun s listed => peak s (List.mem_append_left _ listed)
    have parts := ih rest fun s listed => peak s (List.mem_append_right _ listed)
    rw [List.map_append, List.sum_append, Nat.cast_add, List.map_cons, List.sum_cons, Nat.cast_add, mul_add]
    exact add_le_add part parts

/- What a stall of the map is made of. -/
theorem totals_peak (order : Shuffle Stall.Key Total) (window : UInt64) {ss : List Stall}
    (measured : ∀ s ∈ ss, s.pressurePct.NonNegative) {s : Stall}
    (member : s ∈ totals .exact order window ss) :
    ∃ t q, HashMap.summary Total.start Total.add (Stall.ofKey s.key ss) = some t ∧
      s = t.toStall .exact window s.key ∧ t.peak = .finite false q ∧
      Stall.IsPeak (Stall.ofKey s.key ss) q := by
  obtain ⟨t, added, here⟩ := (mem_totals .exact order window _).mp member
  obtain ⟨q, peak, greatest⟩ := Total.summary_peak
    (fun u listed => measured u (List.mem_of_mem_filter listed)) added
  exact ⟨t, q, added, here, peak, greatest⟩

/-- No stall of the map is longer than its peak allows, nor its average above the peak. -/
theorem totals_average (order : Shuffle Stall.Key Total) {frames : List Frame}
    (measured : ∀ fr ∈ frames, fr.Measured) {window : UInt64} (pos : 0 < window.toNat)
    (whole : window.toNat = (frames.map fun fr => fr.windowUsec.toNat).sum) {s : Stall}
    (member : s ∈ totals .exact order window (frames.flatMap Frame.stalls)) :
    ∃ average peak : ℚ≥0, s.pressurePct = .finite false average ∧ s.peakPct = .finite false peak ∧
      average ≤ peak ∧ s.deltaUsec.toNat ≤ peak / 100 * window.toNat := by
  have nonNegative : ∀ s ∈ frames.flatMap Frame.stalls, s.pressurePct.NonNegative := by
    intro s member
    obtain ⟨fr, tick, listed⟩ := List.mem_flatMap.mp member
    exact (measured fr tick).nonNegative listed
  obtain ⟨t, q, added, here, peak, greatest⟩ := totals_peak order window nonNegative member
  have sum := Total.summary_usec_le added
  have parts := parts_le measured fun u listed => greatest.2 _ (List.mem_map_of_mem listed)
  rw [← whole] at parts
  have delta : (t.usec.toNat : ℚ≥0) ≤ q / 100 * window.toNat := le_trans (by exact_mod_cast sum) parts
  have large : (0 : ℚ≥0) < window.toNat := by exact_mod_cast pos
  have average : (t.usec.toNat / window.toNat * 100 : ℚ≥0) ≤ q :=
    (le_div_iff₀ (by norm_num)).mp ((div_le_iff₀ large).mpr delta)
  rw [here]
  exact ⟨_, q, F64.percent_exact t.usec.toNat_lt window.toNat_lt pos, peak, average, delta⟩

/-- No average is above the peak, and no stall is longer than its peak allows, as long as
the windows add up without wrapping. -/
theorem average_le_peak (order : Shuffle Stall.Key Total) (r : Ring) (sinceUnix : UInt64)
    (measured : ∀ fr ∈ r.frames, fr.Measured)
    (fits : ((r.frames.filter fun fr => sinceUnix ≤ fr.atUnix).map fun fr =>
      fr.windowUsec.toNat).sum < 2 ^ 64) :
    ∀ s ∈ (aggregate .exact order r sinceUnix).stalls, ∃ average peak : ℚ≥0,
      s.pressurePct = .finite false average ∧ s.peakPct = .finite false peak ∧ average ≤ peak ∧
        s.deltaUsec.toNat ≤ peak / 100 * (aggregate .exact order r sinceUnix).windowUsec.toNat := by
  generalize recent : r.frames.filter (fun fr => sinceUnix ≤ fr.atUnix) = frames at fits
  have ticks : ∀ fr ∈ frames, fr.Measured := fun fr listed => by
    rw [← recent] at listed
    exact measured fr (List.mem_of_mem_filter listed)
  have whole := toNat_window fits
  generalize total : (frames.map Frame.windowUsec).sum = w at whole
  by_cases none : w = 0
  · have empty : aggregate .exact order r sinceUnix = .default := by
      unfold aggregate
      rw [recent]
      exact if_pos (total.trans none)
    rw [empty]
    exact fun s listed => absurd listed List.not_mem_nil
  · have pos : 0 < w.toNat := Nat.pos_of_ne_zero fun zero => none (UInt64.toNat_inj.mp zero)
    have averages := fun s => totals_average order ticks pos whole (s := s)
    have finite : ∀ s ∈ totals .exact order w (frames.flatMap Frame.stalls),
        s.peakPct = .finite false s.peakPct.magnitude := by
      intro s member
      obtain ⟨_, q, _, peak, _⟩ := averages s member
      rw [peak]
      rfl
    rw [aggregate_eq .exact order r sinceUnix recent total none finite]
    exact fun s member => averages s (reported_subset member).1

theorem average_le_peak_two :
    (aggregate .exact .same ⟨[quiet, busy], 2⟩ 0).stalls ≠ [] ∧
      ∀ s ∈ (aggregate .exact .same ⟨[quiet, busy], 2⟩ 0).stalls, ∃ average peak : ℚ≥0,
        s.pressurePct = .finite false average ∧ s.peakPct = .finite false peak ∧ average ≤ peak ∧
          s.deltaUsec.toNat ≤
            peak / 100 * (aggregate .exact .same ⟨[quiet, busy], 2⟩ 0).windowUsec.toNat := by
  have ticks : ∀ fr ∈ [quiet, busy], fr.Measured := by
    intro fr listed
    rcases List.mem_cons.mp listed with rfl | later
    · exact ⟨by decide, by decide, by decide +kernel⟩
    · rw [List.mem_singleton.mp later]
      exact ⟨by decide, by decide, by decide +kernel⟩
  have some : (aggregate .exact .same ⟨[quiet, busy], 2⟩ 0).stalls ≠ [] := by decide +kernel
  exact ⟨some, average_le_peak .same ⟨[quiet, busy], 2⟩ 0 ticks (by decide +kernel)⟩

/-- Two windows whose sum wraps to a single microsecond. -/
def wrapped : Ring :=
  ⟨[⟨0, 9223372036854775808, [⟨"a.service", "/a.service", .io, .full, 9223372036854775808,
    .whole 100, .whole 100⟩]⟩, ⟨0, 9223372036854775809, []⟩], 2⟩

theorem wrapped_measured : ∀ fr ∈ wrapped.frames, fr.Measured := by
  intro fr listed
  rcases List.mem_cons.mp listed with rfl | later
  · exact ⟨by decide, by decide, by decide +kernel⟩
  · rw [List.mem_singleton.mp later]
    exact ⟨by decide, by decide, by decide +kernel⟩

theorem not_average_le_peak :
    ¬ ∀ (order : Shuffle Stall.Key Total) (r : Ring) (sinceUnix : UInt64),
      (∀ fr ∈ r.frames, fr.Measured) →
      ∀ s ∈ (aggregate .exact order r sinceUnix).stalls, ∃ average peak : ℚ≥0,
        s.pressurePct = .finite false average ∧ s.peakPct = .finite false peak ∧ average ≤ peak ∧
          s.deltaUsec.toNat ≤ peak / 100 * (aggregate .exact order r sinceUnix).windowUsec.toNat := by
  intro bounded
  have stalls : (aggregate .exact .same wrapped 0).stalls = [⟨"a.service", "/a.service", .io, .full,
      9223372036854775808, .finite false 922337203685477580800, .finite false 100⟩] := by decide +kernel
  obtain ⟨average, peak, here, there, less, _⟩ := bounded .same wrapped 0 wrapped_measured _
    (by rw [stalls]; exact List.mem_singleton_self _)
  cases here
  cases there
  norm_num at less

end Ring

end Stallwatch
