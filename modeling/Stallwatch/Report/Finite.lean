import Stallwatch.Report.Pretty
import Stallwatch.Ring
import Stallwatch.Sampler

/-! Every percentage that is measured is a number: it is a share of a window that is not
empty. So the reports of the daemon can be written as JSON. -/
namespace Stallwatch

open Attribution

/-- One observation, with the warnings of its scan. -/
def observe (f : Rounding) (order : Resource → Shuffle PathBuf UInt64)
    (ioOrder : Shuffle PathBuf UInt64) (first second : HashMap PathBuf Snapshot)
    (firstIo secondIo : HashMap PathBuf IoBytes) (elapsedUs : UInt64) (warnings : List Warning) :
    Outcome Empty Report := do
  let (stalls, causes, windowUsec) ← collect f order ioOrder first second firstIo secondIo elapsedUs
  return ⟨windowUsec, stalls, causes, warnings⟩

namespace Attribution

variable {f : Rounding} {first second : HashMap PathBuf Snapshot} {elapsedUs : UInt64}

theorem pct_finite (f : Rounding) (some : elapsedUs ≠ 0) (d : UInt64) :
    (pct f elapsedUs d).isFinite = true := by
  refine F64.percent_finite f d.toNat_lt elapsedUs.toNat_lt (Nat.pos_of_ne_zero fun zero => some ?_)
  rw [← UInt64.toNat_inj, zero, UInt64.toNat_zero]

theorem diff_finite {order : Resource → Shuffle PathBuf UInt64} {stalls : List Stall}
    (some : elapsedUs ≠ 0) (returns : diff f order first second elapsedUs = .ok stalls) :
    ∀ s ∈ stalls, s.finite = true := by
  intro s member
  obtain ⟨p, _, named⟩ := diff_mem f order first second elapsedUs returns member
  obtain ⟨_, _, rfl⟩ := stall_eq_ok.mp named
  rw [Stall.finite, pct_finite f some]
  rfl

theorem ownPressure_finite (f : Rounding) (first second : HashMap PathBuf Snapshot)
    (some : elapsedUs ≠ 0) (cg : PathBuf) : (ownPressure f first second elapsedUs cg).isFinite = true := by
  unfold ownPressure
  split
  · exact pct_finite f some _
  · rfl

theorem cause_finite {detail : HashMap PathBuf IoBytes} {cg : PathBuf} {c : Cause}
    (some : elapsedUs ≠ 0) (named : cause f detail first second elapsedUs cg = .ok c) :
    c.pressurePct.isFinite = true := by
  unfold cause at named
  split at named
  · contradiction
  · obtain ⟨unit, _, same⟩ := Outcome.bind_eq_ok.mp named
    cases same
    exact ownPressure_finite f first second some cg

theorem collectCauses_finite {order : Shuffle PathBuf UInt64}
    {firstIo secondIo : HashMap PathBuf IoBytes} {causes : List Cause} (some : elapsedUs ≠ 0)
    (returns : collectCauses f order firstIo secondIo first second elapsedUs = .ok causes) :
    ∀ c ∈ causes, c.pressurePct.isFinite = true := by
  obtain ⟨named, ran, same⟩ := Outcome.bind_eq_ok.mp returns
  cases same
  intro c member
  have among := List.mem_of_mem_take member
  rw [List.mem_insertionSort] at among
  obtain ⟨e, _, named⟩ := Outcome.mapM_mem ran among
  exact cause_finite some named

end Attribution

/-- The report is one that an observation returned. -/
def Observed (f : Rounding) (r : Report) : Prop :=
  ∃ order ioOrder first second firstIo secondIo elapsedUs,
    observe f order ioOrder first second firstIo secondIo elapsedUs r.warnings = .ok r

theorem Observed.finite {f : Rounding} {r : Report} (observed : Observed f r) : r.finite = true := by
  obtain ⟨order, ioOrder, first, second, firstIo, secondIo, elapsedUs, returns⟩ := observed
  obtain ⟨⟨stalls, causes, window⟩, collected, same⟩ := Outcome.bind_eq_ok.mp returns
  simp only [Outcome.pure_eq, Outcome.ok.injEq] at same
  rw [← same, Report.finite, Bool.and_eq_true, List.all_eq_true, List.all_eq_true]
  unfold collect at collected
  split at collected
  · cases collected
    exact ⟨List.forall_mem_nil _, List.forall_mem_nil _⟩
  · rename_i some
    obtain ⟨stalls, stalled, collected⟩ := Outcome.bind_eq_ok.mp collected
    obtain ⟨causes, caused, same⟩ := Outcome.bind_eq_ok.mp collected
    cases same
    exact ⟨diff_finite some stalled, collectCauses_finite some caused⟩

/-- The frame was recorded by a tick of the sampler or by a capture. -/
def Sampled (f : Rounding) (fr : Frame) : Prop :=
  (∃ s t s', Sampler.tick f s t = .ok (s', fr.stalls, fr.windowUsec)) ∨
    ∃ r, Observed f r ∧ fr.stalls = r.stalls ∧ fr.windowUsec = r.windowUsec

theorem Sampled.finite {f : Rounding} {fr : Frame} (sampled : Sampled f fr) :
    ∀ s ∈ fr.stalls, s.finite = true := by
  rcases sampled with ⟨s, t, s', ticked⟩ | ⟨r, observed, same, _⟩
  · rcases (Sampler.tick_cases ticked).2.2 with ⟨_, empty⟩ | ⟨some, found⟩
    · change fr.stalls = [] at empty
      rw [empty]
      exact List.forall_mem_nil _
    · exact diff_finite some found
  · have finite := observed.finite
    rw [Report.finite, Bool.and_eq_true, List.all_eq_true] at finite
    rw [same]
    exact finite.1

namespace Total

theorem foldl_finite {ss : List Stall} (finite : ∀ s ∈ ss, s.finite = true) (t : Total)
    (peak : t.peak.isFinite = true) : (ss.foldl add t).peak.isFinite = true := by
  induction ss generalizing t with
  | nil => exact peak
  | cons s ss ih =>
    obtain ⟨here, rest⟩ := List.forall_mem_cons.mp finite
    rw [Stall.finite, Bool.and_eq_true] at here
    refine ih rest (t.add s) ?_
    unfold add
    dsimp only
    split
    · exact here.1
    · exact peak

end Total

theorem Ring.totals_finite (f : Rounding) (order : Shuffle Stall.Key Total) {window : UInt64}
    (some : window ≠ 0) {ss : List Stall} (finite : ∀ s ∈ ss, s.finite = true) :
    ∀ s ∈ Ring.totals f order window ss, s.finite = true := by
  intro s member
  obtain ⟨t, total, here⟩ := (Ring.mem_totals f order window ss).mp member
  obtain ⟨first, _, folded⟩ := Option.map_eq_some_iff.mp total
  have peak : t.peak.isFinite = true := by
    rw [← folded]
    exact Total.foldl_finite (fun s among => finite s (List.mem_of_mem_filter among)) _ rfl
  rw [here, Stall.finite, Bool.and_eq_true]
  exact ⟨Attribution.pct_finite f some t.usec, peak⟩

theorem Ring.aggregate_finite (f : Rounding) (order : Shuffle Stall.Key Total) {r : Ring}
    (recorded : ∀ fr ∈ r.frames, ∀ s ∈ fr.stalls, s.finite = true) (sinceUnix : UInt64) :
    (r.aggregate f order sinceUnix).finite = true := by
  unfold aggregate
  dsimp only
  split
  · rfl
  · rename_i some
    rw [Report.finite, Bool.and_eq_true, List.all_eq_true]
    refine ⟨?_, rfl⟩
    intro s member
    have among := List.mem_of_mem_take member
    rw [List.mem_insertionSort] at among
    refine Ring.totals_finite f order some ?_ s (List.mem_of_mem_filter among)
    intro t listed
    obtain ⟨fr, frame, inside⟩ := List.mem_flatMap.mp listed
    exact recorded fr (List.mem_of_mem_filter frame) t inside

end Stallwatch
