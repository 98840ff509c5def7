import Stallwatch.Attribution.Provenance
import Stallwatch.Base.Run

/-! The resident sampler. Every clock reading is an argument: one for each file that a
sweep reads, and one for each time the source asks for the current instant. Instants are
in nanoseconds. -/
namespace Stallwatch

open Attribution Counter

/-- A sweep, the instants just before and after it, and when each file was read. -/
structure Reading where
  started : ℕ
  sweep : Cgroup.Sweep
  readAt : PathBuf → Resource → ℕ
  finished : ℕ

/-- What one tick finds: its sweep, the instant at which the window is measured, the
iteration orders of the maps, and the instant taken for the next window. -/
structure Tick extends Reading where
  measured : ℕ
  order : Resource → Shuffle PathBuf UInt64
  rearmed : ℕ

structure Sampler where
  prev : HashMap PathBuf Snapshot
  prevAt : ℕ
  lastSweep : ℕ

namespace Sampler

def new (r : Reading) : Sampler where
  prev := Cgroup.sample r.sweep
  prevAt := r.started
  lastSweep := r.finished - r.started

/-- `elapsed().as_micros() as u64`. -/
def micros (since now : ℕ) : UInt64 := UInt64.ofNat ((now - since) / 1000)

def tick (f : Rounding) (s : Sampler) (t : Tick) : Outcome Empty (Sampler × List Stall × UInt64) := do
  let now := Cgroup.sample t.sweep
  let lastSweep := t.finished - t.started
  let elapsedUs := micros s.prevAt t.measured
  let stalls ← (if elapsedUs = 0 then .ok [] else diff f t.order s.prev now elapsedUs :)
  return ({ prev := now, prevAt := t.rearmed, lastSweep }, stalls, elapsedUs)

/-- A tick keeps its sweep for the next one, and reports what `diff` finds unless its window
has no length. -/
theorem tick_cases {f : Rounding} {s next : Sampler} {t : Tick} {answer : List Stall × UInt64}
    (ticked : tick f s t = .ok (next, answer)) :
    next = ⟨Cgroup.sample t.sweep, t.rearmed, t.finished - t.started⟩ ∧
      answer.2 = micros s.prevAt t.measured ∧
      (answer.2 = 0 ∧ answer.1 = [] ∨
        answer.2 ≠ 0 ∧ diff f t.order s.prev (Cgroup.sample t.sweep) answer.2 = .ok answer.1) := by
  dsimp only [tick] at ticked
  obtain ⟨stalls, diffed, done⟩ := Outcome.bind_eq_ok.mp ticked
  cases done
  refine ⟨rfl, rfl, ?_⟩
  split at diffed
  · rename_i zero
    cases diffed
    exact .inl ⟨zero, rfl⟩
  · rename_i nonzero
    exact .inr ⟨nonzero, diffed⟩

/- A stall is reported for a pick of the tick. -/
theorem tick_mem {f : Rounding} {s next : Sampler} {t : Tick} {answer : List Stall × UInt64}
    (ticked : tick f s t = .ok (next, answer)) {stalled : Stall} (listed : stalled ∈ answer.1) :
    answer.2 ≠ 0 ∧ ∃ p, Candidate f s.prev (Cgroup.sample t.sweep) answer.2 p ∧
      stall f answer.2 p = .ok stalled := by
  rcases (tick_cases ticked).2.2 with ⟨_, empty⟩ | ⟨nonzero, diffed⟩
  · rw [empty] at listed
    cases listed
  · exact ⟨nonzero, diff_mem _ _ _ _ _ diffed listed⟩

/-- The sweep the counters of the next tick are compared with, and the start of its window. -/
structure Opening where
  reading : Reading
  armedAt : ℕ

def opening (r : Reading) : Opening := ⟨r, r.started⟩

def closing (_ : Opening) (t : Tick) : Opening := ⟨t.toReading, t.rearmed⟩

def Holds (o : Opening) (s : Sampler) : Prop :=
  s.prev = Cgroup.sample o.reading.sweep ∧ s.prevAt = o.armedAt

/-- Clock readings never decrease. -/
def Ordered (r : Reading) : Prop :=
  ∀ cg res, r.sweep.Readable cg res → r.started ≤ r.readAt cg res ∧ r.readAt cg res ≤ r.finished

def InOrder (o : Opening) (t : Tick) : Prop :=
  Ordered o.reading ∧ Ordered t.toReading ∧ o.reading.finished ≤ t.started ∧ o.armedAt ≤ t.started ∧
    t.finished ≤ t.measured ∧ t.measured ≤ t.rearmed

/-- Between two reads a total advances by at most one microsecond per elapsed microsecond. -/
def Rated (o : Opening) (t : Tick) : Prop :=
  ∀ cg res before after, o.reading.sweep.Readable cg res → t.sweep.Readable cg res →
    o.reading.sweep.total cg res = some before → t.sweep.total cg res = some after →
    1000 * (after.toNat - before.toNat) ≤ t.readAt cg res - o.reading.readAt cg res

/-- What keeps every stall of a tick within its window: a counter was read no longer before
the start of the window than it is read before its end; no file became readable; and the
window fits the 64 bits it is stored in. -/
structure Covered (o : Opening) (t : Tick) : Prop where
  lag : ∀ cg res, o.reading.sweep.Readable cg res → t.sweep.Readable cg res →
    o.armedAt - o.reading.readAt cg res ≤ t.measured - t.readAt cg res
  kept : ∀ cg res, cg ∈ o.reading.sweep.cgroups → t.sweep.Readable cg res →
    o.reading.sweep.Readable cg res
  fits : (t.measured - o.armedAt) / 1000 < 2 ^ 64

/- The first window starts before the first sweep. -/
theorem first_lag (r : Reading) (t : Tick) (inOrder : InOrder (opening r) t) (cg : PathBuf)
    (res : Resource) (readable : r.sweep.Readable cg res) :
    (opening r).armedAt - r.readAt cg res ≤ t.measured - t.readAt cg res := by
  have early : r.started ≤ r.readAt cg res := (inOrder.1 cg res readable).1
  simp only [opening]
  omega

theorem delta_le {o : Opening} {t : Tick} (inOrder : InOrder o t) (rated : Rated o t)
    (covered : Covered o t) {f : Rounding} {p : Pick} {elapsedUs : UInt64}
    (candidate : Candidate f (Cgroup.sample o.reading.sweep) (Cgroup.sample t.sweep) elapsedUs p) :
    p.delta ≤ micros o.armedAt t.measured := by
  obtain ⟨sampled, readable, moved⟩ := candidate_sampled candidate
  have readableFirst := covered.kept p.cgroup p.resource sampled readable
  obtain ⟨before, hbefore⟩ := readableFirst.total
  obtain ⟨after, hafter⟩ := readable.total
  have rate := rated p.cgroup p.resource before after readableFirst readable hbefore hafter
  have lag := covered.lag p.cgroup p.resource readableFirst readable
  obtain ⟨_, early⟩ := inOrder.1 p.cgroup p.resource readableFirst
  obtain ⟨late, done⟩ := inOrder.2.1 p.cgroup p.resource readable
  obtain ⟨apart, armed, measured, _⟩ := inOrder.2.2
  rw [UInt64.le_iff_toNat_le, moved, hbefore, hafter, Option.getD_some, Option.getD_some,
    toNat_saturatingSub, micros, UInt64.toNat_ofNat_of_lt' covered.fits]
  omega

/-- No stall is longer than the window it is reported for. -/
def Within (answer : List Stall × UInt64) : Prop :=
  ∀ s ∈ answer.1, s.deltaUsec ≤ answer.2 ∧ F64.hundred.lt s.pressurePct = false

theorem tick_within {f : Rounding} {o : Opening} {s s' : Sampler} {t : Tick}
    {answer : List Stall × UInt64} (holds : Holds o s) (inOrder : InOrder o t) (rated : Rated o t)
    (covered : Covered o t) (ticked : tick f s t = .ok (s', answer)) :
    Holds (closing o t) s' ∧ Within answer := by
  obtain ⟨rfl, window, _⟩ := tick_cases ticked
  refine ⟨⟨rfl, rfl⟩, fun stalled listed => ?_⟩
  obtain ⟨nonzero, p, candidate, named⟩ := tick_mem ticked listed
  obtain ⟨_, _, rfl⟩ := stall_eq_ok.mp named
  rw [holds.2] at window
  rw [holds.1] at candidate
  rw [window] at nonzero ⊢
  have fits := delta_le inOrder rated covered candidate
  have pos : 0 < micros o.armedAt t.measured := by
    rw [UInt64.lt_iff_toNat_lt]
    exact Nat.pos_of_ne_zero fun zero => nonzero (UInt64.toNat_inj.mp zero)
  refine ⟨fits, ?_⟩
  have hundred : F64.hundred = F64.ofMagnitude false ((100 : ℚ≥0) : WithTop ℚ≥0) := rfl
  rw [pct_eq f pos, hundred, F64.lt_ofMagnitude, decide_eq_false_iff_not, not_lt]
  exact F64.share_le f (UInt64.toNat_lt _) (UInt64.le_iff_toNat_le.mp fits)

/-- In every run whose ticks are all covered, every stall of every tick fits its window. -/
theorem run_within (f : Rounding) (r : Reading) (ticks : List Tick)
    (inOrder : Run.Every closing InOrder (opening r) ticks)
    (rated : Run.Every closing Rated (opening r) ticks)
    (covered : Run.Every closing Covered (opening r) ticks) (last : Sampler)
    (answers : List (List Stall × UInt64))
    (run : Run.outputs (tick f) (new r) ticks = .ok (last, answers)) :
    ∀ answer ∈ answers, Within answer := by
  have start : Holds (opening r) (new r) := ⟨rfl, rfl⟩
  have every := (inOrder.and rated).and covered
  have preserved : ∀ o s t s' answer, Holds o s → ((InOrder o t ∧ Rated o t) ∧ Covered o t) →
      tick f s t = .ok (s', answer) → Holds (closing o t) s' ∧ Within answer :=
    fun o s t s' answer holds given ticked => tick_within holds given.1.1 given.1.2 given.2 ticked
  exact (Run.outputs_of_step preserved ticks (opening r) (new r) start every last answers run).2

def readingAt (now : ℕ) (sweep : Cgroup.Sweep) : Reading where
  started := now
  sweep := sweep
  readAt _ _ := now
  finished := now

theorem ordered_readingAt (now : ℕ) (sweep : Cgroup.Sweep) : Ordered (readingAt now sweep) :=
  fun _ _ _ => ⟨le_rfl, le_rfl⟩

theorem idle_total (cg : PathBuf) (res : Resource) : idle.total cg res = some 0 := by
  cases res <;> rfl

theorem busy_total (cg : PathBuf) (res : Resource) :
    busy.total cg res = some (if res = .io then 5000 else 0) := by
  cases res <;> rfl

theorem rated_idle {o : Opening} {t : Tick} (now : t.sweep = idle) : Rated o t := by
  intro cg res before after _ _ _ ha
  rw [now, idle_total] at ha
  cases ha
  simp

/- In five milliseconds a total may grow by five thousand. -/
theorem rated_few {o : Opening} {t : Tick} {earlier later : ℕ}
    (few : ∀ cg res b a, o.reading.sweep.total cg res = some b → t.sweep.total cg res = some a →
      a.toNat ≤ b.toNat + 5000)
    (prevAt : o.reading.readAt = fun _ _ => earlier) (readAt : t.readAt = fun _ _ => later)
    (apart : earlier + 5000000 ≤ later) : Rated o t := by
  intro cg res b a _ _ hb ha
  have grown := few cg res b a hb ha
  simp only [prevAt, readAt]
  omega

theorem rated_busy {o : Opening} {t : Tick} {earlier later : ℕ} (sweep : t.sweep = busy)
    (prevAt : o.reading.readAt = fun _ _ => earlier) (readAt : t.readAt = fun _ _ => later)
    (apart : earlier + 5000000 ≤ later) : Rated o t := by
  refine rated_few (fun cg res b a _ ha => ?_) prevAt readAt apart
  rw [sweep, busy_total] at ha
  cases ha
  split
  · exact Nat.le_add_left _ _
  · exact Nat.zero_le _

/- A tick that sees the service stalled for its whole window of five milliseconds, and one that
sees it stalled for four of the next five. -/
def fullTick : Tick where
  toReading := readingAt 5000000 busy
  measured := 5000000
  order _ := .same
  rearmed := 5000000

def busier : Cgroup.Sweep := ioSweep (some "full total=9000\n")

def nextTick : Tick where
  toReading := readingAt 10000000 busier
  measured := 10000000
  order _ := .same
  rearmed := 10000000

def fullTicks : List Tick := [fullTick, nextTick]

/-- What a tick of five milliseconds reports for the service. -/
def ioStall (d : UInt64) : Stall where
  unit := "a"
  cgroup := service.toStringLossy
  resource := .io
  kind := .full
  deltaUsec := d
  pressurePct := Attribution.pct .exact 5000 d
  peakPct := Attribution.pct .exact 5000 d

theorem ioStall_eq (d : UInt64) : stall .exact 5000 ⟨service, .io, d⟩ = .ok (ioStall d) :=
  stall_eq_ok.mpr ⟨"a", service_name, rfl⟩

theorem fullTick_tick : tick .exact (new (readingAt 0 idle)) fullTick =
    .ok (⟨Cgroup.sample busy, 5000000, 0⟩, [ioStall 5000], 5000) := by
  have stalled := diff_singleton .exact (fun _ => .same) _ _ 5000
    (busy_candidate .exact 5000 (by decide +kernel)) (ioStall_eq 5000)
  change (diff .exact (fun _ => .same) (Cgroup.sample idle) (Cgroup.sample busy) 5000 >>= _) = _
  rw [stalled]
  rfl

theorem nextTick_tick : tick .exact ⟨Cgroup.sample busy, 5000000, 0⟩ nextTick =
    .ok (⟨Cgroup.sample busier, 10000000, 0⟩, [ioStall 4000], 5000) := by
  have moved : Candidate .exact (Cgroup.sample busy) (Cgroup.sample busier) 5000 ⟨service, .io, 4000⟩ :=
    ⟨by decide, by decide +kernel⟩
  have stalled := diff_singleton .exact (fun _ => .same) _ _ 5000
    (service_candidate (fun res => by cases res <;> decide) moved) (ioStall_eq 4000)
  change (diff .exact (fun _ => .same) (Cgroup.sample busy) (Cgroup.sample busier) 5000 >>= _) = _
  rw [stalled]
  rfl

theorem fullTicks_run : Run.outputs (tick .exact) (new (readingAt 0 idle)) fullTicks =
    .ok (⟨Cgroup.sample busier, 10000000, 0⟩, [([ioStall 5000], 5000), ([ioStall 4000], 5000)]) := by
  simp only [fullTicks, Run.outputs, fullTick_tick, nextTick_tick, Outcome.ok_bind]
  rfl

theorem busier_total (cg : PathBuf) (res : Resource) :
    busier.total cg res = some (if res = .io then 9000 else 0) := by
  cases res <;> rfl

theorem busier_few (cg : PathBuf) (res : Resource) (b a : UInt64) (before : busy.total cg res = some b)
    (after : busier.total cg res = some a) : a.toNat ≤ b.toNat + 5000 := by
  rw [busy_total] at before
  rw [busier_total] at after
  cases before
  cases after
  cases res <;> decide

theorem run_within_fullTicks :
    Run.outputs (tick .exact) (new (readingAt 0 idle)) fullTicks =
        .ok (⟨Cgroup.sample busier, 10000000, 0⟩, [([ioStall 5000], 5000), ([ioStall 4000], 5000)]) ∧
      ∀ answer ∈ [([ioStall 5000], 5000), ([ioStall 4000], 5000)], Within answer := by
  have first : Covered (opening (readingAt 0 idle)) fullTick :=
    ⟨fun _ _ _ _ => Nat.zero_le _, fun _ res listed readable => ⟨listed, by cases res <;> rfl⟩, by decide⟩
  have second : Covered (closing (opening (readingAt 0 idle)) fullTick) nextTick :=
    ⟨fun _ _ _ _ => (Nat.sub_self 5000000).trans_le (Nat.zero_le _),
      fun _ res listed readable => ⟨listed, by cases res <;> rfl⟩, by decide⟩
  exact ⟨fullTicks_run, run_within .exact (readingAt 0 idle) fullTicks
    ⟨⟨ordered_readingAt _ _, ordered_readingAt _ _, by decide, by decide, by decide, by decide⟩,
      ⟨ordered_readingAt _ _, ordered_readingAt _ _, by decide, by decide, by decide, by decide⟩, trivial⟩
    ⟨rated_busy rfl rfl rfl (by decide), rated_few busier_few rfl rfl (by decide), trivial⟩
    ⟨first, second, trivial⟩ _ _ fullTicks_run⟩

/- A quiet tick whose diff ends eight milliseconds after its sweep, and a tick that sees a
stall of five milliseconds in a window of one. -/
def slowTick : Tick where
  toReading := readingAt 1000000 idle
  measured := 1000000
  order _ := .same
  rearmed := 9000000

def lateTick : Tick where
  toReading := readingAt 10000000 busy
  measured := 10000000
  order _ := .same
  rearmed := 10000000

theorem lateTick_run (f : Rounding) : ∃ last s,
    Run.outputs (tick f) (new (readingAt 0 idle)) [slowTick, lateTick] =
      .ok (last, [([], 1000), ([s], 1000)]) ∧ s.deltaUsec = 5000 := by
  have quiet : diff f (fun _ => .same) (Cgroup.sample idle) (Cgroup.sample idle) 1000 = .ok [] :=
    diff_nil f _ _ _ 1000 (idle_candidate f 1000)
  obtain ⟨s, named, long⟩ : ∃ s, stall f 1000 ⟨service, .io, 5000⟩ = .ok s ∧ s.deltaUsec = 5000 :=
    ⟨_, stall_eq_ok.mpr ⟨"a", service_name, rfl⟩, rfl⟩
  have stalled := diff_singleton f (fun _ => .same) _ _ 1000 (busy_candidate f 1000 (busy_above f)) named
  refine ⟨⟨Cgroup.sample busy, 10000000, 0⟩, s, ?_, long⟩
  change ((diff f (fun _ => .same) (Cgroup.sample idle) (Cgroup.sample idle) 1000 >>= _) >>= _) = _
  rw [quiet, Outcome.ok_bind]
  change (((diff f (fun _ => .same) (Cgroup.sample idle) (Cgroup.sample busy) 1000 >>= _) >>= _) >>= _) = _
  rw [stalled]
  rfl

theorem not_run_within :
    ¬ ∃ f : Rounding, ∀ (r : Reading) (ticks : List Tick),
      Run.Every closing InOrder (opening r) ticks → Run.Every closing Rated (opening r) ticks →
      ∀ last answers, Run.outputs (tick f) (new r) ticks = .ok (last, answers) →
        ∀ answer ∈ answers, ∀ s ∈ answer.1, s.deltaUsec ≤ answer.2 := by
  rintro ⟨f, always⟩
  obtain ⟨last, s, run, long⟩ := lateTick_run f
  have inOrder : Run.Every closing InOrder (opening (readingAt 0 idle)) [slowTick, lateTick] :=
    ⟨⟨ordered_readingAt _ _, ordered_readingAt _ _, by decide, by decide, by decide, by decide⟩,
      ⟨ordered_readingAt _ _, ordered_readingAt _ _, by decide, by decide, by decide, by decide⟩,
      trivial⟩
  have rated : Run.Every closing Rated (opening (readingAt 0 idle)) [slowTick, lateTick] :=
    ⟨rated_idle rfl, rated_busy rfl rfl rfl (by decide), trivial⟩
  have fits := always _ _ inOrder rated _ _ run ([s], 1000) (by simp) s (by simp)
  rw [long] at fits
  exact absurd fits (show ¬ (5000 : UInt64) ≤ 1000 by decide)

end Sampler

end Stallwatch
