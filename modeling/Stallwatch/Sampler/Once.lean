import Stallwatch.Base.Telescope
import Stallwatch.Sampler

/-! No stall time is counted in two windows. A tick compares with the sweep of the tick
before it, whatever that one reported. -/
namespace Stallwatch.Sampler

open Attribution

/-- The deltas that a tick computes; a window without length has none. -/
def computed (res : Resource) (s : Sampler) (t : Tick) : HashMap PathBuf UInt64 :=
  if micros s.prevAt t.measured = 0 then ∅ else deltas res s.prev (Cgroup.sample t.sweep)

/-- What a tick counts for one cgroup. -/
def share (res : Resource) (cg : PathBuf) (s : Sampler) (t : Tick) : ℕ :=
  ((computed res s t).lookup cg).elim 0 UInt64.toNat

/-- A tick that answers with what it counts. -/
def tally (f : Rounding) (res : Resource) (cg : PathBuf) (s : Sampler) (t : Tick) :
    Outcome Empty (Sampler × ℕ) := do
  let (next, _) ← tick f s t
  return (next, share res cg s t)

/-- The total of a cgroup in a sweep. -/
def recorded (res : Resource) (cg : PathBuf) (sweep : HashMap PathBuf Snapshot) : Option ℕ :=
  (sweep.lookup cg).map fun s => ((s.get res).totalFor res.primaryKind).toNat

/-- All sweeps of a run. -/
def sweeps (r : Reading) (ticks : List Tick) : List (HashMap PathBuf Snapshot) :=
  Cgroup.sample r.sweep :: ticks.map fun t => Cgroup.sample t.sweep

/-- Every window of a run is at least a microsecond long. -/
def Measured (r : Reading) (ticks : List Tick) : Prop :=
  Run.Every (fun _ t => t.rearmed) (fun armedAt t => micros armedAt t.measured ≠ 0) r.started ticks

/- Every stall that is reported is what its tick counts for the cgroup. -/
theorem reported_share {f : Rounding} {s next : Sampler} {t : Tick} {answer : List Stall × UInt64}
    (ticked : tick f s t = .ok (next, answer)) {stalled : Stall} (listed : stalled ∈ answer.1) :
    ∃ cg : PathBuf, stalled.cgroup = cg.toStringLossy ∧
      stalled.deltaUsec.toNat = share stalled.resource cg s t := by
  obtain ⟨_, window, _⟩ := tick_cases ticked
  obtain ⟨nonzero, p, candidate, named⟩ := tick_mem ticked listed
  obtain ⟨_, _, rfl⟩ := stall_eq_ok.mp named
  rw [window] at nonzero
  refine ⟨p.cgroup, rfl, ?_⟩
  rw [share, computed, if_neg nonzero, candidate.moved]
  rfl

section Shares

variable {res : Resource} {cg : PathBuf}

theorem share_eq (s : Sampler) (t : Tick) : share res cg s t =
    if micros s.prevAt t.measured ≠ 0 then
      Telescope.gain (recorded res cg s.prev) (recorded res cg (Cgroup.sample t.sweep))
    else 0 := by
  rw [share, computed]
  by_cases zero : micros s.prevAt t.measured = 0
  · rw [if_pos zero, if_neg (not_not.mpr zero)]
    rfl
  · rw [if_neg zero, if_pos zero, lookup_deltas, recorded, recorded]
    cases (Cgroup.sample t.sweep).lookup cg with
    | none => simp
    | some after =>
      cases found : s.prev.lookup cg with
      | none => simp [deltaOf, found]
      | some before => simp [deltaOf, found, delta, Counter.toNat_saturatingSub, Telescope.gain]

/- A cgroup that is missing from either sweep counts for nothing. -/
theorem share_missing {s : Sampler} {t : Tick} (missing : cg ∉ s.prev ∨ cg ∉ Cgroup.sample t.sweep) :
    share res cg s t = 0 := by
  have absent : ∀ {sweep : HashMap PathBuf Snapshot}, cg ∉ sweep → recorded res cg sweep = none := by
    intro sweep out
    rw [recorded, AList.lookup_eq_none.mpr out]
    rfl
  rw [share_eq]
  rcases missing with before | now
  · simp [absent before]
  · simp [absent now]

/-- What the ticks of a run measure and read, from the start of its first window. -/
def steps (res : Resource) (cg : PathBuf) : ℕ → List Tick → List (Bool × Option ℕ)
  | _, [] => []
  | armedAt, t :: ts =>
    (decide (micros armedAt t.measured ≠ 0), recorded res cg (Cgroup.sample t.sweep)) ::
      steps res cg t.rearmed ts

theorem run_shares {f : Rounding} {s last : Sampler} {ticks : List Tick} {shares : List ℕ}
    (run : Run.outputs (tally f res cg) s ticks = .ok (last, shares)) :
    shares = Telescope.gains (recorded res cg s.prev) (steps res cg s.prevAt ticks) := by
  induction ticks generalizing s shares with
  | nil =>
    cases run
    rfl
  | cons t ts ih =>
    obtain ⟨⟨next, counted⟩, stepped, rest⟩ := Outcome.bind_eq_ok.mp run
    obtain ⟨⟨final, others⟩, ran, done⟩ := Outcome.bind_eq_ok.mp rest
    cases done
    obtain ⟨⟨next', answer⟩, ticked, here⟩ := Outcome.bind_eq_ok.mp stepped
    cases here
    obtain ⟨rfl, _⟩ := tick_cases ticked
    rw [steps, Telescope.gains, ih ran, share_eq]
    simp only [decide_eq_true_eq]

theorem filterMap_steps (armedAt : ℕ) (ticks : List Tick) :
    (steps res cg armedAt ticks).filterMap Prod.snd =
      (ticks.map fun t => Cgroup.sample t.sweep).filterMap (recorded res cg) := by
  induction ticks generalizing armedAt with
  | nil => rfl
  | cons t ts ih =>
    rw [steps, List.map_cons, List.filterMap_cons, List.filterMap_cons, ih]

theorem readings_steps (r : Reading) (ticks : List Tick) :
    Telescope.readings (recorded res cg (new r).prev) (steps res cg (new r).prevAt ticks) =
      (sweeps r ticks).filterMap (recorded res cg) := by
  have first : (new r).prev = Cgroup.sample r.sweep := rfl
  rw [Telescope.readings, first, filterMap_steps, sweeps, List.filterMap_cons]
  cases recorded res cg (Cgroup.sample r.sweep) with
  | none => rfl
  | some n => rfl

theorem complete_steps {ticks : List Tick} (present : ∀ t ∈ ticks, cg ∈ Cgroup.sample t.sweep)
    {armedAt : ℕ}
    (measured : Run.Every (fun _ t => t.rearmed) (fun armedAt t => micros armedAt t.measured ≠ 0) armedAt
      ticks) : ∀ step ∈ steps res cg armedAt ticks, step.1 = true ∧ step.2.isSome = true := by
  induction ticks generalizing armedAt with
  | nil => simp [steps]
  | cons t ts ih =>
    obtain ⟨here, later⟩ := List.forall_mem_cons.mp present
    refine List.forall_mem_cons.mpr ⟨⟨decide_eq_true measured.1, ?_⟩, ih later measured.2⟩
    rw [recorded, Option.isSome_map]
    exact AList.lookup_isSome.mpr here

end Shares

/-- What a run counts for a cgroup is no more than the growth of its total over the run, and
all of it where the cgroup is in every sweep and every window has a length. A tick that does
not see it before and after counts nothing. -/
theorem counted_once (f : Rounding) (r : Reading) (ticks : List Tick) (cg : PathBuf) (res : Resource)
    (last : Sampler) (shares : List ℕ)
    (run : Run.outputs (tally f res cg) (new r) ticks = .ok (last, shares))
    (ascending : ((sweeps r ticks).filterMap (recorded res cg)).Pairwise (· ≤ ·)) :
    shares.sum ≤ Telescope.span ((sweeps r ticks).filterMap (recorded res cg)) ∧
      ((∀ sweep ∈ sweeps r ticks, cg ∈ sweep) → Measured r ticks →
        shares.sum = Telescope.span ((sweeps r ticks).filterMap (recorded res cg))) ∧
      ∀ s t, cg ∉ s.prev ∨ cg ∉ Cgroup.sample t.sweep → share res cg s t = 0 := by
  rw [run_shares run]
  rw [← readings_steps] at ascending ⊢
  refine ⟨Telescope.sum_gains_le _ _ ascending, fun present measured => ?_, fun s t => share_missing⟩
  obtain ⟨here, later⟩ := List.forall_mem_cons.mp present
  obtain ⟨a, first⟩ : ∃ a, recorded res cg (new r).prev = some a := by
    rw [← Option.isSome_iff_exists, recorded, Option.isSome_map]
    exact AList.lookup_isSome.mpr here
  rw [first] at ascending ⊢
  refine Telescope.sum_gains (complete_steps (fun t listed => ?_) measured) ascending
  exact later _ (List.mem_map_of_mem listed)

/- A run of ticks is a run of what they count. -/
theorem tally_run {f : Rounding} {s last : Sampler} {ticks : List Tick}
    {answers : List (List Stall × UInt64)} (run : Run.outputs (tick f) s ticks = .ok (last, answers))
    (res : Resource) (cg : PathBuf) :
    ∃ shares, Run.outputs (tally f res cg) s ticks = .ok (last, shares) := by
  induction ticks generalizing s answers with
  | nil =>
    cases run
    exact ⟨[], rfl⟩
  | cons t ts ih =>
    obtain ⟨⟨next, answer⟩, ticked, rest⟩ := Outcome.bind_eq_ok.mp run
    obtain ⟨⟨final, others⟩, ran, done⟩ := Outcome.bind_eq_ok.mp rest
    cases done
    obtain ⟨shares, counted⟩ := ih ran
    refine ⟨share res cg s t :: shares, ?_⟩
    rw [Run.outputs]
    simp only [tally, ticked, Outcome.ok_bind, Outcome.pure_eq] at counted ⊢
    rw [counted]
    rfl

theorem counted_once_fullTicks : ∃ last shares,
    Run.outputs (tally .exact .io service) (new (readingAt 0 idle)) fullTicks = .ok (last, shares) ∧
      shares.sum = 9000 := by
  obtain ⟨shares, tallied⟩ := tally_run fullTicks_run .io service
  have ascending : ((sweeps (readingAt 0 idle) fullTicks).filterMap (recorded .io service)).Pairwise
      (· ≤ ·) := by decide +kernel
  have all := (counted_once .exact (readingAt 0 idle) fullTicks service .io _ _ tallied ascending).2.1
    (by decide +kernel) ⟨by decide, by decide, trivial⟩
  refine ⟨_, shares, tallied, all.trans ?_⟩
  decide +kernel

/- Half a microsecond after the first sweep. -/
def hastyTick : Tick where
  toReading := readingAt 500 busy
  measured := 500
  order _ := .same
  rearmed := 500

theorem not_counted_once :
    ¬ ∀ (f : Rounding) (r : Reading) (ticks : List Tick) (cg : PathBuf) (res : Resource)
      (last : Sampler) (shares : List ℕ),
      Run.outputs (tally f res cg) (new r) ticks = .ok (last, shares) →
      ((sweeps r ticks).filterMap (recorded res cg)).Pairwise (· ≤ ·) →
      (∀ sweep ∈ sweeps r ticks, cg ∈ sweep) →
      shares.sum = Telescope.span ((sweeps r ticks).filterMap (recorded res cg)) := by
  intro all
  have ticked : tick .exact (new (readingAt 0 idle)) hastyTick =
      .ok (⟨Cgroup.sample busy, 500, 0⟩, [], 0) := by
    have short : micros 0 500 = 0 := by decide
    change ((if micros 0 500 = 0 then _ else _ :) >>= _) = _
    rw [if_pos short]
    rfl
  have run : Run.outputs (tick .exact) (new (readingAt 0 idle)) [hastyTick] =
      .ok (⟨Cgroup.sample busy, 500, 0⟩, [([], 0)]) := by
    rw [Run.outputs, ticked]
    rfl
  obtain ⟨shares, tallied⟩ := tally_run run .io service
  have counted := all .exact (readingAt 0 idle) [hastyTick] service .io _ _ tallied
    (by decide +kernel) (by decide +kernel)
  rw [run_shares tallied] at counted
  have lost : (Telescope.gains (recorded .io service (new (readingAt 0 idle)).prev)
      (steps .io service (new (readingAt 0 idle)).prevAt [hastyTick])).sum ≠
      Telescope.span ((sweeps (readingAt 0 idle) [hastyTick]).filterMap (recorded .io service)) := by
    decide +kernel
  exact lost counted

end Stallwatch.Sampler
