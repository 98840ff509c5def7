import Stallwatch.Base.Recent
import Stallwatch.Cli
import Stallwatch.Config
import Stallwatch.Ring
import Stallwatch.Sampler.Pacing

/-! The daemon where it polls: it sleeps, sweeps, records what it has found and works out how
long to sleep next. How much it keeps is set when it starts. -/
namespace Stallwatch.Polling

/-- The number behind a flag, where there is one. -/
def flag (args : List String) (name : String) (default : UInt64) : UInt64 :=
  (Cli.num args name).elim default UInt64.ofNat

/-- A flag counts more than any file. -/
def historySecs (args : List String) (cfg : Config) : UInt64 :=
  max (flag args "--history" cfg.historySecs.value) 10

/-- One frame for each tick. The product is that of the release build, which wraps. -/
def capacity (args : List String) (cfg : Config) : ℕ :=
  (max (historySecs args cfg * 1000 / tickMs (flag args "--tick" 1000)) 1).toNat

/-- One turn of the loop: what the sweep finds, the time of day for its frame, the instant at
which the frame is recorded, and whether the history can be locked. -/
structure Turn where
  tick : Tick
  atUnix : UInt64
  recordedAt : ℕ
  locked : Bool

structure Loop where
  sampler : Sampler
  interval : Duration
  now : ℕ
  ring : Ring

/-- A frame and the instant at which it was recorded. -/
abbrev Record : Type := ℕ × Frame

/-- One turn: a sleep of the interval at least, a sweep, a frame, and the next interval. -/
inductive Step (f : Rounding) (duty : F64) (tick : UInt64) : Loop → Turn → List Record → Loop → Prop
  | recorded {l : Loop} {t : Turn} {s : Sampler} {stalls : List Stall} {window : UInt64} {i : Duration}
      (slept : l.now + l.interval.asNanos ≤ t.recordedAt)
      (ticked : Sampler.tick f l.sampler t.tick = .ok (s, stalls, window)) (locked : t.locked = true)
      (paced : s.recommendedInterval f duty (floor tick) ceil = .ok i) :
      Step f duty tick l t [(t.recordedAt, ⟨t.atUnix, window, stalls⟩)]
        ⟨s, i, t.recordedAt, l.ring.push ⟨t.atUnix, window, stalls⟩⟩
  | lost {l : Loop} {t : Turn} {s : Sampler} {stalls : List Stall} {window : UInt64} {i : Duration}
      (slept : l.now + l.interval.asNanos ≤ t.recordedAt)
      (ticked : Sampler.tick f l.sampler t.tick = .ok (s, stalls, window)) (locked : t.locked = false)
      (paced : s.recommendedInterval f duty (floor tick) ceil = .ok i) :
      Step f duty tick l t [] ⟨s, i, t.recordedAt, l.ring⟩

/-- The first interval is the shortest there is. -/
def initial (args : List String) (cfg : Config) (s : Sampler) (now : ℕ) : Loop :=
  ⟨s, floor (flag args "--tick" 1000), now, .new (capacity args cfg)⟩

inductive Run (f : Rounding) (duty : F64) (args : List String) (cfg : Config) :
    List Turn → List Record → Loop → Prop
  | start (s : Sampler) (now : ℕ) : Run f duty args cfg [] [] (initial args cfg s now)
  | step {ts : List Turn} {rs rs' : List Record} {l l' : Loop} {t : Turn} (run : Run f duty args cfg ts rs l)
      (step : Step f duty (flag args "--tick" 1000) l t rs' l') :
      Run f duty args cfg (ts ++ [t]) (rs ++ rs') l'

section Capacity

variable (args : List String) (cfg : Config)

theorem tickMs_pos (tick : UInt64) : 0 < (tickMs tick).toNat := by
  rw [tickMs, Counter.toNat_max]
  exact Nat.lt_of_lt_of_le (by decide) (le_max_right _ _)

/- Only the last part of a tick is without a frame. -/
theorem capacity_covers (small : (historySecs args cfg).toNat * 1000 < 2 ^ 64) :
    (historySecs args cfg).toNat * 1000 <
      (capacity args cfg + 1) * (tickMs (flag args "--tick" 1000)).toNat := by
  have product : (historySecs args cfg * 1000).toNat = (historySecs args cfg).toNat * 1000 :=
    (UInt64.toNat_mul _ _).trans (Nat.mod_eq_of_lt small)
  have ticks := Nat.lt_mul_div_succ ((historySecs args cfg).toNat * 1000)
    (tickMs_pos (flag args "--tick" 1000))
  rw [capacity, UInt64.toNat_max, UInt64.toNat_div, product]
  refine ticks.trans_le ?_
  rw [Nat.mul_comm]
  exact Nat.mul_le_mul_right _ (Nat.succ_le_succ (le_max_left _ _))

end Capacity

section Kept

variable {args : List String} {cfg : Config} {dutyFlag : UInt64} {d : F64} {ts : List Turn}
    {rs : List Record}
  {l : Loop}

/-- The history holds the newest of what was recorded, and that came one gap after the other. -/
structure Inv (gap capacity : ℕ) (rs : List Record) (l : Loop) : Prop where
  ring : l.ring = (rs.map Prod.snd).foldl Ring.push (.new capacity)
  spaced : Recent.Spaced Prod.fst gap rs
  interval : gap ≤ l.interval.asNanos
  past : ∀ r ∈ rs, r.1 ≤ l.now

theorem floor_le_interval (given : duty .exact dutyFlag = .ok d) {s : Sampler} {tick : UInt64}
    {i : Duration}
    (paced : s.recommendedInterval .exact d (floor tick) ceil = .ok i) :
    (floor tick).asNanos ≤ i.asNanos := by
  obtain ⟨q, computed, least, most⟩ := duty_exact dutyFlag
  cases given.symm.trans computed
  have bounds : (floor tick).asNanos ≤ ceil.asNanos := by
    rw [Sampler.recommendedInterval_eq s least most] at paced
    split at paced
    · rename_i bounds
      exact Duration.seconds_le.mp bounds
    · cases paced
  obtain ⟨_, returned, nanos⟩ := s.recommendedInterval_ok least most bounds
  cases paced.symm.trans returned
  rw [nanos]
  exact s.floor_le_wait

theorem step_inv (given : duty .exact dutyFlag = .ok d) {tick : UInt64} {capacity : ℕ} {t : Turn}
    {rs' : List Record} {l' : Loop} (inv : Inv (floor tick).asNanos capacity rs l)
    (step : Step .exact d tick l t rs' l') :
    Inv (floor tick).asNanos capacity (rs ++ rs') l' := by
  cases step with
  | @recorded s stalls window i slept ticked locked paced =>
    have later : ∀ r ∈ rs, r.1 + (floor tick).asNanos ≤ t.recordedAt := fun r member =>
      (Nat.add_le_add (inv.past r member) inv.interval).trans slept
    refine ⟨?_, inv.spaced.concat fun r last => later r (List.mem_of_getLast? last),
      floor_le_interval given paced, ?_⟩
    · rw [List.map_append, List.foldl_append, ← inv.ring]
      rfl
    · refine List.forall_mem_append.mpr ⟨fun r member => ?_, List.forall_mem_singleton.mpr le_rfl⟩
      exact (Nat.le_add_right _ _).trans (later r member)
  | @lost s stalls window i slept ticked locked paced =>
    rw [List.append_nil]
    exact ⟨inv.ring, inv.spaced, floor_le_interval given paced, fun r member =>
      (inv.past r member).trans ((Nat.le_add_right _ _).trans slept)⟩

theorem run_inv (given : duty .exact dutyFlag = .ok d) (run : Run .exact d args cfg ts rs l) :
    Inv (floor (flag args "--tick" 1000)).asNanos (capacity args cfg) rs l := by
  induction run with
  | start s now => exact ⟨rfl, List.isChain_nil, le_rfl, List.forall_mem_nil _⟩
  | step run step ih => exact step_inv given ih step

/-- However long the daemon polls, its history holds the newest frames, as many as fit. What it no
longer holds is older than the seconds it was asked to keep, but for one tick, unless there are so
many that their milliseconds wrap. -/
theorem history_kept (given : duty .exact dutyFlag = .ok d)
    (run : Run .exact d args cfg ts rs l) : ∃ old recent, rs = old ++ recent ∧
      l.ring.frames = recent.map Prod.snd ∧ recent.length = min rs.length (capacity args cfg) ∧
      ((historySecs args cfg).toNat * 1000 < 2 ^ 64 →
        ∀ r ∈ old, r.1 + (historySecs args cfg).toNat * 10 ^ 9 <
          l.now + (floor (flag args "--tick" 1000)).asNanos) := by
  have inv := run_inv given run
  have room : max (capacity args cfg) 1 = capacity args cfg := by
    rw [capacity, UInt64.toNat_max]
    exact max_eq_left (le_max_right _ _)
  refine ⟨rs.take (rs.length - capacity args cfg), rs.drop (rs.length - capacity args cfg),
    (List.take_append_drop _ _).symm, ?_, ?_, fun small r gone => ?_⟩
  · rw [inv.ring, Ring.frames_push, List.length_map, room, List.map_drop]
  · rw [List.length_drop]
    omega
  · have covers := capacity_covers args cfg small
    obtain ⟨last, newest, old⟩ := inv.spaced.dropped gone
    have seen := inv.past last (List.mem_of_getLast? newest)
    have nanos : (floor (flag args "--tick" 1000)).asNanos =
        1000000 * (tickMs (flag args "--tick" 1000)).toNat := Duration.asNanos_fromMillis _
    rw [nanos, Nat.mul_left_comm] at old
    rw [Nat.succ_mul] at covers
    rw [nanos]
    omega

end Kept

/-- A history that holds one frame. -/
def slowly : List String := ["--tick", "10000", "--history", "10"]

/- No cgroup is there. -/
def quietTick (started : ℕ) : Tick where
  started
  sweep := ⟨[], fun _ _ => none⟩
  readAt _ _ := started
  finished := started + 10 ^ 7
  measured := started
  order _ := .same
  rearmed := started

def quietTurn (started : ℕ) (locked : Bool) : Turn :=
  ⟨quietTick started, UInt64.ofNat (started / 10 ^ 9), started + 10 ^ 7, locked⟩

/-- The second of the frames is lost. -/
def quietTurns : List Turn :=
  [quietTurn (10 ^ 10) true, quietTurn (2 * 10 ^ 10) false, quietTurn (3 * 10 ^ 10) true]

theorem quiet_paced (rearmed : ℕ) : ∃ i, Sampler.recommendedInterval .exact ⟨∅, rearmed, 10 ^ 7⟩
    (.finite false (2 / (100 : ℕ))) (floor 10000) ceil = .ok i ∧ i.asNanos = 10 ^ 10 := by
  have least : (1 : ℚ≥0) / (1000 : ℕ) ≤ 2 / (100 : ℕ) := by decide +kernel
  have most : (2 : ℚ≥0) / (100 : ℕ) ≤ 1 := by decide +kernel
  obtain ⟨i, paced, nanos⟩ := Sampler.recommendedInterval_ok ⟨∅, rearmed, 10 ^ 7⟩ least most
    ((floor_le_ceil 10000).mpr (by decide))
  have waits : nearestEven (Sampler.wait ⟨∅, 0, 10 ^ 7⟩ (2 / (100 : ℕ)) (floor 10000) ceil *
      (10 ^ 9 : ℕ)) = 10 ^ 10 := by decide +kernel
  exact ⟨i, paced, nanos.trans waits⟩

theorem quietTurns_run : ∃ rs l,
    Run .exact (.finite false (2 / (100 : ℕ))) slowly .default quietTurns rs l ∧ rs.length = 2 ∧
      l.now = 3 * 10 ^ 10 + 10 ^ 7 := by
  have ticks : flag slowly "--tick" 1000 = 10000 := by decide
  have first : Sampler.tick .exact ⟨∅, 0, 0⟩ (quietTick (10 ^ 10)) =
      .ok (⟨∅, 10 ^ 10, 10 ^ 7⟩, [], 10 ^ 7) := by rfl
  have second : Sampler.tick .exact ⟨∅, 10 ^ 10, 10 ^ 7⟩ (quietTick (2 * 10 ^ 10)) =
      .ok (⟨∅, 2 * 10 ^ 10, 10 ^ 7⟩, [], 10 ^ 7) := by rfl
  have third : Sampler.tick .exact ⟨∅, 2 * 10 ^ 10, 10 ^ 7⟩ (quietTick (3 * 10 ^ 10)) =
      .ok (⟨∅, 3 * 10 ^ 10, 10 ^ 7⟩, [], 10 ^ 7) := by rfl
  obtain ⟨_, paced, waits⟩ := quiet_paced (10 ^ 10)
  obtain ⟨_, paced', waits'⟩ := quiet_paced (2 * 10 ^ 10)
  obtain ⟨_, paced'', _⟩ := quiet_paced (3 * 10 ^ 10)
  rw [← ticks] at paced paced' paced''
  have slept : 0 + (floor (flag slowly "--tick" 1000)).asNanos ≤ 10 ^ 10 + 10 ^ 7 := by decide
  have recorded := (@Run.start .exact _ slowly .default ⟨∅, 0, 0⟩ 0).step
    (.recorded (t := quietTurn (10 ^ 10) true) slept first rfl paced)
  have lost := recorded.step (.lost (t := quietTurn (2 * 10 ^ 10) false)
    (by simp [waits, quietTurn]) second rfl paced')
  have again := lost.step (.recorded (t := quietTurn (3 * 10 ^ 10) true)
    (by simp [waits', quietTurn]) third rfl paced'')
  exact ⟨_, _, again, rfl, rfl⟩

theorem history_kept_quiet : ∃ rs l,
    Run .exact (.finite false (2 / (100 : ℕ))) slowly .default quietTurns rs l ∧ rs.length = 2 ∧
    ∃ old recent, rs = old ++ recent ∧ l.ring.frames = recent.map Prod.snd ∧
      recent.length = min rs.length 1 ∧
      ∀ r ∈ old, r.1 + 10 * 10 ^ 9 < 3 * 10 ^ 10 + 10 ^ 7 + 10 ^ 10 := by
  obtain ⟨rs, l, run, two, now⟩ := quietTurns_run
  have given : duty .exact 2 = .ok (.finite false (2 / (100 : ℕ))) := by decide +kernel
  have keeps : historySecs slowly .default = 10 := by decide
  have fits : capacity slowly .default = 1 := by decide
  have waits : (floor (flag slowly "--tick" 1000)).asNanos = 10 ^ 10 := by decide
  obtain ⟨old, recent, split, newest, most, aged⟩ := history_kept given run
  rw [fits] at most
  refine ⟨rs, l, run, two, old, recent, split, newest, most, ?_⟩
  have ages := aged (by rw [keeps]; decide)
  rwa [keeps, now, waits] at ages

end Stallwatch.Polling
