import Stallwatch.Daemon

/-! What the threads do together: the lock is held by whoever is at work on the history, and
every incident goes the same way, one after the other. -/
namespace Stallwatch.Daemon

open Rules

def Loop.holds : Loop → Bool
  | .locked _ | .evicted _ => true
  | _ => false

def Query.reads : Query → Bool
  | .reading _ _ _ => true
  | _ => false

/-- The thread that holds the lock is the one that is at work on the history. -/
structure Guarded (s : State) : Prop where
  capture : s.loop.holds = true ↔ s.holder = some .capture
  query : ∀ q, (s.query q).reads = true ↔ s.holder = some (.query q)
  whole : s.holder = some .capture → s.poisoned = false
  seen : ∀ q ask nowUnix seen, s.query q = .reading ask nowUnix seen → seen <+: s.ring.frames

section Guarded

variable {s : State}

@[simp] theorem setQuery_self (s : State) (q : ℕ) (stage : Query) :
    (s.setQuery q stage).query q = stage :=
  Function.update_self _ _ _

theorem setQuery_other (s : State) {q p : ℕ} (other : p ≠ q) (stage : Query) :
    (s.setQuery q stage).query p = s.query p := Function.update_of_ne other _ _

/- While nobody reads, it does not matter what the ring holds. -/
theorem Guarded.idle (guarded : Guarded s) (free : ∀ q, s.holder ≠ some (.query q)) (q : ℕ) :
    (s.query q).reads = false :=
  Bool.eq_false_iff.mpr fun reads => free q ((guarded.query q).mp reads)

theorem reading_reads {q : ℕ} {ask : Ask} {nowUnix : UInt64} {seen : List Frame}
    (stage : s.query q = .reading ask nowUnix seen) : (s.query q).reads = true := by
  rw [stage]
  rfl

theorem Guarded.setLoop (guarded : Guarded s) (before : s.loop.holds = false) {loop : Loop}
    (after : loop.holds = false) (notifier : Notifier) :
    Guarded { s with loop := loop, notifier := notifier } := by
  refine ⟨?_, guarded.query, guarded.whole, guarded.seen⟩
  rw [← guarded.capture, before]
  change loop.holds = true ↔ _
  rw [after]

theorem Guarded.setQuery (guarded : Guarded s) {q : ℕ} (before : (s.query q).reads = false)
    {stage : Query}
    (after : stage.reads = false) : Guarded (s.setQuery q stage) := by
  have other : ∀ p ask nowUnix seen, (s.setQuery q stage).query p = .reading ask nowUnix seen →
      s.query p = .reading ask nowUnix seen := by
    intro p ask nowUnix seen here
    by_cases same : p = q
    · rw [same, setQuery_self] at here
      rw [here] at after
      cases after
    · rwa [setQuery_other s same] at here
  refine ⟨guarded.capture, fun p => ?_, guarded.whole, fun p ask nowUnix seen here =>
    guarded.seen p ask nowUnix seen (other p ask nowUnix seen here)⟩
  by_cases same : p = q
  · have holder := guarded.query q
    rw [before] at holder
    rw [same, setQuery_self, after]
    exact holder
  · rw [setQuery_other s same]
    exact guarded.query p

/- A query that goes on to read, or that has read, is the holder before and after. -/
theorem Guarded.setReader (guarded : Guarded s) {q : ℕ} (free : ∀ p, p ≠ q → s.holder ≠ some (.query p))
    (vacant : s.holder ≠ some .capture) {stage : Query} {holder : Option Holder} (poisoned : Bool)
    (reads : stage.reads = true ↔ holder = some (.query q)) (rest : ∀ h ∈ holder, h = .query q)
    (seen : ∀ ask nowUnix seen, stage = .reading ask nowUnix seen → seen <+: s.ring.frames) :
    Guarded { s.setQuery q stage with holder := holder, poisoned := poisoned } := by
  have away : holder ≠ some .capture := fun here => nomatch rest .capture here
  have others : ∀ p, p ≠ q → (s.query p).reads = false := fun p other =>
    Bool.eq_false_iff.mpr fun reads => free p other ((guarded.query p).mp reads)
  refine ⟨?_, fun p => ?_, fun here => absurd here away, fun p ask nowUnix front here => ?_⟩
  · have loop : s.loop.holds = false := Bool.eq_false_iff.mpr fun holds =>
      vacant (guarded.capture.mp holds)
    change s.loop.holds = true ↔ holder = _
    simp [loop, away]
  · change ((s.setQuery q stage).query p).reads = true ↔ holder = some (.query p)
    by_cases same : p = q
    · rw [same, setQuery_self]
      exact reads
    · rw [setQuery_other s same, others p same]
      refine ⟨nofun, fun here => absurd ?_ same⟩
      cases rest _ here
      rfl
  · change (s.setQuery q stage).query p = _ at here
    by_cases same : p = q
    · rw [same, setQuery_self] at here
      exact seen ask nowUnix front here
    · rw [setQuery_other s same] at here
      exact guarded.seen p ask nowUnix front here

/- The capture thread changes the ring, and nobody reads. -/
theorem Guarded.setRing (guarded : Guarded s) (held : s.holder = some .capture) (ring : Ring)
    {loop : Loop}
    {holder : Option Holder} (capture : loop.holds = true ↔ holder = some .capture)
    (vacant : ∀ q, holder ≠ some (.query q)) :
    Guarded { s with loop := loop, ring := ring, holder := holder } := by
  have idle := guarded.idle fun q here => nomatch held.symm.trans here
  refine ⟨capture, fun q => ?_, fun _ => guarded.whole held, fun q ask nowUnix seen here => ?_⟩
  · change (s.query q).reads = true ↔ _
    rw [idle q]
    exact ⟨nofun, fun here => absurd here (vacant q)⟩
  · have reads := reading_reads here
    change (s.query q).reads = true at reads
    rw [idle q] at reads
    cases reads

end Guarded

variable {f : Rounding} {cfg : Settings} {s s' : State} {e : Event}

theorem step_guarded (step : Step f cfg s e s') (guarded : Guarded s) : Guarded s' := by
  cases step with
  | captured idle => exact guarded.setLoop (by rw [idle]; rfl) rfl s.notifier
  | appended captured => exact guarded.setLoop (by rw [captured]; rfl) rfl s.notifier
  | fired appended => exact guarded.setLoop (by rw [appended]; rfl) rfl s.notifier
  | considered fired => exact guarded.setLoop (by rw [fired]; rfl) rfl _
  | locked considered free whole =>
    have idle := guarded.idle fun q here => nomatch free.symm.trans here
    refine ⟨⟨fun _ => rfl, fun _ => rfl⟩, fun q => ?_, fun _ => whole, guarded.seen⟩
    change (s.query q).reads = true ↔ _
    rw [idle q]
    exact ⟨nofun, fun here => nomatch here⟩
  | skipped considered => exact guarded.setLoop (by rw [considered]; rfl) rfl s.notifier
  | evicted locked =>
    have held := guarded.capture.mp (by rw [locked]; rfl)
    exact guarded.setRing held (evict s.ring) ⟨fun _ => held, fun _ => rfl⟩ fun q here =>
      nomatch held.symm.trans here
  | pushed evicted =>
    have held := guarded.capture.mp (by rw [evicted]; rfl)
    exact guarded.setRing held _ ⟨nofun, nofun⟩ nofun
  | arrived absent => exact guarded.setQuery (by rw [absent]; rfl) rfl
  | aside absent => exact guarded.setQuery (by rw [absent]; rfl) rfl
  | acquired waiting free whole =>
    refine guarded.setReader (fun p _ here => nomatch free.symm.trans here)
      (fun here => nomatch free.symm.trans here)
      s.poisoned ⟨fun _ => rfl, fun _ => rfl⟩ (by rintro h ⟨⟩; rfl) ?_
    rintro ask nowUnix seen ⟨⟩
    exact List.nil_prefix
  | refused waiting => exact guarded.setQuery (by rw [waiting]; rfl) rfl
  | @visited q ask nowUnix seen fr reading _ next =>
    have held := (guarded.query q).mp (reading_reads reading)
    obtain ⟨rest, frames⟩ := guarded.seen q ask nowUnix seen reading
    have longer : seen ++ [fr] <+: s.ring.frames := by
      rw [← frames] at next ⊢
      rw [List.getElem?_append_right le_rfl, Nat.sub_self, ← List.head?_eq_getElem?] at next
      obtain ⟨tail, rfl⟩ := List.head?_eq_some_iff.mp next
      exact ⟨tail, by simp⟩
    refine guarded.setReader (fun p other here => other (by cases held.symm.trans here; rfl))
      (fun here => nomatch held.symm.trans here) s.poisoned ⟨fun _ => held, fun _ => rfl⟩
      (by rw [held]; rintro h ⟨⟩; rfl) ?_
    rintro _ _ _ ⟨⟩
    exact longer
  | @released q ask nowUnix seen reading =>
    have held := (guarded.query q).mp (reading_reads reading)
    exact guarded.setReader (fun p other here => other (by cases held.symm.trans here; rfl))
      (fun here => nomatch held.symm.trans here) s.poisoned ⟨nofun, nofun⟩ nofun nofun
  | @peeked q ask nowUnix seen reading =>
    have held := (guarded.query q).mp (reading_reads reading)
    exact guarded.setReader (fun p other here => other (by cases held.symm.trans here; rfl))
      (fun here => nomatch held.symm.trans here) s.poisoned ⟨nofun, nofun⟩ nofun nofun
  | @panicked q ask nowUnix seen reading =>
    have held := (guarded.query q).mp (reading_reads reading)
    exact guarded.setReader (fun p other here => other (by cases held.symm.trans here; rfl))
      (fun here => nomatch held.symm.trans here) true ⟨nofun, nofun⟩ nofun nofun
  | replied finished => exact guarded.setQuery (by rw [finished]; rfl) rfl

theorem run_guarded {es : List Event} (run : Run f cfg es s) : Guarded s := by
  induction run with
  | start => exact ⟨⟨nofun, nofun⟩, fun _ => ⟨nofun, nofun⟩, nofun, nofun⟩
  | step _ step ih => exact step_guarded step ih

/-- Where an incident passes on its way. -/
inductive Station where
  | capture | append | fire | consider | finish
  deriving DecidableEq

def Station.rank : Station → ℕ
  | .capture => 0
  | .append => 1
  | .fire => 2
  | .consider => 3
  | .finish => 4

/-- A capture is over with a push or without. -/
def Event.passes : Station → Event → Option Incident
  | .capture, .captured i => some i
  | .append, .appended i _ => some i
  | .fire, .fired i _ => some i
  | .consider, .considered i _ => some i
  | .finish, .pushed i => some i
  | .finish, .skipped i => some i
  | _, _ => none

def Event.push : Event → Option Incident
  | .pushed i => some i
  | _ => none

/-- The incident on its way, if there is one, and how many stations it has passed. -/
def Loop.carries : Loop → List Incident × ℕ
  | .idle => ([], 0)
  | .captured i => ([i], 1)
  | .appended i => ([i], 2)
  | .fired i => ([i], 3)
  | .considered i => ([i], 4)
  | .locked i => ([i], 4)
  | .evicted i => ([i], 4)

/-- The incident on its way, where it has passed the station. -/
def Loop.past (loop : Loop) (k : Station) : List Incident :=
  if k.rank < loop.carries.2 then loop.carries.1 else []

/-- The incidents that have passed a station, in their order. -/
def passed (k : Station) (es : List Event) : List Incident := es.filterMap (Event.passes k)

def pushes (es : List Event) : List Incident := es.filterMap Event.push

/-- The history after these events, were it pushed to at once. -/
def history (capacity : ℕ) (es : List Event) : Ring :=
  ((pushes es).map frame).foldl Ring.push (.new capacity)

/-- The notifier after these events. -/
def noticing (f : Rounding) (cfg : Settings) (es : List Event) : Notifier :=
  (passed .consider es).foldl (fun n i => (n.consider f cfg.humanName i i.atUnix).1) cfg.notifier

/-- In the middle of a push the oldest frame is gone and the newest is not there. -/
def Loop.shows : Loop → Ring → Ring
  | .evicted _, r => evict r
  | _, r => r

/-- Every incident has passed the stations in turn, and only one is on its way. -/
structure Accounted (f : Rounding) (cfg : Settings) (es : List Event) (s : State) : Prop where
  stations : ∀ k, passed k es = passed .finish es ++ s.loop.past k
  pushed : pushes es <+: passed .finish es
  whole : s.poisoned = false → pushes es = passed .finish es
  notifier : s.notifier = noticing f cfg es
  ring : s.ring = s.loop.shows (history cfg.capacity es)

section Passed

variable {es : List Event} {i : Incident} {k : Station}

@[simp] theorem passed_concat (k : Station) (es : List Event) (e : Event) :
    passed k (es ++ [e]) = passed k es ++ (e.passes k).toList := by
  rw [passed, List.filterMap_append]
  cases here : e.passes k <;> simp [here, passed]

@[simp] theorem pushes_concat (es : List Event) (e : Event) :
    pushes (es ++ [e]) = pushes es ++ e.push.toList := by
  rw [pushes, List.filterMap_append]
  cases here : e.push <;> simp [here, pushes]

theorem history_none {capacity : ℕ} (none : e.push = .none) :
    history capacity (es ++ [e]) = history capacity es := by
  simp [history, none]

theorem push_eq (r : Ring) (fr : Frame) : insert (evict r) fr = r.push fr := rfl

theorem history_push (capacity : ℕ) (es : List Event) (i : Incident) :
    history capacity (es ++ [.pushed i]) = insert (evict (history capacity es)) (frame i) := by
  simp [history, Event.push, push_eq]

theorem noticing_none (none : e.passes .consider = .none) :
    noticing f cfg (es ++ [e]) = noticing f cfg es := by
  simp [noticing, none]

theorem noticing_some (here : e.passes .consider = some i) :
    noticing f cfg (es ++ [e]) = ((noticing f cfg es).consider f cfg.humanName i i.atUnix).1 := by
  simp [noticing, here]

end Passed

/- The loop moves its incident one station on, and the queries move none. -/
theorem step_stations {es : List Event} (step : Step f cfg s e s')
    (stations : ∀ k, passed k es = passed .finish es ++ s.loop.past k) (k : Station) :
    passed k (es ++ [e]) = passed .finish (es ++ [e]) ++ s'.loop.past k := by
  have before := stations k
  rw [passed_concat, passed_concat, before]
  cases step with
  | captured idle =>
    rw [idle]
    cases k <;> simp [Event.passes, Loop.past, Loop.carries, Station.rank]
  | appended here =>
    rw [here]
    cases k <;> simp [Event.passes, Loop.past, Loop.carries, Station.rank]
  | fired here =>
    rw [here]
    cases k <;> simp [Event.passes, Loop.past, Loop.carries, Station.rank]
  | considered here =>
    rw [here]
    cases k <;> simp [Event.passes, Loop.past, Loop.carries, Station.rank]
  | locked here =>
    rw [here]
    cases k <;> simp [Event.passes, Loop.past, Loop.carries, Station.rank]
  | skipped here =>
    rw [here]
    cases k <;> simp [Event.passes, Loop.past, Loop.carries, Station.rank]
  | evicted here =>
    rw [here]
    cases k <;> simp [Event.passes, Loop.past, Loop.carries, Station.rank]
  | pushed here =>
    rw [here]
    cases k <;> simp [Event.passes, Loop.past, Loop.carries, Station.rank]
  | _ => cases k <;> simp [Event.passes] <;> rfl

/- A panic stops the pushes for good, and until then none is left out. -/
theorem step_pushes {es : List Event} (step : Step f cfg s e s') (guarded : Guarded s)
    (pushed : pushes es <+: passed .finish es)
    (whole : s.poisoned = false → pushes es = passed .finish es) :
    pushes (es ++ [e]) <+: passed .finish (es ++ [e]) ∧
      (s'.poisoned = false → pushes (es ++ [e]) = passed .finish (es ++ [e])) := by
  rw [pushes_concat, passed_concat]
  cases step with
  | skipped _ _ poisoned =>
    refine ⟨?_, fun sound => absurd (poisoned.symm.trans sound) nofun⟩
    simpa [Event.push] using pushed.trans (List.prefix_append _ _)
  | pushed evicted =>
    have same := whole (guarded.whole (guarded.capture.mp (by rw [evicted]; rfl)))
    rw [same]
    exact ⟨List.prefix_rfl, fun _ => rfl⟩
  | panicked =>
    refine ⟨?_, fun sound => nomatch sound⟩
    simpa [Event.push, Event.passes] using pushed
  | _ =>
    simp only [Event.push, Event.passes, Option.toList_none, List.append_nil]
    exact ⟨pushed, whole⟩

theorem step_notifier {es : List Event} (step : Step f cfg s e s')
    (notifier : s.notifier = noticing f cfg es) :
    s'.notifier = noticing f cfg (es ++ [e]) := by
  cases step with
  | considered fired => rw [noticing_some rfl, notifier]
  | _ =>
    rw [noticing_none rfl]
    exact notifier

/- Two halves make a push. -/
theorem step_ring {es : List Event} (step : Step f cfg s e s') {capacity : ℕ}
    (ring : s.ring = s.loop.shows (history capacity es)) :
    s'.ring = s'.loop.shows (history capacity (es ++ [e])) := by
  cases step with
  | captured here => rw [here] at ring; rw [history_none rfl]; exact ring
  | appended here => rw [here] at ring; rw [history_none rfl]; exact ring
  | fired here => rw [here] at ring; rw [history_none rfl]; exact ring
  | considered here => rw [here] at ring; rw [history_none rfl]; exact ring
  | locked here => rw [here] at ring; rw [history_none rfl]; exact ring
  | skipped here => rw [here] at ring; rw [history_none rfl]; exact ring
  | evicted here =>
    rw [here] at ring
    rw [history_none rfl]
    exact congrArg evict ring
  | pushed here =>
    rw [here] at ring
    rw [history_push]
    exact congrArg (insert · _) ring
  | _ =>
    rw [history_none rfl]
    exact ring

theorem run_accounted {es : List Event} (run : Run f cfg es s) : Accounted f cfg es s := by
  induction run with
  | start => exact ⟨fun k => by cases k <;> rfl, List.prefix_rfl, fun _ => rfl, rfl, rfl⟩
  | step run step ih =>
    obtain ⟨pushed, whole⟩ := step_pushes step (run_guarded run) ih.pushed ih.whole
    exact ⟨step_stations step ih.stations, pushed, whole, step_notifier step ih.notifier,
      step_ring step ih.ring⟩

theorem Loop.past_prefix (loop : Loop) {k l : Station} (later : k.rank ≤ l.rank) :
    loop.past l <+: loop.past k ∧ (loop.past k).length ≤ (loop.past l).length + 1 := by
  have single : loop.carries.1.length ≤ 1 := by cases loop <;> simp [Loop.carries]
  unfold Loop.past
  split
  · rw [if_pos (by omega)]
    exact ⟨List.prefix_rfl, by omega⟩
  · split
    · exact ⟨List.nil_prefix, by simpa using single⟩
    · exact ⟨List.prefix_rfl, by simp⟩

theorem Accounted.order {es : List Event} (accounted : Accounted f cfg es s) {k l : Station}
    (later : k.rank ≤ l.rank) :
    passed l es <+: passed k es ∧ (passed k es).length ≤ (passed l es).length + 1 := by
  obtain ⟨front, few⟩ := s.loop.past_prefix later
  rw [accounted.stations k, accounted.stations l, List.length_append, List.length_append]
  exact ⟨(List.prefix_append_right_inj _).mpr front, by omega⟩

theorem Accounted.recorded {es : List Event} (accounted : Accounted f cfg es s) (k : Station) :
    pushes es <+: passed k es :=
  accounted.pushed.trans (accounted.order (by cases k <;> decide : k.rank ≤ Station.finish.rank)).1

/-- What the notifier is asked about an incident. -/
def consider (f : Rounding) (cfg : Settings) (n : Notifier) (i : Incident) : Notifier × Option Notice :=
  n.consider f cfg.humanName i i.atUnix

def Event.considers : Event → Option (Incident × Option Notice)
  | .considered i notice => some (i, notice)
  | _ => none

def Event.fires : Event → Option (Incident × List Effect)
  | .fired i effects => some (i, effects)
  | _ => none

theorem run_notices {es : List Event} (run : Run f cfg es s) :
    es.filterMap Event.considers = History.trace (consider f cfg) cfg.notifier (passed .consider es) := by
  induction run with
  | start => rfl
  | @step es e s s' run step ih =>
    have notifier := (run_accounted run).notifier
    rw [List.filterMap_append, ih, passed_concat]
    cases step with
    | considered fired =>
      rw [notifier]
      exact (History.trace_concat _ _ _ _).symm
    | _ => simp [Event.considers, Event.passes]

theorem run_effects {es : List Event} (run : Run f cfg es s) :
    es.filterMap Event.fires = (passed .fire es).map fun i => (i, fireRules cfg.meets i cfg.rules) := by
  induction run with
  | start => rfl
  | step run step ih =>
    rw [List.filterMap_append, ih, passed_concat, List.map_append]
    cases step <;> rfl

/-- In every run the incidents go to the log, to the rules, to the notifier and into the
history one after the other, and to each of them as if they came alone. A frame of the history
is that of an incident that has been at all the other places. -/
theorem one_after_another {es : List Event} (run : Run f cfg es s) :
    (∀ k l : Station, k.rank ≤ l.rank →
        passed l es <+: passed k es ∧ (passed k es).length ≤ (passed l es).length + 1) ∧
      es.filterMap Event.fires = (passed .fire es).map (fun i => (i, fireRules cfg.meets i cfg.rules)) ∧
      es.filterMap Event.considers = History.trace (consider f cfg) cfg.notifier (passed .consider es) ∧
      (s.holder ≠ some .capture → s.ring.frames =
        ((pushes es).map frame).drop ((pushes es).length - max cfg.capacity 1)) ∧
      (∀ k, pushes es <+: passed k es) ∧ (s.poisoned = false → pushes es = passed .finish es) := by
  have accounted := run_accounted run
  refine ⟨fun k l later => accounted.order later, run_effects run, run_notices run, fun free => ?_,
    accounted.recorded, accounted.whole⟩
  have rests : s.loop.shows (history cfg.capacity es) = history cfg.capacity es := by
    cases loop : s.loop with
    | evicted i => exact absurd ((run_guarded run).capture.mp (by rw [loop]; rfl)) free
    | _ => rfl
  rw [accounted.ring, rests, history, Ring.frames_push, List.length_map]

/-- Room for two frames, and no rule. -/
def alone : Settings := ⟨2, fun _ _ => true, [], String.toList, .default⟩

def stalled : Incident :=
  ⟨1000, 400000, ["io"], [⟨"ghostty.service", "/sys/fs/cgroup/ghostty.service", .io,
  .full, 200000, .whole 50, .whole 50⟩], [], [], []⟩

/-- One capture up to the middle of its push, and a request that waits. -/
def half : List Event :=
  [.captured stalled, .appended stalled true, .fired stalled (fireRules alone.meets stalled alone.rules),
    .considered stalled (consider .exact alone alone.notifier stalled).2,
    .arrived 0 (.line (some (.since 60 .json))) 1001, .locked, .evicted]

theorem run_half : ∃ s, Run .exact alone half s ∧
    s.query 0 = .waiting (.line (some (.since 60 .json))) 1001 ∧ s.loop = .evicted stalled := by
  have steps : Steps .exact alone (initial alone) half _ :=
    .step (.captured rfl) (.step (.appended rfl) (.step (.fired rfl) (.step (.considered rfl)
      (.step (.arrived rfl nofun) (.step (.locked rfl rfl rfl) (.step (.evicted rfl) .none))))))
  exact ⟨_, Run.start.steps steps, rfl, rfl⟩

theorem one_after_another_half : ∃ s, Run .exact alone half s ∧
    (∀ k l : Station, k.rank ≤ l.rank →
        passed l half <+: passed k half ∧ (passed k half).length ≤ (passed l half).length + 1) ∧
      half.filterMap Event.fires =
        (passed .fire half).map (fun i => (i, fireRules alone.meets i alone.rules)) ∧
      half.filterMap Event.considers =
        History.trace (consider .exact alone) alone.notifier (passed .consider half) ∧
      (s.holder ≠ some .capture → s.ring.frames =
        ((pushes half).map frame).drop ((pushes half).length - max alone.capacity 1)) ∧
      (∀ k, pushes half <+: passed k half) ∧ (s.poisoned = false →
        pushes half = passed .finish half) := by
  obtain ⟨s, run, _⟩ := run_half
  exact ⟨s, run, one_after_another run⟩

end Stallwatch.Daemon
