import Stallwatch.Daemon.Atomic

/-! Nobody waits for long: whoever has the lock gives it back, and a query that was let in can
be answered whatever the others do. -/
namespace Stallwatch.Daemon

variable {f : Rounding} {cfg : Settings} {s s' s'' : State} {e : Event} {es es' es'' : List Event}

/-- Whose step it is. -/
def Event.thread : Event → Holder
  | .arrived q _ _ => .query q
  | .acquired q => .query q
  | .refused q => .query q
  | .visited q => .query q
  | .released q => .query q
  | .panicked q => .query q
  | .replied q _ => .query q
  | _ => .capture

/-- Who waits for the lock has a reason. -/
def Query.Asks : Query → Prop
  | .waiting ask _ => ask.access ≠ .nothing
  | .reading ask _ _ => ask.access ≠ .nothing
  | _ => True

theorem asks_setQuery {q : ℕ} {stage : Query} (here : stage.Asks) (asks : ∀ p, (s.query p).Asks) (p : ℕ) :
    ((s.setQuery q stage).query p).Asks := by
  by_cases same : p = q
  · rwa [same, setQuery_self]
  · rw [setQuery_other s same]
    exact asks p

theorem step_asks (step : Step f cfg s e s') (asks : ∀ p, (s.query p).Asks) (p : ℕ) :
    (s'.query p).Asks := by
  cases step with
  | arrived _ access => exact asks_setQuery (by exact access) asks p
  | aside => exact asks_setQuery (by trivial) asks p
  | @acquired q _ _ waiting =>
    have here := asks q
    rw [waiting] at here
    exact asks_setQuery (by exact here) asks p
  | refused => exact asks_setQuery (by trivial) asks p
  | @visited q _ _ _ _ reading =>
    have here := asks q
    rw [reading] at here
    exact asks_setQuery (by exact here) asks p
  | released => exact asks_setQuery (by trivial) asks p
  | peeked => exact asks_setQuery (by trivial) asks p
  | panicked => exact asks_setQuery (by trivial) asks p
  | replied => exact asks_setQuery (by trivial) asks p
  | _ => exact asks p

theorem run_asks (run : Run f cfg es s) : ∀ p, (s.query p).Asks := by
  induction run with
  | start => exact fun _ => trivial
  | step _ step ih => exact step_asks step ih

/-- The query has read what it needs and has given the lock back. -/
structure Read (q : ℕ) (s s' : State) : Prop where
  finished : ∃ ask nowUnix found, s'.query q = .finished ask nowUnix found
  others : ∀ p, p ≠ q → s'.query p = s.query p
  free : s'.holder = none
  ring : s'.ring = s.ring

/- Every visit brings the end nearer. -/
theorem read_out {q : ℕ} {ask : Ask} {nowUnix : UInt64} (access : ask.access ≠ .nothing) (n : ℕ)
    {seen : List Frame} (reading : s.query q = .reading ask nowUnix seen)
    (left : s.ring.frames.length ≤ seen.length + n) :
    ∃ es' s', Steps f cfg s es' s' ∧ Read q s s' ∧ (∀ e ∈ es', e.thread = .query q) ∧
      es'.length ≤ n + 1 := by
  cases kind : ask.access with
  | nothing => exact absurd kind access
  | newest =>
    refine ⟨_, _, .step (.peeked reading kind) .none,
      ⟨⟨_, _, _, setQuery_self s q _⟩, fun p other => ?_, rfl, rfl⟩,
      by simp [Event.thread], by simp⟩
    exact setQuery_other s other _
  | all =>
    induction n generalizing s seen with
    | zero =>
      refine ⟨_, _, .step (.released reading kind (List.getElem?_eq_none_iff.mpr left)) .none,
        ⟨⟨_, _, _, setQuery_self s q _⟩, fun p other => ?_, rfl, rfl⟩, by simp [Event.thread], by simp⟩
      exact setQuery_other s other _
    | succ n ih =>
      cases next : s.ring.frames[seen.length]? with
      | none =>
        refine ⟨_, _, .step (.released reading kind next) .none,
          ⟨⟨_, _, _, setQuery_self s q _⟩, fun p other => ?_, rfl, rfl⟩, by simp [Event.thread], by simp⟩
        exact setQuery_other s other _
      | some fr =>
        obtain ⟨es', s', steps, read, thread, few⟩ :=
          ih (s := s.setQuery q (.reading ask nowUnix (seen ++ [fr])))
          (setQuery_self s q _)
          (by rw [List.length_append, List.length_singleton]; exact left.trans (by omega))
        refine ⟨_, _, .step (.visited reading kind next) steps,
          ⟨read.finished, fun p other => ?_, read.free, read.ring⟩,
          List.forall_mem_cons.mpr ⟨rfl, thread⟩, by rw [List.length_cons]; omega⟩
        rw [read.others p other, setQuery_other s other]

theorem evict_length (r : Ring) : (evict r).frames.length ≤ r.frames.length := by
  unfold evict
  dsimp only
  split
  · rw [List.length_tail]
    omega
  · exact le_rfl

theorem ring_bounded (run : Run f cfg es s) : s.ring.frames.length ≤ max cfg.capacity 1 := by
  have settled : (history cfg.capacity es).frames.length ≤ max cfg.capacity 1 := by
    rw [history, Ring.frames_push, List.length_drop]
    omega
  rw [(run_accounted run).ring]
  cases s.loop with
  | evicted i => exact (evict_length _).trans settled
  | _ => exact settled

/-- The lock is free, and only its holder has gone on. -/
structure Freed (s s' : State) : Prop where
  free : s'.holder = none
  others : ∀ p, s.holder ≠ some (.query p) → s'.query p = s.query p
  holder : ∀ p, s.holder = some (.query p) → ∃ ask nowUnix found, s'.query p = .finished ask nowUnix found

/-- Whoever holds the lock can give it back, and needs nobody else for it. -/
theorem lock_returns (run : Run f cfg es s) : ∃ es' s', Steps f cfg s es' s' ∧ Freed s s' ∧
    (∀ e ∈ es', s.holder = some e.thread) ∧ es'.length ≤ max cfg.capacity 1 + 1 := by
  have guarded := run_guarded run
  cases held : s.holder with
  | none =>
    exact ⟨[], s, .none, ⟨held, fun _ _ => rfl, fun p here => nomatch held.symm.trans here⟩, nofun,
      by simp⟩
  | some holder =>
    cases holder with
    | capture =>
      have holds := guarded.capture.mpr held
      cases loop : s.loop with
      | locked i =>
        refine ⟨_, _, .step (.evicted loop) (.step (.pushed rfl) .none), ⟨rfl, fun _ _ => rfl, ?_⟩,
          ?_, ?_⟩
        · exact fun p here => nomatch held.symm.trans here
        · simp [Event.thread]
        · simp
      | evicted i =>
        refine ⟨_, _, .step (.pushed loop) .none, ⟨rfl, fun _ _ => rfl, ?_⟩, by simp [Event.thread],
          by simp⟩
        exact fun p here => nomatch held.symm.trans here
      | _ =>
        rw [loop] at holds
        cases holds
    | query q =>
      have reads := (guarded.query q).mpr held
      cases stage : s.query q with
      | reading ask nowUnix seen =>
        have asks := run_asks run q
        rw [stage] at asks
        obtain ⟨es', s', steps, read, thread, few⟩ := read_out asks (max cfg.capacity 1) stage
          ((ring_bounded run).trans (Nat.le_add_left _ _))
        refine ⟨es', s', steps, ⟨read.free, fun p other => read.others p ?_, fun p here => ?_⟩,
          fun e member => by rw [thread e member], few⟩
        · rintro rfl
          exact other held
        · cases held.symm.trans here
          exact read.finished
      | _ =>
        rw [stage] at reads
        cases reads

/- With the lock free a query that waits for it is let in and reads, or is turned away. -/
theorem finishes (run : Run f cfg es s) (free : s.holder = none) {q : ℕ} (came : s.query q ≠ .absent)
    (stays : s.query q ≠ .closed) : ∃ es' s', Steps f cfg s es' s' ∧
      (∃ ask nowUnix found, s'.query q = .finished ask nowUnix found) ∧
      (∀ e ∈ es', e.thread = .query q) ∧ es'.length ≤ max cfg.capacity 1 + 2 := by
  cases stage : s.query q with
  | absent => exact absurd stage came
  | closed => exact absurd stage stays
  | finished ask nowUnix found => exact ⟨[], s, .none, ⟨ask, nowUnix, found, stage⟩, nofun, by simp⟩
  | reading ask nowUnix seen =>
    have held := ((run_guarded run).query q).mp (reading_reads stage)
    exact nomatch free.symm.trans held
  | waiting ask nowUnix =>
    cases poisoned : s.poisoned with
    | true =>
      exact ⟨_, _, .step (.refused stage free poisoned) .none, ⟨_, _, _, setQuery_self s q _⟩,
        by simp [Event.thread], by simp⟩
    | false =>
      have asks := run_asks run q
      rw [stage] at asks
      have reading :
        ({ s.setQuery q (.reading ask nowUnix []) with holder := some (.query q) } : State).query q =
          .reading ask nowUnix [] := setQuery_self s q _
      obtain ⟨es', s', steps, read, thread, few⟩ := read_out asks (max cfg.capacity 1)
        reading ((ring_bounded run).trans (Nat.le_add_left _ _))
      refine ⟨_, s', .step (.acquired stage free poisoned) steps, read.finished,
        List.forall_mem_cons.mpr ⟨rfl, thread⟩, ?_⟩
      rw [List.length_cons]
      omega

/-- In every state that can be reached, a query that was let in can be answered in a bounded
number of steps, and all of them are its own or those of the thread that holds the lock. -/
theorem answered_soon (run : Run f cfg es s) {q : ℕ} (came : s.query q ≠ .absent)
    (stays : s.query q ≠ .closed) : ∃ es' s' text, Run f cfg (es ++ es' ++ [.replied q text]) s' ∧
      (∀ e ∈ es', e.thread = .query q ∨ s.holder = some e.thread) ∧
      es'.length ≤ 2 * max cfg.capacity 1 + 3 := by
  obtain ⟨es₁, s₁, steps₁, freed, thread₁, few₁⟩ := lock_returns run
  have stage : s₁.query q ≠ .absent ∧ s₁.query q ≠ .closed := by
    by_cases holder : s.holder = some (.query q)
    · obtain ⟨ask, nowUnix, found, finished⟩ := freed.holder q holder
      rw [finished]
      exact ⟨nofun, nofun⟩
    · rw [freed.others q holder]
      exact ⟨came, stays⟩
  have run₁ := run.steps steps₁
  obtain ⟨es₂, s₂, steps₂, ⟨ask, nowUnix, found, finished⟩, thread₂, few₂⟩ :=
    finishes run₁ freed.free stage.1 stage.2
  have run₂ := run₁.steps steps₂
  have last := @Step.replied f cfg s₂ q ask nowUnix found .same [] finished
  refine ⟨es₁ ++ es₂, s₂.setQuery q .closed,
    reply f ⟨nowUnix, found.map (⟨·, cfg.capacity⟩), .same, []⟩ ask,
    ?_, ?_, ?_⟩
  · rw [← List.append_assoc]
    exact run₂.step last
  · exact List.forall_mem_append.mpr ⟨fun e member => .inr (thread₁ e member),
      fun e member => .inl (thread₂ e member)⟩
  · rw [List.length_append]
    omega

theorem answered_soon_session : ∃ es s, Run .exact alone es s ∧
    ∃ es' s' text, Run .exact alone (es ++ es' ++ [.replied 0 text]) s' ∧
      (∀ e ∈ es', e.thread = .query 0 ∨ s.holder = some e.thread) ∧
      es'.length ≤ 2 * max alone.capacity 1 + 3 := by
  obtain ⟨s, run, waiting, _⟩ := run_half
  exact ⟨half, s, run, answered_soon run (by rw [waiting]; nofun) (by rw [waiting]; nofun)⟩

end Stallwatch.Daemon
