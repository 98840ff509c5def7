import Stallwatch.Daemon.Pipeline

/-! An answer rests on the history as it stood at one moment between the request and the
reply, though it is read frame by frame and pushed to in two halves. -/
namespace Stallwatch.Daemon

variable {f : Rounding} {cfg : Settings} {s s' : State} {e : Event} {es : List Event}

/-- What an answer has found, when it has found it all after these events. -/
inductive Found (capacity : ℕ) (es : List Event) : Ask → Option (List Frame) → Prop where
  | aside {ask : Ask} : ask.access = .nothing → Found capacity es ask none
  | poisoned {ask : Ask} {q : ℕ} : .panicked q ∈ es → Found capacity es ask none
  | newest {ask : Ask} : ask.access = .newest →
      Found capacity es ask (some (history capacity es).newest.toList)
  | all {ask : Ask} : ask.access = .all → Found capacity es ask (some (history capacity es).frames)

/-- The events between which the query has stood since it came. -/
def Query.Traced (capacity : ℕ) (es : List Event) (q : ℕ) : Query → Prop
  | .waiting ask nowUnix => ∃ earlier since, es = earlier ++ .arrived q ask nowUnix :: since
  | .reading ask nowUnix _ => ∃ earlier since, es = earlier ++ .arrived q ask nowUnix :: since
  | .finished ask nowUnix found => ∃ earlier between later,
      es = earlier ++ .arrived q ask nowUnix :: (between ++ later) ∧
        Found capacity (earlier ++ .arrived q ask nowUnix :: between) ask found
  | _ => True

theorem Query.Traced.later {capacity q : ℕ} {stage : Query} (traced : stage.Traced capacity es q)
    (e : Event) :
    stage.Traced capacity (es ++ [e]) q := by
  cases stage with
  | absent => trivial
  | closed => trivial
  | waiting ask nowUnix =>
    obtain ⟨earlier, since, rfl⟩ := traced
    exact ⟨earlier, since ++ [e], by simp⟩
  | reading ask nowUnix seen =>
    obtain ⟨earlier, since, rfl⟩ := traced
    exact ⟨earlier, since ++ [e], by simp⟩
  | finished ask nowUnix found =>
    obtain ⟨earlier, between, later, rfl, rests⟩ := traced
    exact ⟨earlier, between, later ++ [e], by simp, rests⟩

/- What is found now is found at the last event. -/
theorem traced_found {capacity q : ℕ} {ask : Ask} {nowUnix : UInt64} {found : Option (List Frame)}
    (traced : ∃ earlier since, es = earlier ++ .arrived q ask nowUnix :: since) {e : Event}
    (rests : Found capacity (es ++ [e]) ask found) :
    (Query.finished ask nowUnix found).Traced capacity (es ++ [e]) q := by
  obtain ⟨earlier, since, rfl⟩ := traced
  refine ⟨earlier, since ++ [e], [], by simp, ?_⟩
  simpa using rests

theorem run_poisoned (run : Run f cfg es s) (poisoned : s.poisoned = true) : ∃ q, .panicked q ∈ es := by
  induction run with
  | start => cases poisoned
  | @step es e s s' run step ih =>
    have before : s.poisoned = true → ∃ q, .panicked q ∈ es ++ [e] := fun poisoned =>
      (ih poisoned).imp fun q member => List.mem_append_left _ member
    cases step with
    | @panicked q => exact ⟨q, by simp⟩
    | _ => exact before poisoned

/- A query that holds the lock sees the whole history. -/
theorem settled_ring (run : Run f cfg es s) {q : ℕ} (held : s.holder = some (.query q)) :
    s.ring = history cfg.capacity es := by
  have rests : s.loop.shows (history cfg.capacity es) = history cfg.capacity es := by
    cases loop : s.loop with
    | evicted i =>
      have capture := (run_guarded run).capture.mp (by rw [loop]; rfl)
      cases held.symm.trans capture
    | _ => rfl
  rw [(run_accounted run).ring, rests]

/- One step of the query itself or of another. -/
theorem traced_setQuery {capacity q : ℕ} {stage : Query} (here : stage.Traced capacity (es ++ [e]) q)
    (others : ∀ p, (s.query p).Traced capacity es p) (p : ℕ) :
    ((s.setQuery q stage).query p).Traced capacity (es ++ [e]) p := by
  by_cases same : p = q
  · rw [same, setQuery_self]
    exact here
  · rw [setQuery_other s same]
    exact (others p).later e

theorem step_traced (run : Run f cfg es s) (step : Step f cfg s e s')
    (traced : ∀ q, (s.query q).Traced cfg.capacity es q) (p : ℕ) :
    (s'.query p).Traced cfg.capacity (es ++ [e]) p := by
  have guarded := run_guarded run
  cases step with
  | arrived => exact traced_setQuery (by exact ⟨es, [], rfl⟩) traced p
  | aside _ aside => exact traced_setQuery (by exact ⟨es, [], [], rfl, .aside aside⟩) traced p
  | @acquired q ask nowUnix waiting =>
    have here := (traced q).later (.acquired q)
    rw [waiting] at here
    exact traced_setQuery (by exact here) traced p
  | @refused q ask nowUnix waiting _ poisoned =>
    have here := traced q
    rw [waiting] at here
    obtain ⟨other, panicked⟩ := run_poisoned run poisoned
    exact traced_setQuery (traced_found here (.poisoned (List.mem_append_left _ panicked))) traced p
  | @visited q ask nowUnix seen fr reading =>
    have here := (traced q).later (.visited q)
    rw [reading] at here
    exact traced_setQuery (by exact here) traced p
  | @released q ask nowUnix seen reading access ends =>
    have here := traced q
    rw [reading] at here
    have ring := settled_ring run ((guarded.query q).mp (reading_reads reading))
    have whole : seen = s.ring.frames :=
      (guarded.seen q ask nowUnix seen reading).eq_of_length_le (List.getElem?_eq_none_iff.mp ends)
    have found : Found cfg.capacity (es ++ [.released q]) ask
        (some (history cfg.capacity _).frames) := .all access
    rw [history_none rfl, ← ring, ← whole] at found
    exact traced_setQuery (traced_found here found) traced p
  | @peeked q ask nowUnix seen reading access =>
    have here := traced q
    rw [reading] at here
    have ring := settled_ring run ((guarded.query q).mp (reading_reads reading))
    have found : Found cfg.capacity (es ++ [.released q]) ask
      (some (history cfg.capacity _).newest.toList) := .newest access
    rw [history_none rfl, ← ring] at found
    exact traced_setQuery (traced_found here found) traced p
  | panicked => exact traced_setQuery (by trivial) traced p
  | replied => exact traced_setQuery (by trivial) traced p
  | _ => exact (traced p).later _

theorem run_traced (run : Run f cfg es s) : ∀ q, (s.query q).Traced cfg.capacity es q := by
  induction run with
  | start => exact fun _ => trivial
  | step run step ih => exact step_traced run step ih

theorem Run.split {before after : List Event} (run : Run f cfg (before ++ e :: after) s) :
    ∃ s₀ s₁, Run f cfg before s₀ ∧ Step f cfg s₀ e s₁ := by
  induction after using List.reverseRecOn generalizing s with
  | nil =>
    generalize whole : before ++ [e] = es at run
    cases run with
    | start => simp at whole
    | step run step =>
      obtain ⟨rfl, last⟩ := List.append_inj' whole rfl
      cases last
      exact ⟨_, _, run, step⟩
  | append_singleton after last ih =>
    generalize whole : before ++ e :: (after ++ [last]) = es at run
    cases run with
    | start => simp at whole
    | step run step =>
      rw [← List.cons_append, ← List.append_assoc] at whole
      obtain ⟨rfl, _⟩ := List.append_inj' whole rfl
      exact ih run

theorem newest_kept (r : Ring) (capacity : ℕ) : (Ring.mk r.newest.toList capacity).newest = r.newest := by
  cases newest : r.newest <;> rfl

/- An answer needs no more of the history than was found. -/
theorem reply_found (nowUnix : UInt64) (order : Shuffle Stall.Key Total) (scan : List Warning) {ask : Ask}
    {found : Option (List Frame)} (capacity : ℕ) (rests : Found capacity es ask found) :
    ∃ ring, reply f ⟨nowUnix, found.map (⟨·, capacity⟩), order, scan⟩ ask =
        reply f ⟨nowUnix, ring, order, scan⟩ ask ∧
      (ring = some (history capacity es) ∨ ring = none ∧ ∃ q, .panicked q ∈ es) := by
  cases rests with
  | poisoned panicked => exact ⟨none, rfl, .inr ⟨rfl, _, panicked⟩⟩
  | aside nothing =>
    refine ⟨some (history capacity es), ?_, .inl rfl⟩
    cases ask with
    | history secs => cases nothing
    | line asked =>
      rcases asked with _ | ping | now | since
      · rfl
      · rfl
      · cases nothing
      · cases nothing
  | newest newest =>
    refine ⟨some (history capacity es), ?_, .inl rfl⟩
    cases ask with
    | history secs => cases newest
    | line asked =>
      rcases asked with _ | ping | fmt | since
      · cases newest
      · cases newest
      · have kept := newest_kept (history capacity es) capacity
        simp only [reply, Ipc.answer, Ipc.newest, Option.map_some, Option.bind_some, kept]
      · cases newest
  | all all =>
    refine ⟨some (history capacity es), ?_, .inl rfl⟩
    cases ask with
    | history secs => rfl
    | line asked =>
      rcases asked with _ | ping | now | since
      · cases all
      · cases all
      · cases all
      · rfl

/-- Every reply is the answer that the daemon would have given at one moment between the
request and the reply: to the clock it read, and from the history as it stood then. Only once
a thread has panicked with the lock is there no history to answer from. -/
theorem replies_atomic (run : Run f cfg es s) {before after : List Event} {q : ℕ} {text : List Char}
    (replied : es = before ++ .replied q text :: after) :
    ∃ ask nowUnix earlier between later order scan ring,
      before = earlier ++ .arrived q ask nowUnix :: (between ++ later) ∧
        text = reply f ⟨nowUnix, ring, order, scan⟩ ask ∧
        (ring = some (history cfg.capacity (earlier ++ .arrived q ask nowUnix :: between)) ∨
          ring = none ∧ ∃ p, .panicked p ∈ earlier ++ .arrived q ask nowUnix :: between) := by
  subst replied
  obtain ⟨s₀, s₁, run, step⟩ := run.split
  have traced := run_traced run q
  cases step with
  | @replied _ ask nowUnix found order scan finished =>
    rw [finished] at traced
    obtain ⟨earlier, between, later, whole, rests⟩ := traced
    obtain ⟨ring, same, origin⟩ := reply_found (f := f) nowUnix order scan cfg.capacity rests
    exact ⟨ask, nowUnix, earlier, between, later, order, scan, ring, whole, same, origin⟩

/-- The push goes on, and the request is answered behind it. -/
theorem run_answered : ∃ s, Run .exact alone
    (half ++ [.pushed stalled, .acquired 0, .visited 0, .released 0] ++ [.replied 0
      (reply .exact ⟨1001, some ⟨[frame stalled], 2⟩, .same, []⟩ (.line (some (.since 60 .json))))]) s := by
  have steps : Steps .exact alone (initial alone)
      (half ++ [.pushed stalled, .acquired 0, .visited 0, .released 0] ++ [.replied 0
        (reply .exact ⟨1001, some ⟨[frame stalled], 2⟩, .same, []⟩ (.line (some (.since 60 .json))))]) _ :=
    .step (.captured rfl) (.step (.appended rfl) (.step (.fired rfl) (.step (.considered rfl)
      (.step (.arrived rfl nofun) (.step (.locked rfl rfl rfl) (.step (.evicted rfl) (.step (.pushed rfl)
        (.step (.acquired rfl rfl rfl) (.step (.visited rfl rfl rfl) (.step (.released rfl rfl rfl)
          (.step (@Step.replied _ _ _ _ _ _ (some [frame stalled]) _ _ rfl) .none)))))))))))
  exact ⟨_, Run.start.steps steps⟩

theorem replies_atomic_session : ∃ es s before after text, Run .exact alone es s ∧
    es = before ++ .replied 0 text :: after ∧
    ∃ ask nowUnix earlier between later order scan ring,
      before = earlier ++ .arrived 0 ask nowUnix :: (between ++ later) ∧
        text = reply .exact ⟨nowUnix, ring, order, scan⟩ ask ∧
        (ring = some (history alone.capacity (earlier ++ .arrived 0 ask nowUnix :: between)) ∨
          ring = none ∧ ∃ p, .panicked p ∈ earlier ++ .arrived 0 ask nowUnix :: between) := by
  obtain ⟨s, run⟩ := run_answered
  exact ⟨_, s, _, [], _, run, rfl, replies_atomic run rfl⟩

end Stallwatch.Daemon
