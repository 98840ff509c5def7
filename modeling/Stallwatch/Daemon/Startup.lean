import Mathlib.Data.List.Basic
import Mathlib.Logic.Function.Basic
import Mathlib.Tactic.Common

/-! Start-ups of the daemon and the name of its socket. A start-up looks whether the name is
taken, asks whether anybody listens, and clears the name of a socket left behind. Another start-up
may come in between any two of these. -/
namespace Stallwatch.Startup

open scoped List

/-- How far a start-up has got: it has found the name taken, it has been refused, the name is
free, it has bound the name, it listens. -/
inductive Stage where
  | absent
  | found
  | refused
  | cleared
  | bound
  | serving
  | ended
  deriving DecidableEq

/-- What the name stands for: the socket of a start-up, or what was there before. -/
inductive Entry where
  | old
  | of (d : ℕ)
  deriving DecidableEq

structure State where
  entry : Option Entry
  stage : ℕ → Stage

def initial (entry : Option Entry) : State := ⟨entry, fun _ => .absent⟩

def State.set (s : State) (d : ℕ) (stage : Stage) : State :=
  { s with stage := Function.update s.stage d stage }

/-- Whoever connects to the name is answered. -/
def State.Listened (s : State) : Prop := ∃ d, s.entry = some (.of d) ∧ s.stage d = .serving

/-- The calls `bind_or_die` makes, and how they come out; a daemon may also be stopped anywhere. -/
inductive Event where
  | looked (d : ℕ)
  | found (d : ℕ)
  | answered (d : ℕ)
  | refused (d : ℕ)
  | removed (d : ℕ)
  | stuck (d : ℕ)
  | bound (d : ℕ)
  | denied (d : ℕ)
  | served (d : ℕ)
  | stopped (d : ℕ)
  deriving DecidableEq

def Event.startup : Event → ℕ
  | .looked d | .found d | .answered d | .refused d | .removed d | .stuck d | .bound d | .denied d
  | .served d | .stopped d => d

/-- A call that the system refuses: the name cannot be removed, or not be bound. -/
def Event.Fails : Event → Prop
  | .stuck _ | .denied _ => True
  | _ => False

/-- The name is bound before anybody listens on it, and a socket that nobody listens on any more
keeps the name. A name that is taken cannot be bound, and one that is gone cannot be removed; either
call may also fail otherwise, and the start-up then gives up. -/
inductive Step (s : State) : Event → State → Prop where
  | looked {d : ℕ} : s.stage d = .absent → s.entry = none → Step s (.looked d) (s.set d .cleared)
  | found {d : ℕ} : s.stage d = .absent → s.entry ≠ none → Step s (.found d) (s.set d .found)
  | answered {d : ℕ} : s.stage d = .found → s.Listened → Step s (.answered d) (s.set d .ended)
  | refused {d : ℕ} : s.stage d = .found → ¬ s.Listened → Step s (.refused d) (s.set d .refused)
  | removed {d : ℕ} : s.stage d = .refused → s.entry ≠ none →
      Step s (.removed d) { s.set d .cleared with entry := none }
  | stuck {d : ℕ} : s.stage d = .refused → Step s (.stuck d) (s.set d .ended)
  | bound {d : ℕ} : s.stage d = .cleared → s.entry = none →
      Step s (.bound d) { s.set d .bound with entry := some (.of d) }
  | denied {d : ℕ} : s.stage d = .cleared → Step s (.denied d) (s.set d .ended)
  | served {d : ℕ} : s.stage d = .bound → Step s (.served d) (s.set d .serving)
  | stopped {d : ℕ} : Step s (.stopped d) (s.set d .ended)

inductive Run (entry : Option Entry) : List Event → State → Prop where
  | start : Run entry [] (initial entry)
  | step {es : List Event} {e : Event} {s s' : State} :
      Run entry es s → Step s e s' → Run entry (es ++ [e]) s'

/-- Another start-up has taken the name away: it had been refused before `d` listened, and
removed the name after `d` had bound it. -/
def Raced (es : List Event) (d : ℕ) : Prop :=
  ∃ d', d' ≠ d ∧ [.refused d', .served d] <+ es ∧ [.bound d, .removed d'] <+ es

/-- What each start-up may rely on, and what becomes of one that loses the name. -/
structure Inv (es : List Event) (s : State) : Prop where
  refused : ∀ d, s.stage d = .refused → .refused d ∈ es
  bound : ∀ d, s.stage d = .bound ∨ s.stage d = .serving → .bound d ∈ es
  late : ∀ d d', s.stage d = .serving → s.entry = some (.of d) → s.stage d' = .refused →
    [.refused d', .served d] <+ es
  begun : ∀ d, s.stage d = .bound → s.entry = some (.of d) ∨
    ∃ d', d' ≠ d ∧ .refused d' ∈ es ∧ [.bound d, .removed d'] <+ es
  serving : ∀ d, s.stage d = .serving → s.entry = some (.of d) ∨ Raced es d

variable {entry : Option Entry} {es : List Event} {s s' : State} {e : Event}

theorem then_now {x y : Event} (member : x ∈ es) : [x, y] <+ es ++ [y] :=
  (List.singleton_sublist.mpr member).append (List.Sublist.refl [y])

theorem later {xs : List Event} (listed : xs <+ es) : xs <+ es ++ [e] :=
  listed.trans (List.sublist_append_left es [e])

theorem Raced.later {d : ℕ} (raced : Raced es d) : Raced (es ++ [e]) d := by
  obtain ⟨d', other, first, second⟩ := raced
  exact ⟨d', other, Startup.later first, Startup.later second⟩

theorem begun_later {d : ℕ} (begun : ∃ d', d' ≠ d ∧ .refused d' ∈ es ∧ [.bound d, .removed d'] <+ es) :
    ∃ d', d' ≠ d ∧ .refused d' ∈ es ++ [e] ∧ [.bound d, .removed d'] <+ es ++ [e] := by
  obtain ⟨d', other, before, after⟩ := begun
  exact ⟨d', other, List.mem_append_left _ before, later after⟩

theorem inv_start (entry : Option Entry) : Inv [] (initial entry) where
  refused _ stage := nomatch stage
  bound _ stage := by rcases stage with stage | stage <;> cases stage
  late _ _ stage := nomatch stage
  begun _ stage := nomatch stage
  serving _ stage := nomatch stage

@[simp] theorem State.stage_entry (s : State) (entry : Option Entry) :
    { s with entry := entry : State }.stage = s.stage := rfl

@[simp] theorem stage_set (s : State) (d : ℕ) (stage : Stage) : (s.set d stage).stage d = stage := by
  simp [State.set]

theorem stage_set_ne {d d' : ℕ} (other : d' ≠ d) (stage : Stage) :
    (s.set d stage).stage d' = s.stage d' := by
  simp [State.set, other]

/- A stage that was not given in this step was there before. -/
theorem stage_before {d d' : ℕ} {given stage : Stage} (now : (s.set d given).stage d' = stage)
    (differ : stage ≠ given) : s.stage d' = stage := by
  by_cases same : d' = d
  · subst same
    exact absurd ((stage_set s d' given).symm.trans now).symm differ
  · rwa [stage_set_ne same] at now

theorem begun_before {d d' : ℕ} {given : Stage}
    (now : (s.set d given).stage d' = .bound ∨ (s.set d given).stage d' = .serving)
    (bound : .bound ≠ given) (serving : .serving ≠ given) : s.stage d' = .bound ∨ s.stage d' = .serving :=
  now.imp (fun now => stage_before now bound) fun now => stage_before now serving

theorem ne_of_stage {d d' : ℕ} {one other : Stage} (here : s.stage d = one) (there : s.stage d' = other)
    (differ : one ≠ other) : d ≠ d' := by
  rintro rfl
  exact differ (here.symm.trans there)

/- Steps that neither touch the name nor come near it. -/
theorem Inv.aside (inv : Inv es s) {d : ℕ} {given : Stage} (refused : .refused ≠ given)
    (bound : .bound ≠ given) (serving : .serving ≠ given) : Inv (es ++ [e]) (s.set d given) where
  refused d' stage := List.mem_append_left _ (inv.refused d' (stage_before stage refused))
  bound d' stage := List.mem_append_left _ (inv.bound d' (begun_before stage bound serving))
  late d' d'' listens owns stage :=
    Startup.later (inv.late d' d'' (stage_before listens serving) owns (stage_before stage refused))
  begun d' stage := (inv.begun d' (stage_before stage bound)).imp_right begun_later
  serving d' stage := (inv.serving d' (stage_before stage serving)).imp_right Raced.later

theorem inv_refused (inv : Inv es s) {d : ℕ} (nobody : ¬ s.Listened) :
    Inv (es ++ [.refused d]) (s.set d .refused) where
  refused d' stage := by
    by_cases same : d' = d
    · subst same
      exact List.mem_append_right _ (List.mem_singleton_self _)
    · rw [stage_set_ne same] at stage
      exact List.mem_append_left _ (inv.refused d' stage)
  bound d' stage := List.mem_append_left _ (inv.bound d' (begun_before stage nofun nofun))
  late d' _ listens owns _ := absurd ⟨d', owns, stage_before listens nofun⟩ nobody
  begun d' stage := (inv.begun d' (stage_before stage nofun)).imp_right begun_later
  serving d' stage := (inv.serving d' (stage_before stage nofun)).imp_right Raced.later

/- Whoever had the name loses it to a start-up that was refused before it listened. -/
theorem inv_removed (inv : Inv es s) {d : ℕ} (refused : s.stage d = .refused) :
    Inv (es ++ [.removed d]) { s.set d .cleared with entry := none } where
  refused d' stage := List.mem_append_left _ (inv.refused d' (stage_before stage nofun))
  bound d' stage := List.mem_append_left _ (inv.bound d' (begun_before stage nofun nofun))
  late _ _ _ owns _ := nomatch owns
  begun d' stage := by
    have before : s.stage d' = .bound := stage_before stage nofun
    refine .inr ?_
    rcases inv.begun d' before with owns | begun
    · exact ⟨d, ne_of_stage refused before nofun, List.mem_append_left _ (inv.refused d refused),
        then_now (inv.bound d' (.inl before))⟩
    · exact begun_later begun
  serving d' stage := by
    have before : s.stage d' = .serving := stage_before stage nofun
    refine .inr ?_
    rcases inv.serving d' before with owns | raced
    · exact ⟨d, ne_of_stage refused before nofun, Startup.later (inv.late d' d before owns refused),
        then_now (inv.bound d' (.inr before))⟩
    · exact raced.later

theorem inv_bound (inv : Inv es s) {d : ℕ} (free : s.entry = none) :
    Inv (es ++ [.bound d]) { s.set d .bound with entry := some (.of d) } where
  refused d' stage := List.mem_append_left _ (inv.refused d' (stage_before stage nofun))
  bound d' stage := by
    by_cases same : d' = d
    · subst same
      exact List.mem_append_right _ (List.mem_singleton_self _)
    · exact List.mem_append_left _ (inv.bound d' (by simpa only [stage_set_ne same] using stage))
  late d' _ listens owns _ := by
    cases owns
    exact absurd ((stage_set s d .bound).symm.trans listens) nofun
  begun d' stage := by
    by_cases same : d' = d
    · exact .inl (same ▸ rfl)
    · rw [stage_set_ne same] at stage
      rcases inv.begun d' stage with owns | begun
      · exact absurd (free.symm.trans owns) nofun
      · exact .inr (begun_later begun)
  serving d' stage := by
    rcases inv.serving d' (stage_before stage nofun) with owns | raced
    · exact absurd (free.symm.trans owns) nofun
    · exact .inr raced.later

theorem inv_served (inv : Inv es s) {d : ℕ} (bound : s.stage d = .bound) :
    Inv (es ++ [.served d]) (s.set d .serving) where
  refused d' stage := List.mem_append_left _ (inv.refused d' (stage_before stage nofun))
  bound d' stage := by
    by_cases same : d' = d
    · exact List.mem_append_left _ (inv.bound d' (.inl (same ▸ bound)))
    · exact List.mem_append_left _ (inv.bound d' (by simpa only [stage_set_ne same] using stage))
  late d' d'' listens owns stage := by
    have refused : s.stage d'' = .refused := stage_before stage nofun
    by_cases same : d' = d
    · subst same
      exact then_now (inv.refused d'' refused)
    · rw [stage_set_ne same] at listens
      exact Startup.later (inv.late d' d'' listens owns refused)
  begun d' stage := (inv.begun d' (stage_before stage nofun)).imp_right begun_later
  serving d' stage := by
    by_cases same : d' = d
    · subst same
      exact (inv.begun d' bound).imp_right fun ⟨d'', other, before, after⟩ =>
        ⟨d'', other, then_now before, Startup.later after⟩
    · rw [stage_set_ne same] at stage
      exact (inv.serving d' stage).imp_right Raced.later

theorem step_inv (step : Step s e s') (inv : Inv es s) : Inv (es ++ [e]) s' := by
  cases step with
  | looked | found | answered | stuck | denied | stopped => exact inv.aside nofun nofun nofun
  | refused _ nobody => exact inv_refused inv nobody
  | removed refused => exact inv_removed inv refused
  | bound _ free => exact inv_bound inv free
  | served bound => exact inv_served inv bound

theorem run_inv (run : Run entry es s) : Inv es s := by
  induction run with
  | start => exact inv_start entry
  | step _ step ih => exact step_inv step ih

/-- What follows on `s` while only the start-up `d` runs, and nobody stops it. -/
inductive Alone (d : ℕ) (s : State) : List Event → State → Prop where
  | start : Alone d s [] s
  | step {es : List Event} {e : Event} {s' s'' : State} : Alone d s es s' → Step s' e s'' →
      e.startup = d → e ≠ .stopped d → Alone d s (es ++ [e]) s''

/-- What a start-up that runs alone has found out by the stage it has got to. -/
def Course (d : ℕ) (s : State) (es : List Event) (s' : State) : Prop :=
  match s'.stage d with
  | .absent => es = [] ∧ s' = s
  | .found => es.length = 1 ∧ s' = s.set d .found ∧ s.entry ≠ none
  | .refused => es.length = 2 ∧ s' = s.set d .refused ∧ s.entry ≠ none ∧ ¬s.Listened
  | .cleared => es.length ≤ 3 ∧ s'.entry = none ∧ ¬s.Listened
  | .bound => es.length ≤ 4 ∧ s'.entry = some (.of d) ∧ ¬s.Listened
  | .serving => es.length ≤ 5 ∧ s'.entry = some (.of d) ∧ ¬s.Listened
  | .ended => es.length ≤ 5 ∧
      (s.Listened ∧ s' = s.set d .ended ∨ ¬s.Listened ∧ ∃ e ∈ es, e.Fails)

/- Who has only looked at the name does not listen. -/
theorem listened_found {d : ℕ} (absent : s.stage d = .absent) :
    (s.set d .found).Listened ↔ s.Listened := by
  refine exists_congr fun d' => and_congr_right fun _ => ?_
  by_cases own : d' = d
  · subst own
    simp [absent]
  · rw [stage_set_ne own]

theorem set_set (s : State) (d : ℕ) (one other : Stage) : (s.set d one).set d other = s.set d other := by
  simp [State.set]

theorem step_course {d : ℕ} {s'' : State} (absent : s.stage d = .absent) (course : Course d s es s')
    (step : Step s' e s'') (own : e.startup = d) (goes : e ≠ .stopped d) :
    Course d s (es ++ [e]) s'' := by
  cases step <;> simp only [Event.startup] at own <;> subst own
  case looked stage free =>
    rw [Course, stage] at course
    obtain ⟨rfl, rfl⟩ := course
    rw [Course, stage_set]
    exact ⟨by simp, free, fun ⟨_, owns, _⟩ => nomatch free.symm.trans owns⟩
  case found stage taken =>
    rw [Course, stage] at course
    obtain ⟨rfl, rfl⟩ := course
    rw [Course, stage_set]
    exact ⟨rfl, rfl, taken⟩
  case answered stage listened =>
    rw [Course, stage] at course
    obtain ⟨once, rfl, taken⟩ := course
    rw [Course, stage_set, set_set]
    exact ⟨by simp [once], .inl ⟨(listened_found absent).mp listened, rfl⟩⟩
  case refused stage nobody =>
    rw [Course, stage] at course
    obtain ⟨once, rfl, taken⟩ := course
    rw [Course, stage_set, set_set]
    exact ⟨by simp [once], rfl, taken, mt (listened_found absent).mpr nobody⟩
  case removed stage taken =>
    rw [Course, stage] at course
    obtain ⟨twice, rfl, _, nobody⟩ := course
    rw [Course, State.stage_entry, stage_set]
    exact ⟨by simp [twice], rfl, nobody⟩
  case stuck stage =>
    rw [Course, stage] at course
    obtain ⟨twice, rfl, _, nobody⟩ := course
    rw [Course, stage_set]
    exact ⟨by simp [twice], .inr ⟨nobody, _, List.mem_append_right _ (List.mem_singleton_self _), trivial⟩⟩
  case bound stage free =>
    rw [Course, stage] at course
    obtain ⟨thrice, _, nobody⟩ := course
    rw [Course, State.stage_entry, stage_set]
    exact ⟨by simp; omega, rfl, nobody⟩
  case denied stage =>
    rw [Course, stage] at course
    obtain ⟨thrice, _, nobody⟩ := course
    rw [Course, stage_set]
    exact ⟨by simp; omega, .inr ⟨nobody, _, List.mem_append_right _ (List.mem_singleton_self _), trivial⟩⟩
  case served stage =>
    rw [Course, stage] at course
    obtain ⟨times, owns, nobody⟩ := course
    rw [Course, stage_set]
    exact ⟨by simp; omega, owns, nobody⟩
  case stopped => exact absurd rfl goes

theorem alone_course {d : ℕ} (absent : s.stage d = .absent) (alone : Alone d s es s') :
    Course d s es s' := by
  induction alone with
  | start => rw [Course, absent]; exact ⟨rfl, rfl⟩
  | step _ step own goes ih => exact step_course absent ih step own goes

/- The next call, if it does not fail. -/
theorem alone_goes {d : ℕ} (absent : s.stage d = .absent) (alone : Alone d s es s')
    (still : s'.stage d ≠ .ended) (silent : s'.stage d ≠ .serving) :
    ∃ e s'', Alone d s (es ++ [e]) s'' ∧ ¬e.Fails := by
  have course := alone_course absent alone
  cases stage : s'.stage d <;> rw [Course, stage] at course
  case absent =>
    by_cases free : s'.entry = none
    · exact ⟨_, _, alone.step (.looked stage free) rfl nofun, id⟩
    · exact ⟨_, _, alone.step (.found stage free) rfl nofun, id⟩
  case found =>
    by_cases listened : s'.Listened
    · exact ⟨_, _, alone.step (.answered stage listened) rfl nofun, id⟩
    · exact ⟨_, _, alone.step (.refused stage listened) rfl nofun, id⟩
  case refused =>
    obtain ⟨-, rfl, taken, -⟩ := course
    exact ⟨_, _, alone.step (.removed stage taken) rfl nofun, id⟩
  case cleared => exact ⟨_, _, alone.step (.bound stage course.2.1) rfl nofun, id⟩
  case bound => exact ⟨_, _, alone.step (.served stage) rfl nofun, id⟩
  case serving => exact absurd stage silent
  case ended => exact absurd stage still

theorem alone_short {d : ℕ} (absent : s.stage d = .absent) (alone : Alone d s es s') :
    es.length ≤ 5 := by
  have course := alone_course absent alone
  cases stage : s'.stage d <;> rw [Course, stage] at course
  case absent => simp [course.1]
  all_goals omega

/-- Whoever listens has the name, unless another start-up has removed it that had been refused
before: two daemons listen only after such a race. A start-up that nobody disturbs is through after
five calls at most. It ends where a daemon listens under the name, and otherwise only if the system
fails it; else it takes the name. -/
theorem name_kept (run : Run entry es s) :
    (∀ d, s.stage d = .serving → s.entry = some (.of d) ∨ Raced es d) ∧
      (∀ d d', s.stage d = .serving → s.stage d' = .serving → d ≠ d' → Raced es d ∨ Raced es d') ∧
      ∀ d, s.stage d = .absent → ∀ es' s', Alone d s es' s' →
        es'.length ≤ 5 ∧
        (s'.stage d ≠ .ended → s'.stage d ≠ .serving →
          ∃ e s'', Alone d s (es' ++ [e]) s'' ∧ ¬e.Fails) ∧
        (s'.stage d = .ended →
          s.Listened ∧ s' = s.set d .ended ∨ ¬s.Listened ∧ ∃ e ∈ es', e.Fails) ∧
        (s'.stage d = .serving → ¬s.Listened ∧ s'.entry = some (.of d)) := by
  have inv := run_inv run
  refine ⟨inv.serving, fun d d' here there other => ?_, fun d absent es' s' alone => ?_⟩
  · rcases inv.serving d here with owns | raced
    · refine .inr ((inv.serving d' there).resolve_left fun shared => other ?_)
      cases owns.symm.trans shared
      rfl
    · exact .inl raced
  · have course := alone_course absent alone
    refine ⟨alone_short absent alone, alone_goes absent alone, fun ended => ?_, fun serving => ?_⟩
    · rw [Course, ended] at course
      exact course.2
    · rw [Course, serving] at course
      exact ⟨course.2.2, course.2.1⟩

/-- Two start-ups find the socket of a daemon that has died. -/
def race : List Event :=
  [.found 0, .found 1, .refused 0, .refused 1, .removed 0, .bound 0, .served 0, .removed 1, .bound 1,
    .served 1]

theorem run_race : ∃ s, Run (some .old) race s ∧ s.entry = some (.of 1) ∧ s.stage 0 = .serving ∧
    s.stage 1 = .serving ∧ s.stage 2 = .absent := by
  have nobody : ∀ stage : ℕ → Stage, ¬ (⟨some .old, stage⟩ : State).Listened :=
    fun _ ⟨_, owns, _⟩ => nomatch owns
  have found :=
    ((@Run.start (some .old)).step (.found (d := 0) rfl nofun)).step (.found (d := 1) rfl nofun)
  have refused := (found.step (.refused (d := 0) rfl (nobody _))).step (.refused (d := 1) rfl (nobody _))
  have first :=
    ((refused.step (.removed (d := 0) rfl nofun)).step (.bound (d := 0) rfl rfl)).step (.served (d := 0) rfl)
  have second :=
    ((first.step (.removed (d := 1) rfl nofun)).step (.bound (d := 1) rfl rfl)).step (.served (d := 1) rfl)
  exact ⟨_, second, rfl, rfl, rfl, rfl⟩

/-- A third start-up comes behind them. -/
theorem name_kept_race : ∃ s s', Run (some .old) race s ∧ s.stage 0 = .serving ∧
    s.entry ≠ some (.of 0) ∧ (s.entry = some (.of 0) ∨ Raced race 0) ∧
    Alone 2 s [.found 2, .answered 2] s' ∧
    (s.Listened ∧ s' = s.set 2 .ended ∨
      ¬s.Listened ∧ ∃ e ∈ ([.found 2, .answered 2] : List Event), e.Fails) := by
  obtain ⟨s, run, owns, first, second, absent⟩ := run_race
  have listened : s.Listened := ⟨1, owns, second⟩
  have found := Alone.start.step (.found absent (by simp [owns])) rfl nofun
  have alone := found.step (.answered (stage_set s 2 .found) ((listened_found absent).mpr listened)) rfl nofun
  refine ⟨s, _, run, first, by simp [owns], (name_kept run).1 0 first, alone, ?_⟩
  exact ((name_kept run).2.2 2 absent _ _ alone).2.2.1 (stage_set _ 2 .ended)

end Stallwatch.Startup
