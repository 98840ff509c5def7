import Stallwatch.Notify

/-! The policy stated on the history of calls, and what the notifier remembers of it. -/
namespace Stallwatch

/-- An incident to consider and the clock's reading. -/
structure Call where
  incident : Incident
  now : UInt64

namespace Call

/-- The capture with its stall, where it counts towards an episode. -/
def beat (c : Call) : Option Beat :=
  if c.incident.dismissed then none else c.incident.worst.map fun s => ⟨c.now, s.deltaUsec⟩

def stallUsec (c : Call) : ℕ := c.incident.worst.elim 0 fun s => s.deltaUsec.toNat

/-- Not dismissed, and not older than the window. -/
def counts (now : UInt64) (window : Duration) (c : Call) : Bool :=
  !c.incident.dismissed && now.toNat ≤ c.now.toNat + window.asSecs.toNat

/-- The stall of the calls that count. -/
def episodeUsec (now : UInt64) (window : Duration) (calls : List Call) : ℕ :=
  ((calls.filter (counts now window)).map stallUsec).sum

/-- Every incident is considered when it was recorded, and the clock does not step back. -/
structure Timely (calls : List Call) : Prop where
  recorded : ∀ c ∈ calls, c.now = c.incident.atUnix
  ordered : calls.Pairwise fun a b => a.now ≤ b.now

/-- A call with these stalls, considered when they were recorded. -/
def recorded (now : UInt64) (stalls : List Stall) : Call :=
  ⟨⟨now, 60000000, ["io"], stalls, [], [], []⟩, now⟩

def idle (now : UInt64) : Call := recorded now []

def stall (usec : UInt64) : Stall :=
  ⟨"com.mitchellh.ghostty", "/sys/fs/cgroup/app.slice/ghostty.service", .io, .full, usec,
    .whole 99, .whole 99⟩

def capture (now usec : UInt64) : Call := recorded now [stall usec]

theorem Timely.upTo {calls rest : List Call} (timely : Timely (calls ++ rest)) : Timely calls :=
  ⟨fun a member => timely.recorded a (List.mem_append_left _ member),
    (List.pairwise_append.mp timely.ordered).1⟩

/- The newest call is the latest. -/
theorem Timely.latest {calls : List Call} {c : Call} (timely : Timely (calls ++ [c])) {σ ο : Type}
    (step : σ → Call → σ × ο) (s : σ) : ∀ e ∈ History.trace step s calls, e.1.now ≤ c.now := by
  intro e member
  have known : e.1 ∈ calls := by
    rw [← History.map_fst_trace step s calls]
    exact List.mem_map_of_mem member
  exact (List.pairwise_append.mp timely.ordered).2.2 e.1 known c (by simp)

end Call

namespace Notifier

/-- What is asked of a notifier and what it answers. -/
abbrev History := List (Call × Option Notice)

def sinceNotice (h : History) : List Call := (History.since Option.isSome h).map Prod.fst

def lastNotice (h : History) : Option Call := History.last Option.isSome h

/-- The policy, from the history of calls alone. -/
structure Warranted (n : Notifier) (h : History) (c : Call) : Prop where
  stalled : c.incident.worst.isSome = true
  kept : c.incident.dismissed = false
  enough : n.episodeMinStall.asNanos ≤
    1000 * Call.episodeUsec c.now n.episodeWindow (sinceNotice h ++ [c])
  rested : ∀ last ∈ lastNotice h, last.now.toNat + n.cooldown.asSecs.toNat ≤ c.now.toNat

/-- A notifier that has considered nothing yet. -/
structure Fresh (n : Notifier) : Prop where
  unsent : n.lastSentUnix = none
  told : n.suppressed = 0
  quiet : n.beats = []

/-- What a configuration sets. -/
def settings (n : Notifier) : Notifier := { n with lastSentUnix := none, suppressed := 0, beats := [] }

theorem Considers.settings {n n' : Notifier} {i : Incident} {now : UInt64} {o : Option Notice}
    (step : Considers n i now n' o) : n'.settings = n.settings := by
  cases step <;> rfl

theorem settings_minStall {n n' : Notifier} (same : n'.settings = n.settings) :
    n'.episodeMinStall = n.episodeMinStall := by
  have field := congrArg Notifier.episodeMinStall same
  exact field

theorem settings_cooldown {n n' : Notifier} (same : n'.settings = n.settings) :
    n'.cooldown = n.cooldown := by
  have field := congrArg Notifier.cooldown same
  exact field

theorem sinceNotice_concat (h : History) (c : Call) (o : Option Notice) :
    sinceNotice (h ++ [(c, o)]) = if o.isSome then [] else sinceNotice h ++ [c] := by
  rw [sinceNotice, History.since_concat]
  cases o <;> simp [sinceNotice]

theorem lastNotice_concat (h : History) (c : Call) (o : Option Notice) :
    lastNotice (h ++ [(c, o)]) = if o.isSome then some c else lastNotice h :=
  History.last_concat _ h c o

/-- A beat of the window that ends now. -/
def inside (n : Notifier) (now : UInt64) (b : Beat) : Bool := (n.cutoff now).toNat ≤ b.atUnix.toNat

theorem inside_iff (n : Notifier) (now : UInt64) (b : Beat) :
    n.inside now b = true ↔ now.toNat ≤ b.atUnix.toNat + n.episodeWindow.asSecs.toNat := by
  simp only [inside, cutoff, Counter.toNat_saturatingSub, decide_eq_true_eq]
  omega

/-- The state that a history leaves behind. Older beats may still be in the queue, but they
are outside every later window. -/
structure Remembers (n₀ : Notifier) (h : History) (n : Notifier) : Prop where
  settings : n.settings = n₀.settings
  sent : n.lastSentUnix = (lastNotice h).map Call.now
  ordered : Window.Ordered (fun b => b.atUnix.toNat) n.beats
  past : ∀ b ∈ n.beats, ∃ e ∈ h, b.atUnix ≤ e.1.now
  beats : ∀ now, (∀ e ∈ h, e.1.now ≤ now) →
    n.beats.filter (n₀.inside now) = ((sinceNotice h).filterMap Call.beat).filter (n₀.inside now)

theorem Fresh.remembers {n : Notifier} (fresh : n.Fresh) : Remembers n [] n where
  settings := rfl
  sent := fresh.unsent
  ordered := by
    rw [fresh.quiet]
    exact List.Pairwise.nil
  past := by simp [fresh.quiet]
  beats := by simp [fresh.quiet, sinceNotice]

/-- The beat of a call that is considered when it was recorded. -/
theorem max_cutoff (n : Notifier) (now : UInt64) : max now (n.cutoff now) = now := by
  change (if now ≤ n.cutoff now then n.cutoff now else now) = now
  split
  · rename_i le
    rw [UInt64.le_iff_toNat_le] at le
    rw [← UInt64.toNat_inj]
    rw [cutoff, Counter.toNat_saturatingSub] at le ⊢
    omega
  · rfl

section Accumulating

variable {n₀ n : Notifier} {h : History} {c : Call} {worst : Stall}

theorem Remembers.ordered_concat (remembers : Remembers n₀ h n) (latest : ∀ e ∈ h, e.1.now ≤ c.now)
    (usec : UInt64) : Window.Ordered (fun b => b.atUnix.toNat) (n.beats ++ [⟨c.now, usec⟩]) := by
  refine remembers.ordered.concat fun b member => ?_
  obtain ⟨e, past, le⟩ := remembers.past b member
  exact UInt64.le_iff_toNat_le.mp (UInt64.le_trans le (latest e past))

theorem accumulate_eq (recorded : c.now = c.incident.atUnix) :
    (n.accumulate c.incident worst c.now).beats =
      Window.expire (fun b => b.atUnix.toNat) (n.cutoff c.now).toNat
        (n.beats ++ [⟨c.now, worst.deltaUsec⟩]) := by
  rw [accumulate, ← recorded, max_cutoff]

theorem Remembers.cutoff (remembers : Remembers n₀ h n) (now : UInt64) :
    n.cutoff now = n₀.cutoff now := by
  have window := congrArg Notifier.episodeWindow remembers.settings
  exact congrArg (fun w : Duration => Counter.saturatingSub now w.asSecs) window

/-- What counts at a call is what the policy counts. -/
theorem Remembers.accumulated (remembers : Remembers n₀ h n) (recorded : c.now = c.incident.atUnix)
    (latest : ∀ e ∈ h, e.1.now ≤ c.now) :
    (n.accumulate c.incident worst c.now).beats =
      ((sinceNotice h).filterMap Call.beat ++ [Beat.mk c.now worst.deltaUsec]).filter
        (n₀.inside c.now) := by
  have pruned := Window.expire_eq_filter
    (remembers.ordered_concat latest worst.deltaUsec) (n₀.cutoff c.now).toNat
  rw [accumulate_eq recorded, remembers.cutoff, pruned, List.filter_append, List.filter_append,
    ← remembers.beats c.now latest]
  rfl

theorem Remembers.accumulate (remembers : Remembers n₀ h n) (recorded : c.now = c.incident.atUnix)
    (latest : ∀ e ∈ h, e.1.now ≤ c.now) (stalled : c.incident.worst = some worst)
    (kept : c.incident.dismissed = false) :
    Remembers n₀ (h ++ [(c, none)]) (n.accumulate c.incident worst c.now) where
  settings := remembers.settings
  sent := by
    rw [lastNotice_concat]
    exact remembers.sent
  ordered := by
    rw [accumulate_eq recorded]
    exact (remembers.ordered_concat latest worst.deltaUsec).expire _
  past := by
    rw [accumulate_eq recorded]
    intro b member
    rcases List.mem_append.mp ((Window.expire_suffix _ _).subset member) with old | new
    · obtain ⟨e, past, le⟩ := remembers.past b old
      exact ⟨e, List.mem_append_left _ past, le⟩
    · rw [List.mem_singleton.mp new]
      exact ⟨(c, none), by simp, UInt64.le_refl c.now⟩
  beats := by
    intro now later
    have le : c.now ≤ now := later (c, none) (by simp)
    have before : ∀ e ∈ h, e.1.now ≤ now := fun e member => later e (List.mem_append_left _ member)
    have cutoffs : (n.cutoff c.now).toNat ≤ (n₀.cutoff now).toNat := by
      rw [remembers.cutoff, Notifier.cutoff, Notifier.cutoff, Counter.toNat_saturatingSub,
        Counter.toNat_saturatingSub]
      have := UInt64.le_iff_toNat_le.mp le
      omega
    have beat : c.beat = some ⟨c.now, worst.deltaUsec⟩ := by simp [Call.beat, kept, stalled]
    have pruned := Window.filter_expire (remembers.ordered_concat latest worst.deltaUsec) cutoffs
    rw [accumulate_eq recorded, sinceNotice_concat]
    refine pruned.trans ?_
    have recent := remembers.beats now before
    rw [if_neg (by simp), List.filterMap_append, List.filter_append, List.filter_append, ← recent,
      List.filterMap_cons_some beat]
    rfl

end Accumulating

/-- A call that counts for nothing changes nothing that is remembered. -/
theorem Remembers.skip {n₀ n : Notifier} {h : History} {c : Call} (remembers : Remembers n₀ h n)
    (nothing : c.beat = none) (n' : Notifier) (settings : n'.settings = n.settings)
    (sent : n'.lastSentUnix = n.lastSentUnix) (beats : n'.beats = n.beats) :
    Remembers n₀ (h ++ [(c, none)]) n' where
  settings := settings.trans remembers.settings
  sent := by
    rw [lastNotice_concat]
    exact sent.trans remembers.sent
  ordered := by
    rw [beats]
    exact remembers.ordered
  past := by
    rw [beats]
    intro b member
    obtain ⟨e, past, le⟩ := remembers.past b member
    exact ⟨e, List.mem_append_left _ past, le⟩
  beats := by
    intro now later
    rw [beats, remembers.beats now fun e member => later e (List.mem_append_left _ member),
      sinceNotice_concat, if_neg (by simp), List.filterMap_append]
    simp [nothing]

theorem Remembers.send {n₀ n : Notifier} {h : History} (remembers : Remembers n₀ h n) (c : Call)
    (notice : Notice) :
    Remembers n₀ (h ++ [(c, some notice)])
      { n with suppressed := 0, lastSentUnix := some c.now, beats := [] } where
  settings := remembers.settings
  sent := by simp [lastNotice_concat]
  ordered := List.Pairwise.nil
  past := by simp
  beats := by simp [sinceNotice_concat]

theorem Remembers.step {n₀ n n' : Notifier} {h : History} {c : Call} {o : Option Notice}
    (remembers : Remembers n₀ h n) (step : Considers n c.incident c.now n' o)
    (enabled : n₀.enabled = true) (timely : Call.Timely (h.map Prod.fst ++ [c])) :
    Remembers n₀ (h ++ [(c, o)]) n' := by
  have recorded : c.now = c.incident.atUnix := timely.recorded c (by simp)
  have latest : ∀ e ∈ h, e.1.now ≤ c.now := fun e member =>
    (List.pairwise_append.mp timely.ordered).2.2 _ (List.mem_map_of_mem member) c (by simp)
  have on : n.enabled = true := (congrArg Notifier.enabled remembers.settings).trans enabled
  cases step with
  | disabled off => simp [on] at off
  | idle nothing => exact remembers.skip (by simp [Call.beat, nothing]) n rfl rfl rfl
  | dismissed worst _ stalled dismissed =>
    exact remembers.skip (by simp [Call.beat, dismissed]) n.suppress rfl rfl rfl
  | below worst _ stalled kept short => exact remembers.accumulate recorded latest stalled kept
  | cooling worst _ stalled kept enough cooling =>
    have held := remembers.accumulate recorded latest stalled kept
    exact ⟨held.settings, held.sent, held.ordered, held.past, held.beats⟩
  | sent worst notice _ stalled kept enough rested tells => exact remembers.send c notice

theorem inside_beat (n : Notifier) (now usec : UInt64) {c : Call} (kept : c.incident.dismissed = false) :
    n.inside now ⟨c.now, usec⟩ = Call.counts now n.episodeWindow c := by
  rw [Bool.eq_iff_iff, inside_iff, Call.counts, kept]
  simp

/-- The stall in the beats of some calls. -/
theorem sum_beats (n : Notifier) (now : UInt64) (calls : List Call) :
    (((calls.filterMap Call.beat).filter (n.inside now)).map fun b => b.stalledUsec.toNat).sum =
      Call.episodeUsec now n.episodeWindow calls := by
  induction calls with
  | nil => rfl
  | cons c calls ih =>
    rw [Call.episodeUsec] at ih ⊢
    cases kept : c.incident.dismissed with
    | true =>
      rw [List.filterMap_cons_none (by simp [Call.beat, kept]), ih,
        List.filter_cons_of_neg (by simp [Call.counts, kept])]
    | false =>
      cases stalled : c.incident.worst with
      | none =>
        rw [List.filterMap_cons_none (by simp [Call.beat, stalled]), ih, List.filter_cons]
        split
        · simp [Call.stallUsec, stalled]
        · rfl
      | some worst =>
        have beat : c.beat = some ⟨c.now, worst.deltaUsec⟩ := by simp [Call.beat, kept, stalled]
        rw [List.filterMap_cons_some beat, List.filter_cons, List.filter_cons, inside_beat n _ _ kept]
        split
        · simp [Call.stallUsec, stalled, ih]
        · exact ih

theorem Remembers.episode {n₀ n : Notifier} {h : History} {c : Call} {worst : Stall}
    (remembers : Remembers n₀ h n) (recorded : c.now = c.incident.atUnix)
    (latest : ∀ e ∈ h, e.1.now ≤ c.now) (stalled : c.incident.worst = some worst)
    (kept : c.incident.dismissed = false)
    (fits : Call.episodeUsec c.now n₀.episodeWindow (sinceNotice h ++ [c]) < 2 ^ 64) :
    ((n.accumulate c.incident worst c.now).beats.map Beat.stalledUsec).sum.toNat =
      Call.episodeUsec c.now n₀.episodeWindow (sinceNotice h ++ [c]) := by
  have beat : [c].filterMap Call.beat = [⟨c.now, worst.deltaUsec⟩] := by
    simp [Call.beat, kept, stalled]
  have sums := sum_beats n₀ c.now (sinceNotice h ++ [c])
  rw [List.filterMap_append, beat, ← remembers.accumulated recorded latest] at sums
  rw [← sums] at fits ⊢
  rw [Counter.toNat_sum (by rwa [List.map_map]), List.map_map]
  rfl

section Runs

variable (f : Rounding) (humanName : String → List Char) {n : Notifier}

def answer (n : Notifier) (c : Call) : Notifier × Option Notice :=
  consider f humanName n c.incident c.now

/-- The run lemma. -/
theorem Fresh.run (fresh : n.Fresh) (enabled : n.enabled = true) {calls : List Call}
    (timely : Call.Timely calls) :
    Remembers n (History.trace (answer f humanName) n calls)
      (History.after (answer f humanName) n calls) :=
  History.holds (answer f humanName) (Remembers n) Call.Timely fresh.remembers (fun _ _ => Call.Timely.upTo)
    (fun _ m c remembers timely =>
      remembers.step (considers f humanName m c.incident c.now) enabled timely)
    calls timely

/-- A notice is returned exactly when the policy warrants it. -/
theorem notice_iff_warranted (fresh : n.Fresh) (enabled : n.enabled = true) (past : List Call)
    (c : Call) (timely : Call.Timely (past ++ [c]))
    (fits : Call.episodeUsec c.now n.episodeWindow
      (sinceNotice (History.trace (answer f humanName) n past) ++ [c]) < 2 ^ 64) :
    (answer f humanName (History.after (answer f humanName) n past) c).2.isSome = true ↔
      Warranted n (History.trace (answer f humanName) n past) c := by
  have remembers := fresh.run f humanName enabled timely.upTo
  have latest := timely.latest (answer f humanName) n
  generalize History.trace (answer f humanName) n past = h at remembers latest fits ⊢
  generalize History.after (answer f humanName) n past = m at remembers ⊢
  have recorded : c.now = c.incident.atUnix := timely.recorded c (by simp)
  have settings := remembers.settings
  have on : m.enabled = true := (congrArg Notifier.enabled settings).trans enabled
  have minStall := settings_minStall settings
  have cooldown := settings_cooldown settings
  have rested : m.cooling c.now = false ↔
      ∀ last ∈ lastNotice h, last.now.toNat + n.cooldown.asSecs.toNat ≤ c.now.toNat := by
    rw [cooling_eq_false_iff, remembers.sent, cooldown]
    cases sent : lastNotice h with
    | none => simp
    | some last =>
      obtain ⟨e, member, here⟩ := List.mem_map.mp (History.mem_of_last _ h last sent)
      have before := UInt64.le_iff_toNat_le.mp (latest e member)
      rw [here] at before
      simp only [Option.map_some, Option.mem_some_iff, forall_eq']
      omega
  rw [answer, (considers f humanName m c.incident c.now).isSome_iff]
  constructor
  · rintro ⟨-, worst, stalled, kept, enough, cool⟩
    rw [short_eq_false_iff, remembers.episode recorded latest stalled kept fits, minStall] at enough
    exact ⟨by rw [stalled, Option.isSome_some], kept, enough, rested.mp cool⟩
  · intro warranted
    obtain ⟨worst, stalled⟩ := Option.isSome_iff_exists.mp warranted.stalled
    refine ⟨on, worst, stalled, warranted.kept, ?_, rested.mpr warranted.rested⟩
    rw [short_eq_false_iff, remembers.episode recorded latest stalled warranted.kept fits, minStall]
    exact warranted.enough

/- A second notice six hours after the first. -/
theorem notice_iff_warranted_later :
    (answer .exact String.toList (History.after (answer .exact String.toList) Notifier.default
      [.capture 1000 60000000]) (.capture 22600 60000000)).2.isSome = true ↔
      Warranted Notifier.default (History.trace (answer .exact String.toList) Notifier.default
        [.capture 1000 60000000]) (.capture 22600 60000000) :=
  notice_iff_warranted .exact String.toList ⟨rfl, rfl, rfl⟩ rfl [.capture 1000 60000000]
    (.capture 22600 60000000) ⟨by decide, by decide⟩ (by decide)

end Runs

end Notifier

end Stallwatch
