import Stallwatch.Notify.Policy
import Mathlib.Data.List.Chain

/-! What the policy owes to the clock. A queue that is pruned only from the front keeps a
reading from the future, and whatever stands behind it; the pause between two notices holds
for every clock. -/
namespace Stallwatch.Notifier

variable (f : Rounding) (humanName : String → List Char)

theorem settings_after (n : Notifier) (calls : List Call) :
    (History.after (answer f humanName) n calls).settings = n.settings :=
  History.holds (answer f humanName) (fun _ m => m.settings = n.settings) (fun _ => True) rfl
    (fun _ _ _ => trivial)
    (fun _ m c same _ => (considers f humanName m c.incident c.now).settings.trans same) calls trivial

/-- At every notice, what is counted was recorded inside the window that ends then. -/
def InWindow (n : Notifier) (calls : List Call) : Prop :=
  ∀ past c rest, calls = past ++ c :: rest →
    (answer f humanName (History.after (answer f humanName) n past) c).2.isSome = true →
    ∀ worst, c.incident.worst = some worst →
    ∀ b ∈ ((History.after (answer f humanName) n past).accumulate c.incident worst c.now).beats,
      c.now.toNat ≤ b.atUnix.toNat + n.episodeWindow.asSecs.toNat ∧ b.atUnix ≤ c.now

/-- The run lemma: a clock that does not step back. -/
theorem Fresh.inWindow {n : Notifier} (fresh : n.Fresh) {calls : List Call}
    (timely : Call.Timely calls) : InWindow f humanName n calls := by
  intro past c rest split notice worst _ b member
  have upTo : Call.Timely (past ++ [c]) := by
    rw [split, ← List.singleton_append, ← List.append_assoc] at timely
    exact timely.upTo
  have on := ((considers f humanName _ c.incident c.now).isSome_iff.mp notice).1
  have settings := congrArg Notifier.enabled (settings_after f humanName n past)
  have remembers := fresh.run f humanName (settings.symm.trans on) upTo.upTo
  have latest := upTo.latest (answer f humanName) n
  have recorded : c.now = c.incident.atUnix := upTo.recorded c (by simp)
  constructor
  · rw [remembers.accumulated recorded latest] at member
    exact (inside_iff n c.now b).mp (List.of_mem_filter member)
  · rw [accumulate_eq recorded] at member
    rcases List.mem_append.mp ((Window.expire_suffix _ _).subset member) with old | new
    · obtain ⟨e, past, le⟩ := remembers.past b old
      exact UInt64.le_trans le (latest e past)
    · rw [List.mem_singleton.mp new]
      exact UInt64.le_refl c.now

theorem after_idle (n : Notifier) (readings : List UInt64) :
    History.after (answer f humanName) n (readings.map .idle) = n := by
  induction readings using List.reverseRecOn with
  | nil => rfl
  | append_singleton readings now ih =>
    rw [List.map_append, List.map_singleton, History.after_concat, ih, answer, consider]
    split <;> rfl

theorem cutoff_le (n : Notifier) (now : UInt64) : (n.cutoff now).toNat ≤ now.toNat := by
  rw [cutoff, Counter.toNat_saturatingSub]
  exact Nat.sub_le _ _

/- What is not older than the newest reading stays. -/
theorem accumulate_later {n : Notifier} {c : Call} (recorded : c.now = c.incident.atUnix)
    (later : ∀ b ∈ n.beats, c.now.toNat ≤ b.atUnix.toNat) (worst : Stall) :
    n.accumulate c.incident worst c.now =
      { n with beats := n.beats ++ [⟨c.now, worst.deltaUsec⟩] } := by
  have all : ∀ b ∈ n.beats ++ [⟨c.now, worst.deltaUsec⟩], (n.cutoff c.now).toNat ≤ b.atUnix.toNat := by
    intro b member
    rcases List.mem_append.mp member with old | new
    · exact (cutoff_le n c.now).trans (later b old)
    · rw [List.mem_singleton.mp new]
      exact cutoff_le n c.now
  have kept := (accumulate_eq recorded).trans (Window.expire_of_recent all)
  rw [← kept]
  rfl

/-- The default notifier after a capture of one microsecond. -/
def holding (now : UInt64) : Notifier := { Notifier.default with beats := [⟨now, 1⟩] }

theorem after_capture (now : UInt64) :
    (answer f humanName Notifier.default (.capture now 1)).1 = holding now := by
  have kept : Notifier.default.accumulate (Call.capture now 1).incident (Call.stall 1) now =
      holding now :=
    accumulate_later (c := .capture now 1) rfl (by simp [Notifier.default]) (Call.stall 1)
  have short : (holding now).episodeStall.lt Stallwatch.episodeMinStall = true :=
    (by decide : (Duration.fromMicros [1].sum).lt Stallwatch.episodeMinStall = true)
  rw [← kept] at short
  have answered := consider_short f humanName (n := Notifier.default) rfl rfl rfl short
  exact (congrArg Prod.fst answered).trans kept

/-- A minute of stall is announced after a clock that stepped back, with the capture whose
reading is in the future. -/
theorem stepped_back {r s : UInt64} (back : s < r) (pre : List UInt64) (rest : List Call) :
    ¬ InWindow f humanName Notifier.default
      (pre.map .idle ++ [.capture r 1] ++ .capture s 60000000 :: rest) := by
  intro inWindow
  have state : History.after (answer f humanName) Notifier.default
      (pre.map .idle ++ [.capture r 1]) = holding r := by
    rw [History.after_concat, after_idle, after_capture]
  have counted := inWindow (pre.map .idle ++ [.capture r 1]) (.capture s 60000000) rest rfl
  rw [state] at counted
  have later : ∀ b ∈ (holding r).beats, s.toNat ≤ b.atUnix.toNat := fun b member => by
    rw [List.mem_singleton.mp member]
    exact (UInt64.lt_iff_toNat_lt.mp back).le
  have kept : ((holding r).accumulate (Call.capture s 60000000).incident (Call.stall 60000000) s).beats =
      [⟨r, 1⟩, ⟨s, 60000000⟩] :=
    congrArg beats (accumulate_later (c := .capture s 60000000) rfl later (Call.stall 60000000))
  have notice : (answer f humanName (holding r) (.capture s 60000000)).2.isSome = true := by
    refine (considers f humanName _ _ _).isSome_iff.mpr ⟨rfl, Call.stall 60000000, rfl, rfl, ?_, rfl⟩
    refine (short_eq_false_iff _ _ _ _).mpr ?_
    rw [show Call.now (.capture s 60000000) = s from rfl, kept]
    exact (by decide : Stallwatch.episodeMinStall.asNanos ≤
      1000 * ([1, 60000000] : List UInt64).sum.toNat)
  have inside := counted notice (Call.stall 60000000) rfl ⟨r, 1⟩ (by
    rw [show Call.now (.capture s 60000000) = s from rfl, kept]
    simp)
  exact absurd (UInt64.le_iff_toNat_le.mp inside.2) (not_le.mpr (UInt64.lt_iff_toNat_lt.mp back))

/-- The episode is the last window in every run exactly when the clock never steps back. -/
theorem inWindow_iff (readings : List UInt64) :
    (∀ n : Notifier, n.Fresh → ∀ calls : List Call, calls.map Call.now = readings →
        (∀ c ∈ calls, c.now = c.incident.atUnix) → InWindow f humanName n calls) ↔
      readings.Pairwise (· ≤ ·) := by
  constructor
  · intro always
    have trans : IsTrans UInt64 (· ≤ ·) := ⟨fun _ _ _ => UInt64.le_trans⟩
    refine List.isChain_iff_pairwise.mp (List.isChain_iff_forall_rel_of_append_cons_cons.mpr ?_)
    intro r s pre post split
    by_contra back
    refine stepped_back f humanName (UInt64.not_le.mp back) pre (post.map .idle) ?_
    refine always .default ⟨rfl, rfl, rfl⟩ _ ?_ ?_
    · simp [split, Function.comp_def, Call.idle, Call.recorded, Call.capture]
    · simp [Call.idle, Call.recorded, Call.capture, or_imp, forall_and]
  · intro ordered n fresh calls known recorded
    rw [← known, List.pairwise_map] at ordered
    exact fresh.inWindow f humanName ⟨recorded, ordered⟩

/- A reading from the future keeps a capture counted that is older than the window. -/
theorem stale_counted : ¬ InWindow .exact String.toList .default
    [.capture 10000 25000000, .capture 1000 25000000, .capture 2000 25000000] := by
  intro inWindow
  have inside := inWindow [.capture 10000 25000000, .capture 1000 25000000] (.capture 2000 25000000) []
    rfl (by decide) (Call.stall 25000000) rfl ⟨1000, 25000000⟩ (by decide)
  exact absurd inside.1 (by decide)

/-- Between two notices the cooldown has passed. -/
def Spaced (n : Notifier) (calls : List Call) : Prop :=
  (History.trace (answer f humanName) n calls).Pairwise fun a b =>
    a.2.isSome = true → b.2.isSome = true → a.1.now.toNat + n.cooldown.asSecs.toNat ≤ b.1.now.toNat

theorem Considers.unsent {n n' : Notifier} {i : Incident} {now : UInt64}
    (step : Considers n i now n' none) : n'.lastSentUnix = n.lastSentUnix := by
  cases step <;> rfl

theorem Considers.sentAt {n n' : Notifier} {i : Incident} {now : UInt64} {o : Option Notice}
    (step : Considers n i now n' o) (sent : o.isSome = true) :
    n'.lastSentUnix = some now ∧
      ∀ last ∈ n.lastSentUnix, n.cooldown.asSecs.toNat ≤ now.toNat - last.toNat := by
  obtain ⟨_, _, _, _, _, rested⟩ := step.isSome_iff.mp sent
  refine ⟨?_, (cooling_eq_false_iff n now).mp rested⟩
  cases step <;> first | rfl | cases sent

/-- The last notice is the latest, and every two are apart. -/
structure Paced (n₀ : Notifier) (h : History) (n : Notifier) : Prop where
  settings : n.settings = n₀.settings
  latest : ∀ e ∈ h, e.2.isSome = true → ∃ last ∈ n.lastSentUnix, e.1.now.toNat ≤ last.toNat
  apart : h.Pairwise fun a b => a.2.isSome = true → b.2.isSome = true →
    a.1.now.toNat + n₀.cooldown.asSecs.toNat ≤ b.1.now.toNat

theorem Paced.step {n₀ n n' : Notifier} {h : History} {c : Call} {o : Option Notice}
    (paced : Paced n₀ h n) (step : Considers n c.incident c.now n' o)
    (positive : 0 < n₀.cooldown.asSecs.toNat) : Paced n₀ (h ++ [(c, o)]) n' := by
  have settings := step.settings.trans paced.settings
  cases o with
  | none =>
    refine ⟨settings, ?_, ?_⟩
    · intro e member sent
      rw [step.unsent]
      rcases List.mem_append.mp member with old | new
      · exact paced.latest e old sent
      · rw [List.mem_singleton.mp new] at sent
        cases sent
    · refine List.pairwise_append.mpr ⟨paced.apart, List.pairwise_singleton _ _, ?_⟩
      intro a _ b new _ sent
      rw [List.mem_singleton.mp new] at sent
      cases sent
  | some notice =>
    obtain ⟨now, rested⟩ := step.sentAt rfl
    rw [settings_cooldown paced.settings] at rested
    have before : ∀ e ∈ h, e.2.isSome = true →
        e.1.now.toNat + n₀.cooldown.asSecs.toNat ≤ c.now.toNat := by
      intro e member sent
      obtain ⟨last, known, le⟩ := paced.latest e member sent
      have pause := rested last known
      omega
    refine ⟨settings, ?_, ?_⟩
    · intro e member sent
      refine ⟨c.now, now, ?_⟩
      rcases List.mem_append.mp member with old | new
      · exact (Nat.le_add_right _ _).trans (before e old sent)
      · rw [List.mem_singleton.mp new]
    · refine List.pairwise_append.mpr ⟨paced.apart, List.pairwise_singleton _ _, ?_⟩
      intro a member b new sent _
      rw [List.mem_singleton.mp new]
      exact before a member sent

/-- A cooldown of a second or more holds whatever the clock does, and only a notice moves
the time it is counted from. -/
theorem notices_spaced (n : Notifier) (calls : List Call) :
    (0 < n.cooldown.asSecs.toNat → Spaced f humanName n calls) ∧
      ∀ past c rest, calls = past ++ c :: rest →
        (answer f humanName (History.after (answer f humanName) n past) c).2 = none →
        (answer f humanName (History.after (answer f humanName) n past) c).1.lastSentUnix =
          (History.after (answer f humanName) n past).lastSentUnix := by
  constructor
  · intro positive
    have paced := History.holds (answer f humanName) (Paced n) (fun _ => True)
      ⟨rfl, by simp, List.Pairwise.nil⟩ (fun _ _ _ => trivial)
      (fun _ m c paced _ => paced.step (considers f humanName m c.incident c.now) positive)
      calls trivial
    exact paced.apart
  · intro past c rest _ silent
    have step := considers f humanName (History.after (answer f humanName) n past) c.incident c.now
    rw [← answer, silent] at step
    exact step.unsent

/- Without a cooldown the clock may step back between two notices. -/
theorem uncooled_unspaced : ¬ Spaced .exact String.toList
    (.new true defaultMinPeak (.fromSecs 0)) [.capture 100 60000000, .capture 50 60000000] := by
  unfold Spaced
  decide

end Stallwatch.Notifier
