import Stallwatch.Notify.Clock

/-! Captures that were held back, counted beside the notifier. -/
namespace Stallwatch.Notifier

/-- Captures with a stall and without a notice: those before the last notice, and those
since. A count of 32 bits stops at its largest value. -/
def account (t : ℕ × ℕ) (e : Call × Option Notice) : ℕ × ℕ :=
  if e.2.isSome then (t.1 + t.2, 0)
  else if e.1.incident.worst.isSome then (t.1, min (t.2 + 1) (2 ^ 32 - 1))
  else t

def heldBack (h : History) : ℕ × ℕ := h.foldl account (0, 0)

/-- What the notices report. -/
def told (h : History) : ℕ := (h.map fun e => e.2.elim 0 fun notice => notice.alsoSuppressed.toNat).sum

theorem heldBack_concat (h : History) (e : Call × Option Notice) :
    heldBack (h ++ [e]) = account (heldBack h) e := by
  rw [heldBack, List.foldl_append]
  rfl

theorem told_concat (h : History) (c : Call) (o : Option Notice) :
    told (h ++ [(c, o)]) = told h + o.elim 0 fun notice => notice.alsoSuppressed.toNat := by
  simp [told]

/-- The capture does not make the episode long enough. -/
def Below (n : Notifier) (c : Call) : Prop :=
  c.incident.dismissed = false ∧
    ∃ worst, c.incident.worst = some worst ∧ n.short c.incident worst c.now = true

/-- The notifier never counts too much. -/
structure Bounded (h : History) (n : Notifier) : Prop where
  told : told h ≤ (heldBack h).1
  pending : n.suppressed.toNat ≤ (heldBack h).2
  saturated : (heldBack h).2 ≤ 2 ^ 32 - 1

/-- Every capture that was held back is counted. -/
def Exact (h : History) (n : Notifier) : Prop :=
  told h + n.suppressed.toNat = (heldBack h).1 + (heldBack h).2

section Steps

variable {n n' : Notifier} {h : History} {c : Call} {o : Option Notice}

theorem suppress_pending (n : Notifier) :
    n.suppress.suppressed.toNat = min (n.suppressed.toNat + 1) (2 ^ 32 - 1) :=
  Counter.toNat_saturatingSucc n.suppressed

theorem account_sent (t : ℕ × ℕ) (c : Call) (notice : Notice) :
    account t (c, some notice) = (t.1 + t.2, 0) := rfl

theorem account_idle (t : ℕ × ℕ) {c : Call} (nothing : c.incident.worst = none) :
    account t (c, none) = t := by
  simp [account, nothing]

theorem account_held (t : ℕ × ℕ) {c : Call} {worst : Stall} (stalled : c.incident.worst = some worst) :
    account t (c, none) = (t.1, min (t.2 + 1) (2 ^ 32 - 1)) := by
  simp [account, stalled]

/-- What a call does to the reports, to the pending count and to what was held back. -/
inductive Tallies (h : History) (n : Notifier) (c : Call) (h' : History) (n' : Notifier) : Prop
  | sent (above : ¬ Below n c) (told : told h' = told h + n.suppressed.toNat)
      (pending : n'.suppressed.toNat = 0)
      (held : heldBack h' = ((heldBack h).1 + (heldBack h).2, 0))
  | idle (above : ¬ Below n c) (told : told h' = told h)
      (pending : n'.suppressed.toNat = n.suppressed.toNat) (held : heldBack h' = heldBack h)
  | counted (above : ¬ Below n c) (told : told h' = told h)
      (pending : n'.suppressed.toNat = min (n.suppressed.toNat + 1) (2 ^ 32 - 1))
      (held : heldBack h' = ((heldBack h).1, min ((heldBack h).2 + 1) (2 ^ 32 - 1)))
  | forgotten (below : Below n c) (told : told h' = told h)
      (pending : n'.suppressed.toNat = n.suppressed.toNat)
      (held : heldBack h' = ((heldBack h).1, min ((heldBack h).2 + 1) (2 ^ 32 - 1)))

theorem Considers.tallies (step : Considers n c.incident c.now n' o) (enabled : n.enabled = true) :
    Tallies h n c (h ++ [(c, o)]) n' := by
  cases step with
  | disabled off => simp [enabled] at off
  | idle nothing =>
    refine .idle ?_ (told_concat h c none) rfl ?_
    · rintro ⟨_, worst, stalled, _⟩
      simp [nothing] at stalled
    · rw [heldBack_concat, account_idle _ nothing]
  | dismissed worst _ stalled dismissed =>
    refine .counted ?_ (told_concat h c none) (suppress_pending n) ?_
    · rintro ⟨kept, _⟩
      simp [dismissed] at kept
    · rw [heldBack_concat, account_held _ stalled]
  | below worst _ stalled kept short =>
    refine .forgotten ⟨kept, worst, stalled, short⟩ (told_concat h c none) rfl ?_
    rw [heldBack_concat, account_held _ stalled]
  | cooling worst _ stalled kept enough cooling =>
    refine .counted ?_ (told_concat h c none) (suppress_pending _) ?_
    · rintro ⟨_, other, same, short⟩
      simp_all
    · rw [heldBack_concat, account_held _ stalled]
  | sent worst notice _ stalled kept enough rested tells =>
    refine .sent ?_ ?_ rfl ?_
    · rintro ⟨_, other, same, short⟩
      simp_all
    · rw [told_concat, ← tells]
      rfl
    · rw [heldBack_concat, account_sent]

theorem Tallies.bounded {h' : History} (tallies : Tallies h n c h' n') (bounded : Bounded h n) :
    Bounded h' n' := by
  obtain ⟨before, now, saturated⟩ := bounded
  cases tallies with
  | sent _ told pending held =>
    exact ⟨by rw [told, held]; exact Nat.add_le_add before now, by rw [pending, held],
      by rw [held]; exact Nat.zero_le _⟩
  | idle _ told pending held => exact ⟨by rwa [told, held], by rwa [pending, held], by rwa [held]⟩
  | counted _ told pending held =>
    exact ⟨by rwa [told, held], by rw [pending, held]; omega, by rw [held]; omega⟩
  | forgotten _ told pending held =>
    exact ⟨by rwa [told, held], by rw [pending, held]; omega, by rw [held]; omega⟩

/- The count stays exact at every call but a capture below the threshold, and there it stays
exact only when it is full. -/
theorem Tallies.exact_iff {h' : History} (tallies : Tallies h n c h' n') (bounded : Bounded h n)
    (exact : Exact h n) : Exact h' n' ↔ (Below n c → n.suppressed.toNat = 2 ^ 32 - 1) := by
  obtain ⟨before, now, saturated⟩ := bounded
  unfold Exact at exact ⊢
  cases tallies with
  | sent above told pending held =>
    rw [told, pending, held]
    exact iff_of_true (by omega) fun below => absurd below above
  | idle above told pending held =>
    rw [told, pending, held]
    exact iff_of_true exact fun below => absurd below above
  | counted above told pending held =>
    rw [told, pending, held]
    exact iff_of_true (by omega) fun below => absurd below above
  | forgotten below told pending held =>
    rw [told, pending, held]
    simp only [below, true_implies]
    omega

end Steps

section Runs

variable (f : Rounding) (humanName : String → List Char) {n : Notifier}

theorem Fresh.bounded (fresh : n.Fresh) (enabled : n.enabled = true) (calls : List Call) :
    Bounded (History.trace (answer f humanName) n calls)
      (History.after (answer f humanName) n calls) := by
  have run := History.holds (answer f humanName)
    (fun h m => m.settings = n.settings ∧ Bounded h m) (fun _ => True)
    ⟨rfl, by simp [Notifier.told], by simp [fresh.told], by simp [heldBack]⟩ (fun _ _ _ => trivial)
    (fun h m c inv _ => by
      have step := considers f humanName m c.incident c.now
      have on : m.enabled = true := (congrArg Notifier.enabled inv.1).trans enabled
      exact ⟨step.settings.trans inv.1, (step.tallies on).bounded inv.2⟩)
    calls trivial
  exact run.2

def Accounted (n : Notifier) (calls : List Call) : Prop :=
  Exact (History.trace (answer f humanName) n calls) (History.after (answer f humanName) n calls)

theorem accounted_concat_iff (fresh : n.Fresh) (enabled : n.enabled = true) {past : List Call}
    (accounted : Accounted f humanName n past) (c : Call) :
    Accounted f humanName n (past ++ [c]) ↔
      (Below (History.after (answer f humanName) n past) c →
        (History.after (answer f humanName) n past).suppressed.toNat = 2 ^ 32 - 1) := by
  have bounded := fresh.bounded f humanName enabled past
  have on : (History.after (answer f humanName) n past).enabled = true :=
    (congrArg Notifier.enabled (settings_after f humanName n past)).trans enabled
  have step := considers f humanName (History.after (answer f humanName) n past) c.incident c.now
  unfold Accounted
  rw [History.trace_concat, History.after_concat]
  exact (step.tallies on).exact_iff bounded accounted

/-- What was held back is counted throughout a run exactly when no capture is below the
threshold while the count has room. -/
theorem accounted_iff (fresh : n.Fresh) (enabled : n.enabled = true) (calls : List Call) :
    (∀ past rest, calls = past ++ rest → Accounted f humanName n past) ↔
      ∀ past c rest, calls = past ++ c :: rest →
        Below (History.after (answer f humanName) n past) c →
        (History.after (answer f humanName) n past).suppressed.toNat = 2 ^ 32 - 1 := by
  constructor
  · intro always past c rest split
    have next := always (past ++ [c]) rest (by simp [split])
    exact (accounted_concat_iff f humanName fresh enabled (always past _ split) c).mp next
  · intro full past rest split
    induction past using List.reverseRecOn generalizing rest with
    | nil => simp [Accounted, Exact, told, heldBack, fresh.told]
    | append_singleton past c ih =>
      have split : calls = past ++ c :: rest := by simpa using split
      exact (accounted_concat_iff f humanName fresh enabled (ih (c :: rest) split) c).mpr
        (full past c rest split)

/- A first capture below the threshold is not counted. -/
theorem forgotten : ¬ Accounted .exact String.toList .default [.capture 1000 400000] := by
  unfold Accounted Exact
  decide

theorem accounted_iff_one :
    (∀ past rest, [.capture 1000 400000] = past ++ rest →
        Accounted .exact String.toList .default past) ↔
      ∀ past c rest, [.capture 1000 400000] = past ++ c :: rest →
        Below (History.after (answer .exact String.toList) .default past) c →
        (History.after (answer .exact String.toList) .default past).suppressed.toNat = 2 ^ 32 - 1 :=
  accounted_iff .exact String.toList ⟨rfl, rfl, rfl⟩ rfl [.capture 1000 400000]

end Runs

end Stallwatch.Notifier
