import Stallwatch.Notify.Policy
import Stallwatch.Pathology.Exported

/-! What clears itself and was caused by nobody interrupts nobody: the notifier says what it
would say without those captures. -/
namespace Stallwatch.Pathology

open Notifier

variable {f : Rounding}

/-- A backlog, and nothing else to be found. -/
def backlogged (f : Rounding) (m : Findings) : Bool :=
  m.volumes.any (fun v => (checkDiscard f v).isSome) &&
    m.volumes.all (fun v => (checkAllocation f v).isNone) &&
    m.hwmon.all fun h => (checkHwmon f h).isEmpty

section Scan

theorem assess_lasting {label : List Char} {tempC : F64} {critC : Option F64} {w : Warning}
    (told : assess f label tempC critC = some w) : w.transient = false := by
  unfold assess at told
  split at told
  · split at told
    · cases told
      rfl
    · split at told
      · cases told
        rfl
      · cases told
  · cases told

theorem checkHwmon_lasting {h : Metrics.Hwmon} {w : Warning} (told : w ∈ checkHwmon f h) :
    w.transient = false := by
  obtain ⟨idx, r, _, _, _, assessed⟩ := mem_checkHwmon.mp told
  exact assess_lasting assessed

theorem checkDiscard_transient {v : Volume} {w : Warning} (told : w ∈ checkDiscard f v) :
    w.transient = true := by
  obtain ⟨_, _, _, rfl⟩ := mem_checkDiscard.mp told
  rfl

theorem checkAllocation_lasting {v : Volume} {w : Warning} (told : w ∈ checkAllocation f v) :
    w.transient = false := by
  obtain ⟨_, _, _, _, _, rfl⟩ := mem_checkAllocation.mp told
  rfl

theorem mem_scan {m : Findings} {w : Warning} : w ∈ scan f m ↔
    (∃ v ∈ m.volumes, w ∈ checkDiscard f v ∨ w ∈ checkAllocation f v) ∨
      ∃ h ∈ m.hwmon, w ∈ checkHwmon f h := by
  simp [scan, Volume.check, List.mem_flatMap]

/- Only a backlog clears itself. -/
theorem onlyTransient_scan {i : Incident} {m : Findings} (scanned : i.warnings = scan f m) :
    i.onlyTransient = true ↔ backlogged f m = true := by
  have clears : i.onlyTransient = true ↔ (∃ w, w ∈ scan f m) ∧ ∀ w ∈ scan f m, w.transient = true := by
    simp [Incident.onlyTransient, scanned, List.eq_nil_iff_forall_not_mem]
  have backlog : backlogged f m = true ↔ ((∃ v ∈ m.volumes, ∃ w, w ∈ checkDiscard f v) ∧
      ∀ v ∈ m.volumes, ∀ w, w ∉ checkAllocation f v) ∧ ∀ h ∈ m.hwmon, ∀ w, w ∉ checkHwmon f h := by
    simp [backlogged, Option.isSome_iff_exists, Option.eq_none_iff_forall_not_mem,
      List.eq_nil_iff_forall_not_mem]
  rw [clears, backlog]
  constructor
  · rintro ⟨⟨w, found⟩, all⟩
    have space : ∀ v ∈ m.volumes, ∀ w, w ∉ checkAllocation f v := fun v among w told =>
      Bool.false_ne_true ((checkAllocation_lasting told).symm.trans
        (all w (mem_scan.mpr (.inl ⟨v, among, .inr told⟩))))
    have cool : ∀ h ∈ m.hwmon, ∀ w, w ∉ checkHwmon f h := fun h among w told =>
      Bool.false_ne_true ((checkHwmon_lasting told).symm.trans
        (all w (mem_scan.mpr (.inr ⟨h, among, told⟩))))
    rcases mem_scan.mp found with ⟨v, among, queued | told⟩ | ⟨h, among, told⟩
    · exact ⟨⟨⟨v, among, w, queued⟩, space⟩, cool⟩
    · exact absurd told (space v among w)
    · exact absurd told (cool h among w)
  · rintro ⟨⟨⟨v, among, w, queued⟩, space⟩, cool⟩
    refine ⟨⟨w, mem_scan.mpr (.inl ⟨v, among, .inl queued⟩)⟩, ?_⟩
    intro w' found
    rcases mem_scan.mp found with ⟨v', among', queued' | told⟩ | ⟨h, among', told⟩
    · exact checkDiscard_transient queued'
    · exact absurd told (space v' among' w')
    · exact absurd told (cool h among' w')

end Scan

section Said

variable (humanName : String → List Char)

/-- When something was said, and what. -/
def heard (c : Call) (o : Option Notice) : Option (UInt64 × List Char × List Char) :=
  o.map fun notice => (c.now, notice.summary, notice.body)

def holding (n : Notifier) (k : UInt32) : Notifier := { n with suppressed := k }

/-- The number of captures that were held back decides nothing. -/
def Alike (n n' : Notifier) : Prop := ∃ k, n' = holding n k

theorem alike_answer {n n' : Notifier} (alike : Alike n n') (c : Call) :
    Alike (answer f humanName n c).1 (answer f humanName n' c).1 ∧
      heard c (answer f humanName n c).2 = heard c (answer f humanName n' c).2 := by
  obtain ⟨k, rfl⟩ := alike
  cases enabled : n.enabled with
  | false =>
    rw [answer, answer, consider_disabled f humanName enabled,
      consider_disabled f humanName (n := holding n k) enabled]
    exact ⟨⟨k, rfl⟩, rfl⟩
  | true =>
    cases stalled : c.incident.worst with
    | none =>
      rw [answer, answer, consider_idle f humanName stalled, consider_idle f humanName stalled]
      exact ⟨⟨k, rfl⟩, rfl⟩
    | some worst =>
      cases kept : c.incident.dismissed with
      | true =>
        rw [answer, answer, consider_dismissed f humanName enabled stalled kept,
          consider_dismissed f humanName (n := holding n k) enabled stalled kept]
        exact ⟨⟨Counter.saturatingSucc k, rfl⟩, rfl⟩
      | false =>
        cases short : n.short c.incident worst c.now with
        | true =>
          rw [answer, answer, consider_short f humanName enabled stalled kept short,
            consider_short f humanName (n := holding n k) enabled stalled kept short]
          exact ⟨⟨k, rfl⟩, rfl⟩
        | false =>
          cases cooling : n.cooling c.now with
          | true =>
            rw [answer, answer, consider_cooling f humanName enabled stalled kept short cooling,
              consider_cooling f humanName (n := holding n k) enabled stalled kept short cooling]
            exact ⟨⟨Counter.saturatingSucc k, rfl⟩, rfl⟩
          | false =>
            rw [answer, answer, consider_rested f humanName enabled stalled kept short cooling,
              consider_rested f humanName (n := holding n k) enabled stalled kept short cooling]
            exact ⟨⟨0, rfl⟩, rfl⟩

/- A dismissed capture leaves no trace but the number. -/
theorem alike_dismissed {n n' : Notifier} (alike : Alike n n') (c : Call)
    (dismissed : c.incident.dismissed = true) :
    Alike (answer f humanName n c).1 n' ∧ heard c (answer f humanName n c).2 = none := by
  obtain ⟨k, rfl⟩ := alike
  cases enabled : n.enabled with
  | false =>
    rw [answer, consider_disabled f humanName enabled]
    exact ⟨⟨k, rfl⟩, rfl⟩
  | true =>
    cases stalled : c.incident.worst with
    | none =>
      rw [answer, consider_idle f humanName stalled]
      exact ⟨⟨k, rfl⟩, rfl⟩
    | some worst =>
      rw [answer, consider_dismissed f humanName enabled stalled dismissed]
      exact ⟨⟨k, rfl⟩, rfl⟩

variable (f)

/-- What is said while calls come in: when, and the text. -/
def said (n : Notifier) (calls : List Call) : List (UInt64 × List Char × List Char) :=
  History.visible heard (History.trace (answer f humanName) n calls)

/-- Captures that only a backlog explains, and that nobody caused, change nothing of what the notifier
says: whatever else is captured before, between and after them. -/
theorem backlog_unheard (n : Notifier) (seen : Call → Findings) (calls : List Call)
    (scanned : ∀ c ∈ calls, c.incident.warnings = scan f (seen c)) :
    said f humanName n calls = said f humanName n
      (calls.filter fun c => !(c.incident.kernelSide && backlogged f (seen c))) := by
  have skipped : ∀ c ∈ calls,
      (c.incident.kernelSide && backlogged f (seen c)) = c.incident.dismissed := by
    intro c among
    rw [Incident.dismissed, Bool.eq_iff_iff.mpr (onlyTransient_scan (scanned c among))]
  have calm : calls.filter (fun c => !(c.incident.kernelSide && backlogged f (seen c))) =
      calls.filter fun c => !c.incident.dismissed :=
    List.filter_congr fun c among => congrArg Bool.not (skipped c among)
  rw [calm]
  have hidden : ∀ n n' c, Alike n n' → c.incident.dismissed = true →
      Alike (answer f humanName n c).1 n' ∧ heard c (answer f humanName n c).2 = none :=
    fun _ _ c alike dismissed => alike_dismissed humanName alike c dismissed
  have shown : ∀ n n' c, Alike n n' → Alike (answer f humanName n c).1 (answer f humanName n' c).1 ∧
      heard c (answer f humanName n c).2 = heard c (answer f humanName n' c).2 :=
    fun _ _ c alike => alike_answer humanName alike c
  exact History.visible_without hidden shown ⟨n.suppressed, rfl⟩ calls

end Said

/-- A machine with a backlog, and nothing else to be found. -/
def trimming : Findings := ⟨[⟨some "data".toList, [], [], some 50000, none, none⟩], []⟩

/-- A capture while the backlog is worked off. -/
def worked : Call :=
  ⟨{ (Call.capture 100 90000000).incident with warnings := scan .exact trimming }, 100⟩

theorem backlog_unheard_trim :
    said .exact String.toList .default [worked, Call.capture 160 90000000] =
      said .exact String.toList .default [Call.capture 160 90000000] := by
  refine backlog_unheard .exact String.toList .default
    (fun c => if c.now = 100 then trimming else ⟨[], []⟩)
    [worked, Call.capture 160 90000000] ?_
  intro c among
  rcases List.mem_pair.mp among with rfl | rfl <;> rfl

end Stallwatch.Pathology
