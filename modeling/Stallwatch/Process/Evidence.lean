import Stallwatch.Process.Drill

/-! What a drill reports, against everything it has read. -/
namespace Stallwatch.Process

open Text Cgroup
open Turns (StableOrder Taken turn)

section Session

variable (s : Session) (pid : UInt32)

/-- What the rounds could tell of the state of a process, and of its delays. -/
def states (rounds : List (UInt32 → Look)) : List (Char × UInt64) :=
  rounds.filterMap fun r => (r pid).stat.bind parseStat

/-- Every reading there was of its bytes before the rounds and in them. -/
def reads (rounds : List (UInt32 → Look)) : List (UInt64 × UInt64) :=
  (s.before pid :: rounds.map fun r => (r pid).io).filterMap (Option.map ioBytes)

def watchOne (rounds : List (UInt32 → Look)) : Watch :=
  rounds.zipIdx.foldl (fun w round => w.observe round.2 (round.1 pid)) ⟨(s.before pid).map ioBytes, 0,
    0, 0, 0⟩

/-- The delay in the first round, if the process was seen in it. -/
def firstTicks (rounds : List (UInt32 → Look)) : UInt64 :=
  ((rounds.head?.bind fun r => (r pid).stat.bind parseStat).map Prod.snd).getD 0

def lastTicks (rounds : List (UInt32 → Look)) : UInt64 :=
  ((states pid rounds).getLast?.map Prod.snd).getD 0

/-- What the rounds leave behind, by what was read in them. -/
structure Watched (rounds : List (UInt32 → Look)) (w : Watch) : Prop where
  lastIo : w.lastIo = (reads s pid rounds).getLast?
  seen : w.seen.toNat = (states pid rounds).length
  blocked : w.blocked.toNat = (states pid rounds).countP fun st => st.1 = 'D'
  ticksBefore : w.ticksBefore = firstTicks pid rounds
  ticksAfter : w.ticksAfter = lastTicks pid rounds

end Session

variable {s : Session} {pid : UInt32}

theorem foldl_sampleRound (pids : List UInt32) (rounds : List ((UInt32 → Look) × ℕ))
    (start : UInt32 → Watch) :
    rounds.foldl sampleRound (pids.map fun pid => (pid, start pid)) = pids.map fun pid =>
      (pid, rounds.foldl (fun w round => w.observe round.2 (round.1 pid)) (start pid)) := by
  induction rounds generalizing start with
  | nil => rfl
  | cons round rounds ih =>
    have next : sampleRound (pids.map fun pid => (pid, start pid)) round =
        pids.map fun pid => (pid, (start pid).observe round.2 (round.1 pid)) := by
      rw [sampleRound, List.map_map]
      rfl
    rw [List.foldl_cons, next, ih]
    rfl

/- The processes do not depend on each other. -/
theorem watch_eq (s : Session) (pids : List UInt32) :
    watch s pids = pids.map fun pid => (pid, watchOne s pid s.rounds) :=
  foldl_sampleRound pids s.rounds.zipIdx fun pid => ⟨(s.before pid).map ioBytes, 0, 0, 0, 0⟩

theorem getLast_or {α : Type} (l : List α) (o : Option α) :
    (l ++ o.toList).getLast? = o.or l.getLast? := by
  cases o with
  | none => simp
  | some a => simp

theorem filterMap_one {α β : Type} (f : α → Option β) (a : α) : [a].filterMap f = (f a).toList := by
  cases given : f a <;> simp [given]

theorem states_snoc (rounds : List (UInt32 → Look)) (r : UInt32 → Look) :
    states pid (rounds ++ [r]) = states pid rounds ++ ((r pid).stat.bind parseStat).toList := by
  rw [states, List.filterMap_append, filterMap_one]
  rfl

theorem reads_snoc (rounds : List (UInt32 → Look)) (r : UInt32 → Look) :
    reads s pid (rounds ++ [r]) = reads s pid rounds ++ ((r pid).io.map ioBytes).toList := by
  rw [reads, List.map_append, ← List.cons_append, List.filterMap_append, List.map_singleton,
    filterMap_one]
  rfl

theorem watchOne_snoc (rounds : List (UInt32 → Look)) (r : UInt32 → Look) :
    watchOne s pid (rounds ++ [r]) = (watchOne s pid rounds).observe rounds.length (r pid) := by
  rw [watchOne, List.zipIdx_append, List.foldl_append, Nat.zero_add]
  rfl

/- The first round decides, whether or not the process was seen in it. -/
theorem firstTicks_snoc (rounds : List (UInt32 → Look)) (r : UInt32 → Look) :
    firstTicks pid (rounds ++ [r]) =
      if rounds = [] then (((r pid).stat.bind parseStat).map Prod.snd).getD 0 else firstTicks pid rounds := by
  cases rounds with
  | nil => rfl
  | cons first rounds => rfl

theorem observe_missed {w : Watch} {round : ℕ} {look : Look} (missed : look.stat.bind parseStat = none) :
    w.observe round look = { w with lastIo := (look.io.map ioBytes).or w.lastIo } := by
  rw [Watch.observe, missed]

theorem observe_seen {w : Watch} {round : ℕ} {look : Look} {state : Char} {ticks : UInt64}
    (seen : look.stat.bind parseStat = some (state, ticks)) :
    w.observe round look =
      { lastIo := (look.io.map ioBytes).or w.lastIo
        seen := w.seen + 1
        blocked := if state = 'D' then w.blocked + 1 else w.blocked
        ticksBefore := if round = 0 then ticks else w.ticksBefore
        ticksAfter := ticks } := by
  rw [Watch.observe, seen]

theorem succ_toNat {n : UInt32} {m : ℕ} (same : n.toNat = m) (small : m + 1 < 2 ^ 32) :
    (n + 1).toNat = m + 1 := by
  rw [UInt32.toNat_add, same]
  exact Nat.mod_eq_of_lt small

theorem watched (rounds : List (UInt32 → Look)) (few : rounds.length < 2 ^ 32) :
    Watched s pid rounds (watchOne s pid rounds) := by
  induction rounds using List.reverseRecOn with
  | nil => exact ⟨by cases h : s.before pid <;> simp [watchOne, reads, h], rfl, rfl, rfl, rfl⟩
  | append_singleton rounds r ih =>
    rw [List.length_append, List.length_singleton] at few
    have before := ih (Nat.lt_of_le_of_lt (Nat.le_add_right _ _) few)
    have bytes : ((r pid).io.map ioBytes).or (watchOne s pid rounds).lastIo =
        (reads s pid (rounds ++ [r])).getLast? := by
      rw [reads_snoc, getLast_or, before.lastIo]
    have counted : (states pid rounds).length ≤ rounds.length := List.length_filterMap_le _ _
    rw [watchOne_snoc]
    cases look : (r pid).stat.bind parseStat with
    | none =>
      have same : states pid (rounds ++ [r]) = states pid rounds := by
        rw [states_snoc, look, Option.toList_none, List.append_nil]
      have first : firstTicks pid (rounds ++ [r]) = firstTicks pid rounds := by
        rw [firstTicks_snoc, look]
        split
        · rename_i none
          rw [none]
          rfl
        · rfl
      rw [observe_missed look]
      exact ⟨bytes, same ▸ before.seen, same ▸ before.blocked, first ▸ before.ticksBefore,
        by rw [lastTicks, same]; exact before.ticksAfter⟩
    | some st =>
      obtain ⟨state, ticks⟩ := st
      have longer : states pid (rounds ++ [r]) = states pid rounds ++ [(state, ticks)] := by
        rw [states_snoc, look, Option.toList_some]
      have some : (states pid rounds).countP (fun st => st.1 = 'D') ≤ (states pid rounds).length :=
        List.countP_le_length
      rw [observe_seen look]
      refine ⟨bytes, ?_, ?_, ?_, ?_⟩
      · rw [longer, List.length_append, List.length_singleton]
        exact succ_toNat before.seen (by omega)
      · rw [longer, List.countP_append, List.countP_singleton]
        by_cases uninterruptible : state = 'D'
        · simp only [uninterruptible, if_true, decide_true]
          exact succ_toNat before.blocked (by omega)
        · simp only [uninterruptible, if_false, decide_false, Bool.false_eq_true]
          exact before.blocked
      · rw [firstTicks_snoc, look]
        by_cases none : rounds = []
        · subst none
          rfl
        · rw [if_neg none, if_neg (mt List.length_eq_zero_iff.mp none)]
          exact before.ticksBefore
      · rw [lastTicks, longer]
        simp

section Reported

variable (s) (pid)

/-- Between the first reading and the last there was, if there was one before the rounds. -/
def movedBytes : UInt64 × UInt64 :=
  transferred ((s.before pid).map ioBytes)
    (reads s pid s.rounds ++ ((s.closing pid).map ioBytes).toList).getLast?

/-- Something was observed of a process. -/
def Observed : Prop :=
  (states pid s.rounds).countP (fun st => st.1 = 'D') ≠ 0 ∨ (movedBytes s pid).1 ≠ 0 ∨
    (movedBytes s pid).2 ≠ 0

instance : DecidablePred (Observed s) := fun _ => inferInstanceAs (Decidable (_ ∨ _ ∨ _))

/-- What is reported of a process is what was read of it. -/
structure Evidence (d : Drilled) : Prop where
  observed : Observed s d.proc.pid
  comm : d.proc.comm = commOf (s.comm d.proc.pid)
  seen : d.proc.totalSamples.toNat = (states d.proc.pid s.rounds).length
  blocked : d.proc.blockedSamples.toNat = (states d.proc.pid s.rounds).countP fun st => st.1 = 'D'
  bytes : (d.proc.readBytes, d.proc.writeBytes) = movedBytes s d.proc.pid
  delay : d.blkioDelayMs = if delayacctEnabled s.delayacct then
    some (Counter.saturatingSub (lastTicks d.proc.pid s.rounds) (firstTicks d.proc.pid s.rounds) * 10) else none

def report : Drilled where
  proc := ⟨pid, commOf (s.comm pid), (watchOne s pid s.rounds).blocked, (watchOne s pid s.rounds).seen,
    (movedBytes s pid).1, (movedBytes s pid).2⟩
  blkioDelayMs :=
    if delayacctEnabled s.delayacct then
      some (Counter.saturatingSub (watchOne s pid s.rounds).ticksAfter (watchOne s pid s.rounds).ticksBefore * 10)
    else none

variable {s} {pid} (few : s.rounds.length < 2 ^ 32)
include few

theorem found_eq : found s (pid, watchOne s pid s.rounds) =
    if Observed s pid then some (report s pid) else none := by
  have watched : Watched s pid s.rounds (watchOne s pid s.rounds) := watched s.rounds few
  have last : transferred ((s.before pid).map ioBytes)
      (((s.closing pid).map ioBytes).or (watchOne s pid s.rounds).lastIo) = movedBytes s pid := by
    rw [watched.lastIo, ← getLast_or]
    rfl
  have nothing : (watchOne s pid s.rounds).blocked = 0 ∧ (movedBytes s pid).1 = 0 ∧
    (movedBytes s pid).2 = 0 ↔
      ¬ Observed s pid := by
    rw [← UInt32.toNat_inj, watched.blocked, Observed]
    simp only [UInt32.toNat_zero]
    tauto
  simp only [found, last]
  by_cases observed : Observed s pid
  · rw [if_neg (mt nothing.mp (not_not.mpr observed)), if_pos observed]
    rfl
  · rw [if_pos (nothing.mpr observed), if_neg observed]

theorem report_evidence (observed : Observed s pid) : Evidence s (report s pid) := by
  have watched : Watched s pid s.rounds (watchOne s pid s.rounds) := watched s.rounds few
  refine ⟨observed, rfl, watched.seen, watched.blocked, rfl, ?_⟩
  rw [report, watched.ticksAfter, watched.ticksBefore]

theorem filterMap_found (pids : List UInt32) :
    (watch s pids).filterMap (found s) = (pids.filter (Observed s)).map (report s) := by
  rw [watch_eq, List.filterMap_map]
  induction pids with
  | nil => rfl
  | cons pid pids ih =>
    rw [List.filterMap_cons, Function.comp_apply, found_eq few, ih]
    by_cases observed : Observed s pid
    · simp [observed]
    · simp [observed]

end Reported

section Kept

variable (out : List ProcCulprit)

/-- The sum as the code adds it up, in 64 bits. -/
def wrapped (i : Fin out.length) : ℕ := (moved (out.get i)).toNat

/- Whatever the sums wrap to, the two orders are taken in turns. -/
theorem byBytes_wrapped : StableOrder (wrapped out) (byBytes out) := by
  have order : byBytes out = Ranking.rank (wrapped out) (List.finRange out.length) :=
    Ranking.insertionSort_eq_rank (wrapped out) (fun _ _ => UInt64.le_iff_toNat_le) _
  rw [order]
  exact Turns.insertionSort_stable _ (List.pairwise_lt_finRange _) (List.mem_finRange)

theorem keep_distinct : (keep out).Nodup ∧ (keep out).length = min out.length maxCulprits := by
  obtain ⟨t, taken, enough⟩ := interleave_taken byBlocked_stable (byBytes_wrapped out) out.length 0
    (by simp) (Turns.taken_nil _)
  rw [← List.range_eq_range'] at taken enough
  have bounded := taken.nodup.length_le_card
  rw [Fintype.card_fin] at bounded
  refine ⟨taken.nodup.sublist (List.take_sublist _ _), ?_⟩
  rw [keep, List.length_take]
  rcases enough with full | everyone
  · omega
  · have length := taken.length
    rw [Finset.filter_true_of_mem fun i _ => everyone i, Finset.card_univ, Fintype.card_fin] at length
    omega

end Kept

/- Positions stay positions when the delays are left out. -/
theorem rankDrilled_perm (out : List Drilled) : ∃ chosen, chosen ⊆ out ∧ (rankDrilled out).Perm chosen ∧
    chosen.length = min out.length maxCulprits ∧
    ((out.map fun d => d.proc.pid).Nodup → (chosen.map fun d => d.proc.pid).Nodup) := by
  obtain ⟨distinct, length⟩ := keep_distinct (out.map Drilled.proc)
  refine ⟨(keep (out.map Drilled.proc)).map fun i => out[i], fun d member => ?_,
    List.perm_insertionSort _ _, ?_, ?_⟩
  · obtain ⟨i, _, rfl⟩ := List.mem_map.mp member
    exact List.getElem_mem _
  · rw [List.length_map, length, List.length_map]
  · intro pids
    rw [List.map_map]
    refine distinct.map_on fun i _ j _ same => Fin.ext ?_
    have left : i < (out.map fun d => d.proc.pid).length := by simpa using i.isLt
    have right : j < (out.map fun d => d.proc.pid).length := by simpa using j.isLt
    have once : (out.map fun d => d.proc.pid)[(i : ℕ)] = (out.map fun d => d.proc.pid)[(j : ℕ)] :=
      by simpa using same
    exact pids.getElem_inj_iff.mp once

theorem drill_eq (few : s.rounds.length < 2 ^ 32) (some : s.rounds ≠ []) (pids : List UInt32) :
    drill s pids = rankDrilled ((pids.filter (Observed s)).map (report s)) := by
  rw [drill, filterMap_found few]
  by_cases none : pids = []
  · subst none
    rfl
  · simp [none, some]

section Probe

variable {samples : ℕ} (p : Probe samples) (some : 0 < samples ∧ samples < 2 ^ 32)

include some

theorem Probe.drill_eq :
    p.drill = rankDrilled (((pidsIn p.tree).filter (Observed p.session)).map (report p.session)) := by
  refine Process.drill_eq (by rw [p.rounds]; exact some.2) (fun none => ?_) _
  have length := p.rounds
  rw [none] at length
  exact absurd length.symm some.1.ne'

/- Nobody is reported exactly if nobody was observed. -/
theorem Probe.drill_nil_iff : p.drill = [] ↔ ∀ pid ∈ pidsIn p.tree, ¬Observed p.session pid := by
  obtain ⟨chosen, _, perm, length, _⟩ :=
    rankDrilled_perm (((pidsIn p.tree).filter (Observed p.session)).map (report p.session))
  rw [p.drill_eq some, ← List.length_eq_zero_iff, perm.length_eq, length, List.length_map]
  have none : min ((pidsIn p.tree).filter (Observed p.session)).length maxCulprits = 0 ↔
      (pidsIn p.tree).filter (Observed p.session) = [] := by
    rw [← List.length_eq_zero_iff, maxCulprits]
    omega
  rw [none, List.filter_eq_nil_iff]
  simp

theorem Probe.drill_told {d : Drilled} (member : d ∈ p.drill) : Evidence p.session d := by
  obtain ⟨chosen, among, perm, _, _⟩ :=
    rankDrilled_perm (((pidsIn p.tree).filter (Observed p.session)).map (report p.session))
  rw [p.drill_eq some] at member
  obtain ⟨pid, listed, rfl⟩ := List.mem_map.mp (among (perm.mem_iff.mp member))
  exact report_evidence (by rw [p.rounds]; exact some.2) (of_decide_eq_true (List.mem_filter.mp listed).2)

theorem Probe.drill_length : p.drill.length ≤ maxCulprits := by
  obtain ⟨chosen, _, perm, length, _⟩ :=
    rankDrilled_perm (((pidsIn p.tree).filter (Observed p.session)).map (report p.session))
  rw [p.drill_eq some, perm.length_eq, length]
  exact min_le_right _ _

end Probe

/-- A drill reports at most six processes, each once, and as many as it can. Each belongs to some
directory below the cgroup, and is reported with what was read of it: how often it was seen and
how often blocked, and the bytes between the first reading and the last there was, even if it
has ended since. -/
theorem drill_evidence {files : Cgroup.Files} {entries : Option (List (OsString × Tree))}
    (few : s.rounds.length < 2 ^ 32) (some : s.rounds ≠ []) :
    ((drill s (pidsIn (.dir files entries))).map fun d => d.proc.pid).Nodup ∧
      (drill s (pidsIn (.dir files entries))).length =
        min ((pidsIn (.dir files entries)).filter (Observed s)).length maxCulprits ∧
      ∀ d ∈ drill s (pidsIn (.dir files entries)), Evidence s d ∧ ∃ names found below,
        Visit.Leads (.dir files entries) names (.dir found below) ∧ d.proc.pid ∈ directPids found := by
  have pids : ((pidsIn (.dir files entries)).filter (Observed s)).Nodup :=
    ((Dedup.sortedDedup_strict _).imp ne_of_lt).filter _
  obtain ⟨chosen, among, perm, length, distinct⟩ :=
    rankDrilled_perm (((pidsIn (.dir files entries)).filter (Observed s)).map (report s))
  rw [drill_eq few some]
  refine ⟨?_, ?_, fun d member => ?_⟩
  · refine (perm.map fun d => d.proc.pid).nodup_iff.mpr (distinct ?_)
    rw [List.map_map]
    exact (List.map_id _).symm ▸ pids
  · rw [perm.length_eq, length, List.length_map]
  · obtain ⟨pid, listed, rfl⟩ := List.mem_map.mp (among (perm.mem_iff.mp member))
    obtain ⟨there, observed⟩ := List.mem_filter.mp listed
    exact ⟨report_evidence few (of_decide_eq_true observed), mem_pidsIn.mp there⟩

/-- A process writes, is blocked, and ends before the last round. -/
def burst : Session where
  before _ := some "write_bytes: 4096\n".toList
  rounds := [fun _ => ⟨some "write_bytes: 12288\n".toList, some "7 (dd) D 1".toList⟩,
    fun _ => ⟨none, none⟩]
  closing _ := none
  comm _ := none
  delayacct := none

theorem drill_evidence_burst :
    ((drill burst (pidsIn branching)).map fun d => d.proc.pid).Nodup ∧
      (drill burst (pidsIn branching)).length =
        min ((pidsIn branching).filter (Observed burst)).length maxCulprits ∧
      ∀ d ∈ drill burst (pidsIn branching), Evidence burst d ∧ ∃ names found below,
        Visit.Leads branching names (.dir found below) ∧ d.proc.pid ∈ directPids found :=
  drill_evidence (by decide) nofun

example : movedBytes burst 7 = (0, 8192) := by decide

end Stallwatch.Process
