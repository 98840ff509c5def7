import Stallwatch.Base.Dedup
import Stallwatch.Process.Evidence
import Stallwatch.Report.Text

/-! The look into the cgroups of a live report: who is inside the first few of them, and what part
each process has in the stall. -/
namespace Stallwatch.Process

open Text
open Cgroup (Tree pidsIn)

/-- The first three cgroups of the report. -/
def targets (r : Report) : List Stall := (Dedup.unseen Stall.cgroup [] r.stalls).take 3

/-- The budget for each of `n` cgroups, in milliseconds. -/
def budget (windowMs : UInt64) (n : ℕ) : UInt64 := max (windowMs / .ofNat n) 200

section Lines

variable (f : Rounding)

def megabytes (p : ProcCulprit) : F64 := F64.div f (F64.ofNat f (moved p).toNat) (.whole 1048576)

def roleWord (p : ProcCulprit) : List Char :=
  if (megabytes f p).atLeast (.whole 1) && (p.blockedPct f).lt (.whole 50) then "causing".toList
  else if (p.blockedPct f).atLeast (.whole 50) && (megabytes f p).lt (.whole 1) then "waiting".toList
  else "active ".toList

/-- The number that the source writes as 0.1. -/
def tenth : F64 := .finite false (3602879701896397 / 36028797018963968)

def ioText (p : ProcCulprit) : List Char :=
  if (megabytes f p).atLeast tenth then
    "  ·  ".toList ++ F64.format 0 (megabytes f p) ++ " MiB of disk IO".toList
  else []

def delayText (delay : Option UInt64) : List Char :=
  match delay with
  | some ms => if 0 < ms then "  ·  ".toList ++ decimal ms.toNat ++ "ms blocked".toList else []
  | none => []

def processLine (d : Drilled) : List Char :=
  "    ".toList ++ roleWord f d.proc ++ "  ".toList ++ padLeft 3 (F64.format 0 (d.proc.blockedPct f)) ++
    "% blocked  ".toList ++ d.proc.comm.toList ++ " [".toList ++ decimal d.proc.pid.toNat ++ "]".toList ++
    ioText f d.proc ++ delayText d.blkioDelayMs ++ ['\n']

end Lines

def nobodyCaught : List Char :=
  "\n  no process caught blocking or doing disk IO in a follow-up window\n".toList ++
    "  (the stall may have ended, or the work is kernel-side — see any\n".toList ++
    "   transient warning above)\n".toList

def delayHint : List Char :=
  "    (exact blocking time needs delay accounting: sudo sysctl -w kernel.task_delayacct=1)\n".toList

section Top

variable (f : Rounding) (probe : String → Probe 12)

def inside (s : Stall) : List Drilled := (probe s.cgroup).drill

def cgroupText (s : Stall) : List Char :=
  match inside probe s with
  | [] => []
  | found => "\n  inside ".toList ++ s.unit.toList ++ ":\n".toList ++ found.flatMap (processLine f)

def drillTop (r : Report) (delayacct : Option (List Char)) : List Char :=
  match targets r with
  | [] => []
  | targets =>
    if targets.all fun s => (inside probe s).isEmpty then nobodyCaught
    else targets.flatMap (cgroupText f probe) ++ (if delayacctEnabled delayacct then [] else delayHint)

end Top

section Targets

variable (r : Report)

theorem targets_sublist : (targets r).Sublist r.stalls :=
  (List.take_sublist _ _).trans Dedup.unseen_sublist

theorem targets_nodup : ((targets r).map Stall.cgroup).Nodup :=
  Dedup.unseen_nodup.sublist ((List.take_sublist _ _).map _)

theorem targets_first {s : Stall} (member : s ∈ targets r) :
    r.stalls.find? (fun t => t.cgroup = s.cgroup) = some s :=
  Dedup.unseen_first (List.mem_of_mem_take member)

theorem length_targets : (targets r).length = min 3 (r.stalls.map Stall.cgroup).dedup.length := by
  rw [targets, List.length_take, Dedup.length_unseen]

theorem targets_nil_iff : targets r = [] ↔ r.stalls = [] := by
  unfold targets
  cases r.stalls with
  | nil => simp [Dedup.unseen]
  | cons s rest => simp [Dedup.unseen]

/- The windows together are not longer than the one that was asked for, or three of the least. -/
theorem budget_spent (windowMs : UInt64) :
    (targets r).length * (budget windowMs (targets r).length).toNat ≤ max windowMs.toNat 600 := by
  have few : (targets r).length ≤ 3 := by
    rw [length_targets]
    exact min_le_left _ _
  generalize (targets r).length = n at few
  have small : (UInt64.ofNat n).toNat = n := by
    rw [UInt64.toNat_ofNat', Nat.mod_eq_of_lt (by omega)]
  have part : n * (windowMs / .ofNat n).toNat ≤ windowMs.toNat := by
    rw [UInt64.toNat_div, small]
    exact Nat.mul_div_le _ _
  have least : n * (200 : UInt64).toNat ≤ 600 := Nat.mul_le_mul_right 200 few
  rw [budget, UInt64.toNat_max]
  rcases max_choice (windowMs / .ofNat n).toNat (200 : UInt64).toNat with larger | larger
  · rw [larger]
    exact le_max_of_le_left part
  · rw [larger]
    exact le_max_of_le_right least

end Targets

section Told

variable {f : Rounding} {probe : String → Probe 12}

def spoken : Role → List Char
  | .cause => "causing".toList
  | .victim => "waiting".toList
  | .active => "active ".toList

/- The word is that of the role that the daemon records. -/
theorem roleWord_eq (p : ProcCulprit) : roleWord f p = spoken (Culprit.fromProc f p).role := by
  simp only [Culprit.fromProc, Culprit.roleFrom]
  rw [apply_ite spoken, apply_ite spoken]
  rfl

theorem inside_nil_iff (s : Stall) : inside probe s = [] ↔
    ∀ pid ∈ pidsIn (probe s.cgroup).tree, ¬Observed (probe s.cgroup).session pid :=
  (probe s.cgroup).drill_nil_iff (by decide)

/- A heading for the cgroup, as long as somebody was caught in it. -/
theorem cgroupText_head {s : Stall} (caught : inside probe s ≠ []) :
    ∃ rest, cgroupText f probe s = '\n' :: ' ' :: ' ' :: 'i' :: rest := by
  unfold cgroupText
  split
  · rename_i none
    exact absurd none caught
  · exact ⟨_, rfl⟩

theorem flatMap_head {ss : List Stall} (caught : ∃ s ∈ ss, inside probe s ≠ []) :
    ∃ rest, ss.flatMap (cgroupText f probe) = '\n' :: ' ' :: ' ' :: 'i' :: rest := by
  induction ss with
  | nil => obtain ⟨_, member, _⟩ := caught; cases member
  | cons s ss ih =>
    by_cases here : inside probe s = []
    · have silent : cgroupText f probe s = [] := by rw [cgroupText, here]
      rw [List.flatMap_cons, silent]
      obtain ⟨t, member, found⟩ := caught
      rcases List.mem_cons.mp member with rfl | later
      · exact absurd here found
      · exact ih ⟨t, later, found⟩
    · obtain ⟨rest, head⟩ := cgroupText_head (f := f) here
      exact ⟨rest ++ ss.flatMap (cgroupText f probe), by rw [List.flatMap_cons, head]; rfl⟩

variable (r : Report) (delayacct : Option (List Char))

/- What is printed where somebody was caught. -/
theorem drillTop_caught (caught : ∃ s ∈ targets r, inside probe s ≠ []) : drillTop f probe r delayacct =
    (targets r).flatMap (cgroupText f probe) ++
      (if delayacctEnabled delayacct then [] else delayHint) := by
  have someone : ¬((targets r).all fun s => (inside probe s).isEmpty) = true := by
    obtain ⟨s, member, found⟩ := caught
    rw [List.all_eq_true]
    exact fun all => found (List.isEmpty_iff.mp (all s member))
  obtain ⟨s, member, _⟩ := caught
  unfold drillTop
  split
  · rename_i none
    rw [none] at member
    cases member
  · exact if_neg someone

theorem drillTop_nobody (some : targets r ≠ []) (nobody : ∀ s ∈ targets r, inside probe s = []) :
    drillTop f probe r delayacct = nobodyCaught := by
  have all : ((targets r).all fun s => (inside probe s).isEmpty) = true :=
    List.all_eq_true.mpr fun s member => List.isEmpty_iff.mpr (nobody s member)
  unfold drillTop
  split
  · rename_i none
    exact absurd none some
  · exact if_pos all

/-- The first three cgroups of a report, as it names them. -/
structure Chosen (r : Report) (ts : List Stall) : Prop where
  among : ts.Sublist r.stalls
  apart : (ts.map Stall.cgroup).Nodup
  first : ∀ s ∈ ts, r.stalls.find? (fun t => t.cgroup = s.cgroup) = some s
  many : ts.length = min 3 (r.stalls.map Stall.cgroup).dedup.length

theorem infix_flatMap {α β : Type} {a : α} {as : List α} (member : a ∈ as) (g : α → List β) :
    g a <:+: as.flatMap g := by
  obtain ⟨before, after, rfl⟩ := List.append_of_mem member
  exact ⟨before.flatMap g, after.flatMap g, by simp⟩

theorem printed {s : Stall} (member : s ∈ targets r) {d : Drilled} (found : d ∈ inside probe s) :
    processLine f d <:+: drillTop f probe r delayacct := by
  have caught : inside probe s ≠ [] := List.ne_nil_of_mem found
  have line : processLine f d <:+: cgroupText f probe s := by
    unfold cgroupText
    split
    · rename_i none
      exact absurd none caught
    · rename_i some same
      exact (infix_flatMap found (processLine f)).trans (List.suffix_append _ _).isInfix
  rw [drillTop_caught r delayacct ⟨s, member, caught⟩]
  exact (line.trans (infix_flatMap member _)).trans (List.prefix_append _ _).isInfix

theorem drillTop_head (caught : ∃ s ∈ targets r, inside probe s ≠ []) :
    ∃ rest, drillTop f probe r delayacct = '\n' :: ' ' :: ' ' :: 'i' :: rest := by
  obtain ⟨rest, head⟩ := flatMap_head (f := f) caught
  rw [drillTop_caught r delayacct caught, head]
  exact ⟨_, rfl⟩

theorem nobodyCaught_head : ∃ rest, nobodyCaught = '\n' :: ' ' :: ' ' :: 'n' :: rest := ⟨_, rfl⟩

theorem drillTop_nil_iff : drillTop f probe r delayacct = [] ↔ targets r = [] := by
  constructor
  · intro silent
    by_contra some
    by_cases caught : ∃ s ∈ targets r, inside probe s ≠ []
    · obtain ⟨rest, head⟩ := drillTop_head (f := f) r delayacct caught
      cases silent.symm.trans head
    · push Not at caught
      obtain ⟨rest, head⟩ := nobodyCaught_head
      cases silent.symm.trans ((drillTop_nobody r delayacct some caught).trans head)
  · intro none
    rw [drillTop, none]

theorem drillTop_nobody_iff : drillTop f probe r delayacct = nobodyCaught ↔
    targets r ≠ [] ∧ ∀ s ∈ targets r, inside probe s = [] := by
  refine ⟨fun text => ⟨fun none => ?_, ?_⟩, fun ⟨there,
    nobody⟩ => drillTop_nobody r delayacct there nobody⟩
  · obtain ⟨rest, head⟩ := nobodyCaught_head
    cases (((drillTop_nil_iff r delayacct).mpr none).symm.trans text).trans head
  · by_contra caught
    push Not at caught
    obtain ⟨rest, head⟩ := drillTop_head (f := f) r delayacct caught
    obtain ⟨rest', head'⟩ := nobodyCaught_head
    have letters := (head.symm.trans text).trans head'
    simp at letters

/-- The first cgroups of the report are looked into, within the time that was asked for or three of the
least windows. Only a report without stalls prints nothing; nobody is said to be caught exactly if no
process in them was seen blocked or moving bytes; and whoever is found is printed with evidence and
with the role that the daemon would record. -/
theorem top_told (windowMs : UInt64) : Chosen r (targets r) ∧
    (targets r).length * (budget windowMs (targets r).length).toNat ≤ max windowMs.toNat 600 ∧
    (drillTop f probe r delayacct = [] ↔ r.stalls = []) ∧
    (drillTop f probe r delayacct = nobodyCaught ↔ r.stalls ≠ [] ∧ ∀ s ∈ targets r,
      ∀ pid ∈ pidsIn (probe s.cgroup).tree, ¬Observed (probe s.cgroup).session pid) ∧
    ∀ s ∈ targets r, ∀ d ∈ inside probe s, processLine f d <:+: drillTop f probe r delayacct ∧
      Evidence (probe s.cgroup).session d ∧ roleWord f d.proc =
        spoken (Culprit.fromProc f d.proc).role := by
  refine ⟨⟨targets_sublist r, targets_nodup r, fun s => targets_first r, length_targets r⟩,
    budget_spent r windowMs,
    ?_, ?_, fun s member d found => ⟨printed r delayacct member found, ?_, roleWord_eq d.proc⟩⟩
  · exact (drillTop_nil_iff r delayacct).trans (targets_nil_iff r)
  · rw [drillTop_nobody_iff, ne_eq, targets_nil_iff]
    simp only [inside_nil_iff]
  · exact (probe s.cgroup).drill_told (by decide) found

end Told

end Stallwatch.Process
