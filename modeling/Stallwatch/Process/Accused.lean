import Mathlib.Order.OrderDual
import Stallwatch.Process.Evidence

/-! From what a capture reads of the processes to the one that is accused. -/
namespace Stallwatch.Process

open Text
open Cgroup (pidsIn)

section Record

variable (f : Rounding)

def place : Role → ℕ
  | .cause => 0
  | .active => 1
  | .victim => 2

/-- The culprits of an incident: causes first, and no more than six. -/
def culprits (p : Probe 10) : List Culprit :=
  ((p.drill.map fun d => Culprit.fromProc f d.proc).insertionSort fun a b =>
    place a.role ≤ place b.role).take 6

end Record

variable {f : Rounding} (p : Probe 10)

theorem place_cause {r : Role} : place r = 0 ↔ r = .cause := by cases r <;> decide

/-- In descending order of this the causes come first. -/
def eminence (c : Culprit) : ℕᵒᵈ := OrderDual.toDual (place c.role)

theorem culprits_eq : culprits f p =
    Ranking.rank eminence (p.drill.map fun d => Culprit.fromProc f d.proc) := by
  have few : (p.drill.map fun d => Culprit.fromProc f d.proc).length ≤ 6 := by
    rw [List.length_map]
    exact p.drill_length (by decide)
  rw [culprits, List.take_of_length_le (by rwa [List.length_insertionSort])]
  exact Ranking.insertionSort_eq_rank eminence (fun _ _ => Iff.rfl) _

theorem eminent {c : Culprit} : eminence c = OrderDual.toDual 0 ↔ c.role = .cause := place_cause

theorem find_cause (cs : List Culprit) :
    cs.find? (fun c => c.role = .cause) = cs.find? fun c => eminence c = OrderDual.toDual 0 := by
  congr 1
  funext c
  exact decide_eq_decide.mpr eminent.symm

/- The biggest movers come first. -/
theorem drill_sorted : p.drill.Pairwise fun a b => moved b.proc ≤ moved a.proc := by
  rw [p.drill_eq (by decide), rankDrilled,
    Ranking.insertionSort_eq_rank (fun d : Drilled => (moved d.proc).toNat)
      (fun _ _ => UInt64.le_iff_toNat_le)]
  have sorted := Ranking.rank_sorted (fun d : Drilled => (moved d.proc).toNat)
  refine (sorted _).imp fun less => ?_
  exact UInt64.le_iff_toNat_le.mpr less

theorem culprits_perm : (culprits f p).Perm (p.drill.map fun d => Culprit.fromProc f d.proc) := by
  rw [culprits_eq]
  exact Ranking.rank_perm _ _

/- The first cause is the one that was found first. -/
theorem culprits_find : (culprits f p).find? (fun c => c.role = .cause) =
    (p.drill.map fun d => Culprit.fromProc f d.proc).find? fun c => c.role = .cause := by
  rw [culprits_eq, find_cause, find_cause, Ranking.rank_find]

theorem culprits_head {c : Culprit} (found : (culprits f p).find? (fun c => c.role = .cause) = some c) :
    (culprits f p).head? = some c := by
  rw [culprits_find, find_cause] at found
  rw [culprits_eq]
  exact Ranking.rank_head eminence (fun _ _ => Nat.zero_le _) found

variable (f) in
/-- The sentence about the process that is accused. -/
def accusation (c : Culprit) : List Char :=
  "  It was the victim, not the cause: ".toList ++ c.comm.toList ++ " [".toList ++ decimal c.pid.toNat ++
    "] moved ".toList ++ Incident.bytesPhrase f c.bytes ++ " through the same queue.\n".toList

variable (f) in
/-- The explanation accuses the process in the place of its verdict. -/
def Accuses (now : UInt64) (i : Incident) (c : Culprit) : Prop :=
  ∃ worst, i.worst = some worst ∧
    i.explain f now = i.opening f now worst ++ accusation f c ++ i.closing

/- The first cause is accused, if the incident has a paragraph at all. -/
theorem accuses_cause (now : UInt64) {i : Incident} {c : Culprit}
    (found : i.culprits.find? (fun c => c.role = .cause) = some c) :
    Accuses f now i c ↔ i.stalls ≠ [] := by
  constructor
  · rintro ⟨worst, first, _⟩
    exact Incident.worst_iff.mp ⟨worst, first⟩
  · intro stalled
    obtain ⟨worst, first⟩ := Incident.worst_iff.mpr stalled
    have verdict : i.verdict f = accusation f c := by
      rw [Incident.verdict, found]
      rfl
    exact ⟨worst, first, by rw [Incident.explain_eq f first, verdict]⟩

theorem accusation_letter (c : Culprit) : (accusation f c)[2]? = some 'I' := by
  unfold accusation
  simp only [List.append_assoc]
  rfl

/- In a list in descending order the first that is found is not exceeded. -/
theorem find_most {cs : List Culprit} (sorted : cs.Pairwise fun a b => b.bytes ≤ a.bytes) {c : Culprit}
    (found : cs.find? (fun c => c.role = .cause) = some c) {other : Culprit} (among : other ∈ cs)
    (cause : other.role = .cause) : other.bytes ≤ c.bytes := by
  obtain ⟨_, before, after, rfl, innocent⟩ := List.find?_eq_some_iff_append.mp found
  rcases List.mem_append.mp among with early | later
  · have role := innocent other early
    simp [cause] at role
  · rcases List.mem_cons.mp later with rfl | behind
    · exact UInt64.le_refl _
    · exact (List.pairwise_cons.mp (List.pairwise_append.mp sorted).2.1).1 other behind

/- What is said where there is no cause accuses nobody. -/
theorem accuses_nobody (now : UInt64) {i : Incident}
    (found : i.culprits.find? (fun c => c.role = .cause) = none) (c : Culprit) : ¬ Accuses f now i c := by
  rintro ⟨worst, first, said⟩
  rw [Incident.explain_eq f first] at said
  have same := List.append_cancel_left (List.append_cancel_right said)
  have letter := accusation_letter (f := f) c
  rw [← same, Incident.verdict, found] at letter
  dsimp only at letter
  split at letter <;> cases letter

/-- All that a drill finds is recorded, causes first. The first cause is the process that moved most of
them all, with the evidence for it, and the explanation of an incident with these culprits and a
stall accuses that process by its name and its number. It accuses nobody exactly if nobody that was
found is a cause. -/
theorem accused : (culprits f p).Perm (p.drill.map fun d => Culprit.fromProc f d.proc) ∧
    match (culprits f p).find? (fun c => c.role = .cause) with
    | some c => (culprits f p).head? = some c ∧
        (∃ d ∈ p.drill, c = Culprit.fromProc f d.proc ∧ Evidence p.session d) ∧
        (∀ d ∈ p.drill, (Culprit.fromProc f d.proc).role = .cause →
          (Culprit.fromProc f d.proc).bytes ≤ c.bytes) ∧
        ∀ (now : UInt64) (i : Incident), i.culprits = culprits f p →
          (Accuses f now i c ↔ i.stalls ≠ [])
    | none => (∀ d ∈ p.drill, (Culprit.fromProc f d.proc).role ≠ .cause) ∧
        ∀ (now : UInt64) (i : Incident), i.culprits = culprits f p → ∀ c, ¬ Accuses f now i c := by
  refine ⟨culprits_perm p, ?_⟩
  cases found : (culprits f p).find? fun c => c.role = .cause with
  | some c =>
    have first := (culprits_find p).symm.trans found
    refine ⟨culprits_head p found, ?_, fun d among cause => ?_, fun now i same => ?_⟩
    · obtain ⟨d, among, rfl⟩ := List.mem_map.mp (List.mem_of_find?_eq_some first)
      exact ⟨d, among, rfl, p.drill_told (by decide) among⟩
    · exact find_most (List.pairwise_map.mpr (drill_sorted p)) first (List.mem_map_of_mem among) cause
    · exact accuses_cause now ((congrArg _ same).trans found)
  | none =>
    refine ⟨fun d among cause => ?_, fun now i same => ?_⟩
    · have innocent := List.find?_eq_none.mp ((culprits_find p).symm.trans found) _ (List.mem_map_of_mem among)
      simp [cause] at innocent
    · exact accuses_nobody now ((congrArg _ same).trans found)

end Stallwatch.Process
