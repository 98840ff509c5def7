import Stallwatch.Notify

/-! The sentence of an explanation that blames the kernel, against what the incident
says about its processes and about the cgroups that moved bytes. -/
namespace Stallwatch

open Text

/-- A process inside a stalling cgroup, as sampled. -/
structure ProcCulprit where
  pid : UInt32
  comm : String
  blockedSamples : UInt32
  totalSamples : UInt32
  readBytes : UInt64
  writeBytes : UInt64
  deriving DecidableEq

def ProcCulprit.blockedPct (f : Rounding) (p : ProcCulprit) : F64 :=
  if p.totalSamples = 0 then .whole 0
  else F64.percent f p.blockedSamples.toNat p.totalSamples.toNat

namespace Culprit

variable (f : Rounding)

def roleFrom (bytes : UInt64) (blockedPct : F64) : Role :=
  let mib := F64.div f (F64.ofNat f bytes.toNat) (.whole 1048576)
  if mib.atLeast (.whole 1) && blockedPct.lt (.whole 50) then .cause
  else if blockedPct.atLeast (.whole 50) && mib.lt (.whole 1) then .victim
  else .active

/-- The sum of the bytes wraps, as it does in a release build. -/
def fromProc (p : ProcCulprit) : Culprit where
  pid := p.pid
  comm := p.comm
  blockedPct := p.blockedPct f
  bytes := p.readBytes + p.writeBytes
  role := roleFrom f (p.readBytes + p.writeBytes) (p.blockedPct f)

theorem moved_mib {bytes : UInt64} (enough : minCauseBytes ≤ bytes) :
    (F64.div f (F64.ofNat f bytes.toNat) (.whole 1048576)).atLeast (.whole 1) = true := by
  have least : 2 ^ 20 ≤ bytes.toNat := UInt64.le_iff_toNat_le.mp enough
  have mono := f.mono (show ((2 ^ 20 : ℕ) : ℚ≥0) ≤ (bytes.toNat : ℚ≥0) by exact_mod_cast least)
  rw [f.round_nat (by decide)] at mono
  obtain ⟨b, hb⟩ := f.round_u64 bytes.toNat_lt
  rw [hb] at mono
  have large : (1 : ℚ≥0) ≤ b / 1048576 := by
    rw [one_le_div₀ (by norm_num)]
    have le := WithTop.coe_le_coe.mp mono
    norm_num at le
    exact le
  simp only [F64.ofNat, hb, F64.ofMagnitude_coe, F64.div, F64.whole]
  rw [if_neg (by norm_num)]
  cases rounded : f.round (b / (1048576 : ℕ)) with
  | top => rfl
  | coe q => simpa using f.round_one_le (by exact_mod_cast large) rounded

/- With enough bytes only the time blocked decides. -/
theorem roleFrom_moved {bytes : UInt64} (enough : minCauseBytes ≤ bytes) (blockedPct : F64) :
    roleFrom f bytes blockedPct = if blockedPct.lt (.whole 50) then .cause else .active := by
  have moved := moved_mib f enough
  have plenty : (F64.div f (F64.ofNat f bytes.toNat) (.whole 1048576)).lt (.whole 1) = false :=
    F64.not_lt_of_atLeast moved
  simp only [roleFrom, moved, plenty, Bool.true_and, Bool.and_false, Bool.false_eq_true, if_false]

end Culprit

namespace Incident

variable (f : Rounding)

def kernelSideSentence : List Char :=
  "  No process inside it was moving data, so the work was kernel-side rather\n  ".toList ++
    "than something you can point at.\n".toList

/-- The paragraph up to the verdict. -/
def opening (now : UInt64) (i : Incident) (worst : Stall) : List Char :=
  "Your machine froze for ".toList ++
    durationPhrase f (F64.div f (frozenMs f i) (.whole 1000)) ++ ", ".toList ++
    relativeTime f (Counter.saturatingSub now i.atUnix) ++ ".\n\n".toList ++
    "  ".toList ++ worst.unit.toList ++ " was blocked on ".toList ++
    worst.resource.display.toList ++ " for ".toList ++ F64.format 0 worst.pressurePct ++
    "% of that window.\n".toList

def closing (i : Incident) : List Char := alsoStalled i ++ i.warnings.flatMap warned

/-- The paragraph prints the sentence in the place of its verdict. -/
def BlamesKernel (now : UInt64) (i : Incident) : Prop :=
  ∃ worst, i.worst = some worst ∧
    explain f now i = opening f now i worst ++ kernelSideSentence ++ closing i

theorem worst_iff {i : Incident} : (∃ worst, i.worst = some worst) ↔ i.stalls ≠ [] := by
  rw [worst, ← Option.isSome_iff_exists, List.isSome_head?]

theorem explain_eq {i : Incident} {worst : Stall} (first : i.worst = some worst) (now : UInt64) :
    explain f now i = opening f now i worst ++ verdict f i ++ closing i := by
  unfold explain opening closing
  rw [first]
  exact List.append_assoc _ _ _

theorem verdict_cause {i : Incident} {c : Culprit} (found : i.culprits.find? (·.role = .cause) = some c) :
    (verdict f i)[2]? = some 'I' := by
  unfold verdict
  rw [found]
  simp only [List.append_assoc]
  rfl

theorem verdict_kernelSide (i : Incident) :
    verdict f i = kernelSideSentence ↔
      i.culprits ≠ [] ∧ ∀ c ∈ i.culprits, c.role ≠ .cause := by
  cases found : i.culprits.find? (·.role = .cause) with
  | some c =>
    have third := verdict_cause f found
    have cause := List.find?_some found
    constructor
    · intro same
      rw [same] at third
      have letter : kernelSideSentence[2]? = some 'N' := rfl
      rw [letter] at third
      contradiction
    · rintro ⟨_, none⟩
      exact absurd (of_decide_eq_true cause) (none c (List.mem_of_find?_eq_some found))
  | none =>
    have innocent : ∀ c ∈ i.culprits, c.role ≠ .cause := by
      intro c among
      simpa using List.find?_eq_none.mp found c among
    have mentioned : i.culprits.any (fun c => c.role = .victim || c.role = .active) = !i.culprits.isEmpty := by
      cases culprits : i.culprits with
      | nil => rfl
      | cons c cs =>
        have role := innocent c (by rw [culprits]; exact List.mem_cons_self)
        cases here : c.role with
        | cause => exact absurd here role
        | victim => simp [here]
        | active => simp [here]
    unfold verdict
    rw [found]
    rw [mentioned]
    cases culprits : i.culprits with
    | nil => exact ⟨fun same => absurd same (List.cons_ne_nil _ _).symm, fun h => absurd rfl h.1⟩
    | cons c cs =>
      rw [culprits] at innocent
      exact ⟨fun _ => ⟨List.cons_ne_nil _ _, innocent⟩, fun _ => rfl⟩

theorem blamesKernel_iff (now : UInt64) (i : Incident) :
    BlamesKernel f now i ↔
      i.stalls ≠ [] ∧ i.culprits ≠ [] ∧ ∀ c ∈ i.culprits, c.role ≠ .cause := by
  rw [← verdict_kernelSide f]
  constructor
  · rintro ⟨worst, first, said⟩
    rw [explain_eq f first] at said
    have said := List.append_cancel_left (List.append_cancel_right said)
    exact ⟨worst_iff.mp ⟨worst, first⟩, said⟩
  · rintro ⟨stalled, said⟩
    obtain ⟨worst, first⟩ := worst_iff.mpr stalled
    exact ⟨worst, first, by rw [explain_eq f first, said]⟩

/- A sampled process that moved data is passed over as no cause only when it was blocked
for half of the time or more. -/
theorem passed_over {i : Incident} (sampled : ∀ c ∈ i.culprits, ∃ p, c = Culprit.fromProc f p)
    {now : UInt64} (blamed : BlamesKernel f now i) {c : Culprit} (among : c ∈ i.culprits)
    (moved : minCauseBytes ≤ c.bytes) : c.blockedPct.lt (.whole 50) = false := by
  obtain ⟨_, _, innocent⟩ := (blamesKernel_iff f now i).mp blamed
  have notCause := innocent c among
  obtain ⟨p, rfl⟩ := sampled c among
  have role := Culprit.roleFrom_moved f moved (p.blockedPct f)
  by_contra brief
  rw [Bool.not_eq_false] at brief
  exact notCause (role.trans (if_pos brief))

/-- The evidence for the kernel side, with the bytes of the processes. -/
def NothingMoved (i : Incident) : Prop :=
  (∀ c ∈ i.culprits, c.bytes < minCauseBytes) ∧ ∀ c ∈ i.causes, c.isNameable = false

theorem kernelSide_of_moved {i : Incident} (innocent : ∀ c ∈ i.culprits, c.role ≠ .cause)
    (still : i.NothingMoved) : i.kernelSide = true := by
  simp only [kernelSide, Bool.and_eq_true, List.all_eq_true, Bool.not_eq_true', List.any_eq_false]
  exact ⟨fun c among => by simpa using innocent c among, fun c among => by simp [still.2 c among]⟩

/-- The sentence is true of the incident exactly when it is not printed, for want of
processes or because one is a cause, or when nothing was seen to move. -/
theorem verdict_truthful (now : UInt64) (i : Incident) (stalled : i.stalls ≠ []) :
    (BlamesKernel f now i → i.NothingMoved ∧ i.kernelSide = true) ↔
      i.culprits = [] ∨ (∃ c ∈ i.culprits, c.role = .cause) ∨ i.NothingMoved := by
  rw [blamesKernel_iff]
  constructor
  · intro truthful
    by_cases none : i.culprits = []
    · exact .inl none
    by_cases cause : ∃ c ∈ i.culprits, c.role = .cause
    · exact .inr (.inl cause)
    have innocent : ∀ c ∈ i.culprits, c.role ≠ .cause := fun c among role => cause ⟨c, among, role⟩
    exact .inr (.inr (truthful ⟨stalled, none, innocent⟩).1)
  · rintro condition ⟨_, some, innocent⟩
    rcases condition with none | ⟨c, among, role⟩ | still
    · exact absurd none some
    · exact absurd role (innocent c among)
    · exact ⟨still, kernelSide_of_moved innocent still⟩

/-- A process that wrote 3 GiB and was blocked in seven samples of twelve, in a cgroup
that can be named. -/
def busy : Incident where
  atUnix := 1000
  windowUsec := 1000000
  wokeOn := ["io"]
  stalls := [⟨"ghostty", "/sys/fs/cgroup/user.slice", .io, .full, 930000, .whole 93, .whole 93⟩]
  warnings := []
  culprits := [Culprit.fromProc .exact ⟨214461, "dd", 7, 12, 0, 3221225472⟩]
  causes := [⟨"dd", "/sys/fs/cgroup/user.slice/dd.scope", 0, 3221225472, 0, .whole 60, .active⟩]

/-- A process that was blocked and moved nothing, and no other evidence. -/
def frozen : Incident :=
  { busy with culprits := [Culprit.fromProc .exact ⟨2, "ghostty", 11, 12, 0, 0⟩], causes := [] }

theorem verdict_truthful_frozen :
    BlamesKernel .exact 1010 frozen ∧ frozen.NothingMoved ∧ frozen.kernelSide = true := by
  have role : Culprit.roleFrom .exact 0 (ProcCulprit.blockedPct .exact
      ⟨2, "ghostty", 11, 12, 0, 0⟩) = .victim := by decide +kernel
  have blamed : BlamesKernel .exact 1010 frozen := by
    refine (blamesKernel_iff _ _ _).mpr ⟨List.cons_ne_nil _ _, List.cons_ne_nil _ _, ?_⟩
    intro c among
    rw [List.mem_singleton.mp among]
    exact fun cause => Role.noConfusion (role.symm.trans cause)
  have still : frozen.NothingMoved := by
    refine ⟨fun c among => ?_, List.forall_mem_nil _⟩
    rw [List.mem_singleton.mp among]
    decide
  exact ⟨blamed, (verdict_truthful .exact 1010 frozen (List.cons_ne_nil _ _)).mpr (.inr (.inr still)) blamed⟩

theorem kernel_blamed_wrongly :
    BlamesKernel .exact 1010 busy ∧ (∃ c ∈ busy.culprits, minCauseBytes ≤ c.bytes) ∧
      busy.kernelSide = false := by
  have role : Culprit.roleFrom .exact 3221225472 (ProcCulprit.blockedPct .exact
      ⟨214461, "dd", 7, 12, 0, 3221225472⟩) = .active := by decide +kernel
  refine ⟨(blamesKernel_iff _ _ _).mpr ⟨List.cons_ne_nil _ _, List.cons_ne_nil _ _, ?_⟩, ?_, ?_⟩
  · intro c among
    rw [List.mem_singleton.mp among]
    exact fun cause => Role.noConfusion (role.symm.trans cause)
  · exact ⟨_, List.mem_singleton_self _, by decide⟩
  · rw [kernelSide, Bool.and_eq_false_iff]
    exact .inr (by decide)

end Incident

end Stallwatch
