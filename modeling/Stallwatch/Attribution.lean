import Stallwatch.Base.Outcome
import Stallwatch.Base.Ranking
import Stallwatch.Cgroup
import Stallwatch.Iostat
import Stallwatch.Report
import Stallwatch.Responsibility

/-! From two sweeps of the cgroup tree to the stalls that are reported. The iteration
orders of the hash maps are arguments. -/
namespace Stallwatch

open Counter

/-- A delta that the loops have selected, before it is given a name. -/
structure Pick where
  cgroup : PathBuf
  resource : Resource
  delta : UInt64
  deriving DecidableEq

namespace Attribution

/-- Counters restart when a path is reused. -/
def delta (res : Resource) (before after : Snapshot) : UInt64 :=
  let b := (before.get res).totalFor res.primaryKind
  let a := (after.get res).totalFor res.primaryKind
  saturatingSub a b

/-- A cgroup absent from the first sweep has no delta. -/
def deltaOf (res : Resource) (first : HashMap PathBuf Snapshot) (cg : PathBuf) (after : Snapshot) :
    Option UInt64 :=
  (first.lookup cg).map fun before => delta res before after

def deltas (res : Resource) (first second : HashMap PathBuf Snapshot) : HashMap PathBuf UInt64 :=
  HashMap.collect (fun e => (deltaOf res first e.1 e.2).map fun d => (e.1, d)) second.entries

def pct (f : Rounding) (elapsedUs delta : UInt64) : F64 :=
  F64.percent f delta.toNat elapsedUs.toNat

def reportable (f : Rounding) (elapsedUs : UInt64) (responsibility : Responsibility) (cg : PathBuf)
    (d : UInt64) : Bool :=
  !((pct f elapsedUs d).lt minReportablePct || !responsibility.isResponsible cg d)

def picks (f : Rounding) (order : Resource → Shuffle PathBuf UInt64)
    (first second : HashMap PathBuf Snapshot) (elapsedUs : UInt64) (res : Resource) : List Pick :=
  let deltas := deltas res first second
  let responsibility := Responsibility.new deltas
  (((order res).run deltas).entries.filter fun e => reportable f elapsedUs responsibility e.1 e.2).map
    fun e => ⟨e.1, res, e.2⟩

def stall (f : Rounding) (elapsedUs : UInt64) (p : Pick) : Outcome Empty Stall := do
  let unit ← Cgroup.friendlyName p.cgroup
  let pct := pct f elapsedUs p.delta
  return { unit, cgroup := p.cgroup.toStringLossy, resource := p.resource,
           kind := p.resource.primaryKind, deltaUsec := p.delta, pressurePct := pct, peakPct := pct }

def allPicks (f : Rounding) (order : Resource → Shuffle PathBuf UInt64)
    (first second : HashMap PathBuf Snapshot) (elapsedUs : UInt64) : List Pick :=
  Resource.all.flatMap (picks f order first second elapsedUs)

def diff (f : Rounding) (order : Resource → Shuffle PathBuf UInt64)
    (first second : HashMap PathBuf Snapshot) (elapsedUs : UInt64) : Outcome Empty (List Stall) := do
  let stalls ← (allPicks f order first second elapsedUs).mapM (stall f elapsedUs)
  return (stalls.insertionSort fun a b => a.pressurePct.ge b.pressurePct).take maxStalls

/-- The bytes a cgroup moved between two sweeps, if it moved any. -/
def movedBytes (firstIo : HashMap PathBuf IoBytes) (cg : PathBuf) (after : IoBytes) : Option IoBytes :=
  (firstIo.lookup cg).bind fun before =>
    if (after.delta before).total = 0 then none else some (after.delta before)

def ownPressure (f : Rounding) (first second : HashMap PathBuf Snapshot) (elapsedUs : UInt64)
    (cg : PathBuf) : F64 :=
  match first.lookup cg, second.lookup cg with
  | some b, some a => pct f elapsedUs (delta .io b a)
  | _, _ => .finite false 0

def cause (f : Rounding) (detail : HashMap PathBuf IoBytes) (first second : HashMap PathBuf Snapshot)
    (elapsedUs : UInt64) (cg : PathBuf) : Outcome Empty Cause :=
  match detail.lookup cg with
  | none => .panic
  | some d => do
    let pressurePct := ownPressure f first second elapsedUs cg
    let unit ← Cgroup.friendlyName cg
    return { unit, cgroup := cg.toStringLossy, readBytes := d.read, writeBytes := d.write,
             discardBytes := d.discard, pressurePct, role := Cause.classify d.total pressurePct }

def collectCauses (f : Rounding) (order : Shuffle PathBuf UInt64)
    (firstIo secondIo : HashMap PathBuf IoBytes) (first second : HashMap PathBuf Snapshot)
    (elapsedUs : UInt64) : Outcome Empty (List Cause) := do
  let detail := HashMap.collect (fun e => (movedBytes firstIo e.1 e.2).map fun d => (e.1, d))
    secondIo.entries
  let byteDeltas := HashMap.collect
    (fun e => (movedBytes firstIo e.1 e.2).map fun d => (e.1, d.total)) secondIo.entries
  let responsibility := Responsibility.new byteDeltas
  let named := (order.run byteDeltas).entries.filter fun e =>
    decide (minCauseBytes ≤ e.2) && responsibility.isResponsible e.1 e.2
  let causes ← named.mapM fun e => cause f detail first second elapsedUs e.1
  return (causes.insertionSort fun a b => b.bytes ≤ a.bytes).take maxCauses

/-- The one-shot observation. Its loop over the resources is that of `diff`. -/
def collect (f : Rounding) (order : Resource → Shuffle PathBuf UInt64)
    (ioOrder : Shuffle PathBuf UInt64) (first second : HashMap PathBuf Snapshot)
    (firstIo secondIo : HashMap PathBuf IoBytes) (elapsedUs : UInt64) :
    Outcome Empty (List Stall × List Cause × UInt64) :=
  if elapsedUs = 0 then .ok ([], [], 0)
  else do
    let stalls ← diff f order first second elapsedUs
    let causes ← collectCauses f ioOrder firstIo secondIo first second elapsedUs
    return (stalls, causes, elapsedUs)

theorem lookup_deltas (res : Resource) (first second : HashMap PathBuf Snapshot) (cg : PathBuf) :
    (deltas res first second).lookup cg = (second.lookup cg).bind (deltaOf res first cg) :=
  HashMap.lookup_collect_entries (deltaOf res first) second cg

theorem lookup_deltas_eq_some {res : Resource} {first second : HashMap PathBuf Snapshot}
    {cg : PathBuf} {d : UInt64} :
    (deltas res first second).lookup cg = some d ↔ ∃ before after, first.lookup cg = some before ∧
      second.lookup cg = some after ∧ d = delta res before after := by
  rw [lookup_deltas, Option.bind_eq_some_iff]
  constructor
  · rintro ⟨after, hafter, moved⟩
    obtain ⟨before, hbefore, rfl⟩ := Option.map_eq_some_iff.mp moved
    exact ⟨before, after, hbefore, hafter, rfl⟩
  · rintro ⟨before, after, hbefore, hafter, rfl⟩
    exact ⟨after, hafter, by rw [deltaOf, hbefore]; rfl⟩

/-- What the two filters let through, whatever the iteration order. -/
structure Candidate (f : Rounding) (first second : HashMap PathBuf Snapshot) (elapsedUs : UInt64)
    (p : Pick) : Prop where
  moved : (deltas p.resource first second).lookup p.cgroup = some p.delta
  passes : reportable f elapsedUs (Responsibility.new (deltas p.resource first second)) p.cgroup
    p.delta = true

instance (f : Rounding) (first second : HashMap PathBuf Snapshot) (elapsedUs : UInt64) (p : Pick) :
    Decidable (Candidate f first second elapsedUs p) :=
  decidable_of_iff (_ ∧ _) ⟨fun h => ⟨h.1, h.2⟩, fun h => ⟨h.moved, h.passes⟩⟩

section

variable (f : Rounding) (order : Resource → Shuffle PathBuf UInt64)
  (first second : HashMap PathBuf Snapshot) (elapsedUs : UInt64)

theorem mem_picks (res : Resource) (p : Pick) :
    p ∈ picks f order first second elapsedUs res ↔
      p.resource = res ∧ Candidate f first second elapsedUs p := by
  simp only [picks, List.mem_map, List.mem_filter, ((order res).perm _).mem_iff]
  constructor
  · rintro ⟨⟨cg, d⟩, ⟨listed, passes⟩, rfl⟩
    exact ⟨rfl, HashMap.mem_entries.mp listed, passes⟩
  · rintro ⟨rfl, moved, passes⟩
    exact ⟨⟨p.cgroup, p.delta⟩, ⟨HashMap.mem_entries.mpr moved, passes⟩, rfl⟩

theorem mem_allPicks (p : Pick) :
    p ∈ allPicks f order first second elapsedUs ↔ Candidate f first second elapsedUs p := by
  simp only [allPicks, List.mem_flatMap, mem_picks]
  exact ⟨fun ⟨_, _, _, h⟩ => h, fun h => ⟨p.resource, p.resource.mem_all, rfl, h⟩⟩

theorem picks_nodup (res : Resource) : (picks f order first second elapsedUs res).Nodup := by
  have distinct := ((order res).run (deltas res first second)).nodupKeys.nodup
  refine (distinct.filter _).map ?_
  rintro ⟨cg, d⟩ ⟨cg', d'⟩ h
  cases h
  rfl

theorem allPicks_nodup : (allPicks f order first second elapsedUs).Nodup := by
  rw [allPicks, List.nodup_flatMap]
  refine ⟨fun res _ => picks_nodup f order first second elapsedUs res, ?_⟩
  have differ : Resource.all.Pairwise (· ≠ ·) := by decide
  refine differ.imp fun {a b} distinct p ha hb => distinct ?_
  rw [mem_picks] at ha hb
  exact ha.1.symm.trans hb.1

/-- The picks that survive the cut, in the order of the report. -/
def selected : List Pick :=
  ((allPicks f order first second elapsedUs).insertionSort fun a b =>
    (pct f elapsedUs a.delta).ge (pct f elapsedUs b.delta)).take maxStalls

theorem mem_selected {p : Pick} (h : p ∈ selected f order first second elapsedUs) :
    Candidate f first second elapsedUs p := by
  have listed := List.mem_of_mem_take h
  rw [List.mem_insertionSort, mem_allPicks] at listed
  exact listed

theorem stall_eq_ok {f : Rounding} {elapsedUs : UInt64} {p : Pick} {s : Stall} :
    stall f elapsedUs p = .ok s ↔ ∃ unit, Cgroup.friendlyName p.cgroup = .ok unit ∧
      s = { unit, cgroup := p.cgroup.toStringLossy, resource := p.resource,
            kind := p.resource.primaryKind, deltaUsec := p.delta,
            pressurePct := pct f elapsedUs p.delta, peakPct := pct f elapsedUs p.delta } := by
  rw [stall, Outcome.bind_eq_ok]
  simp only [Outcome.pure_eq, Outcome.ok.injEq, eq_comm]

theorem stall_eq_panic {f : Rounding} {elapsedUs : UInt64} {p : Pick} :
    stall f elapsedUs p = .panic ↔ Cgroup.friendlyName p.cgroup = .panic := by
  simp [stall, Outcome.bind_eq_panic]

/-- Either a name cannot be decoded, or the report lists the selected picks. -/
theorem diff_cases :
    diff f order first second elapsedUs = .panic ∧
        (∃ p, Candidate f first second elapsedUs p ∧ Cgroup.friendlyName p.cgroup = .panic) ∨
      ∃ stalls, diff f order first second elapsedUs = .ok stalls ∧
        (∀ p, Candidate f first second elapsedUs p → Cgroup.friendlyName p.cgroup ≠ .panic) ∧
        List.Forall₂ (fun p s => stall f elapsedUs p = .ok s)
          (selected f order first second elapsedUs) stalls := by
  have listed := mem_allPicks f order first second elapsedUs
  rcases Outcome.mapM_cases (f := stall f elapsedUs) (allPicks f order first second elapsedUs)
    with ⟨panics, p, hp, named⟩ | ⟨stalls, returns, safe, named⟩
  · exact .inl ⟨by rw [diff, panics, Outcome.panic_bind], p, (listed p).mp hp, stall_eq_panic.mp named⟩
  · refine .inr ⟨_, by rw [diff, returns, Outcome.ok_bind]; rfl, ?_, ?_⟩
    · exact fun p candidate panics => safe p ((listed p).mpr candidate) (stall_eq_panic.mpr panics)
    · refine List.forall₂_take _ (Ranking.forall₂_insertionSort ?_ named)
      intro a a' b b' hb hb'
      obtain ⟨_, _, rfl⟩ := stall_eq_ok.mp hb
      obtain ⟨_, _, rfl⟩ := stall_eq_ok.mp hb'
      exact Iff.rfl

theorem diff_mem {stalls : List Stall} {s : Stall}
    (returns : diff f order first second elapsedUs = .ok stalls) (h : s ∈ stalls) :
    ∃ p, Candidate f first second elapsedUs p ∧ stall f elapsedUs p = .ok s := by
  rcases diff_cases f order first second elapsedUs with ⟨panics, _⟩ | ⟨stalls', returns', _, records⟩
  · rw [panics] at returns
    cases returns
  · rw [returns, Outcome.ok.injEq] at returns'
    subst returns'
    obtain ⟨i, hi, rfl⟩ := List.getElem_of_mem h
    have length := records.length_eq
    refine ⟨_, mem_selected f order first second elapsedUs (List.getElem_mem (length ▸ hi)), ?_⟩
    exact (List.forall₂_iff_get.mp records).2 i (length ▸ hi) hi

theorem diff_nil (none : ∀ q, ¬ Candidate f first second elapsedUs q) :
    diff f order first second elapsedUs = .ok [] := by
  have empty : allPicks f order first second elapsedUs = [] :=
    List.eq_nil_iff_forall_not_mem.mpr fun q hq =>
      none q ((mem_allPicks f order first second elapsedUs q).mp hq)
  rw [diff, empty]
  rfl

theorem allPicks_singleton {p : Pick} (only : ∀ q, Candidate f first second elapsedUs q ↔ q = p) :
    allPicks f order first second elapsedUs = [p] := by
  refine List.perm_singleton.mp ((List.perm_ext_iff_of_nodup
    (allPicks_nodup f order first second elapsedUs) (List.nodup_singleton p)).mpr fun q => ?_)
  rw [mem_allPicks, only, List.mem_singleton]

theorem diff_singleton {p : Pick} {s : Stall}
    (only : ∀ q, Candidate f first second elapsedUs q ↔ q = p)
    (named : stall f elapsedUs p = .ok s) : diff f order first second elapsedUs = .ok [s] := by
  rw [diff, allPicks_singleton f order first second elapsedUs only, List.mapM_cons, named]
  rfl

end

end Attribution

end Stallwatch
