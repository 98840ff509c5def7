import Stallwatch.Process

/-! What the choice of processes owes to its two orders: the worst three of each are
reported, whoever else competes, and a cause is reported when few enough come before it. -/
namespace Stallwatch.Process

open Turns (StableOrder before turn)

variable {out : List ProcCulprit}

/-- Some positions of the processes found, chosen fairly. -/
structure Fair (out : List ProcCulprit) (picked : List (Fin out.length)) : Prop where
  distinct : picked.Nodup
  length : picked.length = min out.length maxCulprits
  sorted : picked.Pairwise fun i j => bytes out j ≤ bytes out i
  worst : ∃ order, StableOrder (blocked out) order ∧ order.take (min out.length 3) ⊆ picked
  biggest : ∃ order, StableOrder (bytes out) order ∧ order.take (min out.length 3) ⊆ picked

variable (small : ∀ i, bytes out i < 2 ^ 64)
include small

theorem rank_eq : rank out = (Ranking.rank (bytes out) (keep out)).map out.get := by
  symm
  refine List.map_insertionSort (r := fun i j => bytes out j ≤ bytes out i)
    (s := fun a b => moved b ≤ moved a) _ _ fun i _ j _ => ?_
  exact (moved_le small).symm

theorem mem_rank {p : ProcCulprit} : p ∈ rank out ↔ ∃ i ∈ keep out, out.get i = p := by
  rw [rank_eq small, List.mem_map]
  simp only [(Ranking.rank_perm (bytes out) (keep out)).mem_iff]

theorem before_le (i : Fin out.length) :
    before (turn (blocked out) (bytes out)) i ≤ turn (blocked out) (bytes out) i :=
  Turns.before_le_turn byBlocked_stable (byBytes_stable small) i

/- Whoever is early in one of the orders is kept, whatever its place in the other. -/
theorem keep_early {i : Fin out.length}
    (early : Turns.place (blocked out) i < 3 ∨ Turns.place (bytes out) i < 3) : i ∈ keep out := by
  have few := before_le small i
  have soon : turn (blocked out) (bytes out) i < maxCulprits := by
    unfold turn maxCulprits
    omega
  exact (mem_keep small i).mpr (few.trans_lt soon)

theorem fair_rank : Fair out (Ranking.rank (bytes out) (keep out)) := by
  have perm := Ranking.rank_perm (bytes out) (keep out)
  exact {
    distinct := perm.nodup_iff.mpr (keep_nodup small)
    length := perm.length_eq.trans (length_keep small)
    sorted := Ranking.rank_sorted (bytes out) (keep out)
    worst := ⟨byBlocked out, byBlocked_stable, fun i listed => by
      have place := byBlocked_stable.place_of_mem_take _ listed
      exact perm.mem_iff.mpr (keep_early small (.inl (by omega)))⟩
    biggest := ⟨byBytes out, byBytes_stable small, fun i listed => by
      have place := (byBytes_stable small).place_of_mem_take _ listed
      exact perm.mem_iff.mpr (keep_early small (.inr (by omega)))⟩ }

omit small

/-- The sums of bytes fit in 64 bits. -/
def NoOverflow (out : List ProcCulprit) : Prop :=
  ∀ p ∈ out, p.readBytes.toNat + p.writeBytes.toNat < 2 ^ 64

theorem NoOverflow.bytes_lt (fits : NoOverflow out) (i : Fin out.length) : bytes out i < 2 ^ 64 :=
  fits _ (List.getElem_mem i.isLt)

theorem rank_fair (out : List ProcCulprit) (fits : NoOverflow out) :
    ∃ picked, Fair out picked ∧ rank out = picked.map out.get :=
  ⟨_, fair_rank fits.bytes_lt, rank_eq fits.bytes_lt⟩

section Causes

variable (f : Rounding)

def IsCause (p : ProcCulprit) : Prop := (Culprit.fromProc f p).role = .cause

instance : DecidablePred (IsCause f) := fun _ => inferInstanceAs (Decidable (_ = _))

/-- Some cause has fewer than six processes before it, when those most blocked and those
that moved most are read in turns. -/
def CauseInTime (out : List ProcCulprit) : Prop :=
  ∃ i : Fin out.length, IsCause f (out.get i) ∧ before (turn (blocked out) (bytes out)) i < maxCulprits

instance : Decidable (CauseInTime f out) := inferInstanceAs (Decidable (∃ _, _))

theorem cause_ranked (fits : NoOverflow out) : (∃ p ∈ rank out, IsCause f p) ↔ CauseInTime f out := by
  constructor
  · rintro ⟨p, ranked, cause⟩
    obtain ⟨i, kept, rfl⟩ := (mem_rank fits.bytes_lt).mp ranked
    exact ⟨i, cause, (mem_keep fits.bytes_lt i).mp kept⟩
  · rintro ⟨i, cause, soon⟩
    exact ⟨out.get i, (mem_rank fits.bytes_lt).mpr ⟨i, (mem_keep fits.bytes_lt i).mpr soon, rfl⟩, cause⟩

/-- A list of processes keeps a cause exactly when it has none, or one in time. -/
theorem rank_keeps_cause_iff (out : List ProcCulprit) (fits : NoOverflow out) :
    ((∃ p ∈ out, IsCause f p) → ∃ p ∈ rank out, IsCause f p) ↔
      (∀ p ∈ out, ¬ IsCause f p) ∨ CauseInTime f out := by
  rw [cause_ranked f fits]
  constructor
  · intro kept
    by_cases some : ∃ p ∈ out, IsCause f p
    · exact .inr (kept some)
    · exact .inl fun p listed cause => some ⟨p, listed, cause⟩
  · rintro (none | soon) ⟨p, listed, cause⟩
    · exact absurd cause (none p listed)
    · exact soon

/-- Blocked in every sample, moving nothing. -/
def victim (pid : UInt32) : ProcCulprit := ⟨pid, "victim", 12, 12, 0, 0⟩

/-- Blocked in half of the samples. -/
def mover (pid : UInt32) : ProcCulprit := ⟨pid, "tar", 6, 12, 0, 10485760⟩

def dd (written : UInt64) : ProcCulprit := ⟨999, "dd", 0, 12, 0, written⟩

theorem rank_keeps_cause_dd :
    ∃ p ∈ rank [victim 1, victim 2, victim 3, victim 4, victim 5, victim 6, victim 7, dd 5368709120],
      IsCause .exact p :=
  (rank_keeps_cause_iff .exact _ (by unfold NoOverflow; decide)).mpr
    (.inr ⟨7, by decide +kernel, by decide +kernel⟩) ⟨dd 5368709120, by decide, by decide +kernel⟩

theorem rank_fair_dd :
    ∃ picked, Fair [victim 1, mover 2, dd 2097152] picked ∧
      rank [victim 1, mover 2, dd 2097152] = picked.map [victim 1, mover 2, dd 2097152].get :=
  rank_fair _ (by unfold NoOverflow; decide)

/- Three that are always blocked and three that are blocked for half of the time, but
moved more, leave no room for the only cause. -/
theorem not_rank_keeps_cause :
    ¬ ∀ (f : Rounding) (out : List ProcCulprit), NoOverflow out →
      (∃ p ∈ out, IsCause f p) → ∃ p ∈ rank out, IsCause f p := by
  intro keeps
  obtain ⟨p, ranked, cause⟩ := keeps .exact
    [victim 1, victim 2, victim 3, mover 4, mover 5, mover 6, dd 2097152]
    (by unfold NoOverflow; decide) ⟨dd 2097152, by decide, by decide +kernel⟩
  have innocent : ∀ p ∈ rank [victim 1, victim 2, victim 3, mover 4, mover 5, mover 6, dd 2097152],
      ¬ IsCause .exact p := by decide +kernel
  exact innocent p ranked cause

end Causes

end Stallwatch.Process
