import Stallwatch.Base.Ranking
import Stallwatch.Base.Turns
import Stallwatch.Incident.Verdict

/-! The choice of the processes that a drill reports. The worst blocked and the biggest
movers are read in turns, so the order of both decides who is kept. -/
namespace Stallwatch.Process

open Turns (StableOrder Taken push before turn)

def maxCulprits : ℕ := 6

/-- Bytes read and written; the sum wraps, as it does in a release build. -/
def moved (p : ProcCulprit) : UInt64 := p.readBytes + p.writeBytes

section Loop

variable {ι : Type} [DecidableEq ι]

/-- One source of a round; a source that has run out is passed over. -/
def pushNext (rank : ℕ) (keep : List ι) (src : List ι) : List ι :=
  match src[rank]? with
  | some i => push keep i
  | none => keep

/-- The cap is tested after both sources of a round. -/
def interleave (sources : List (List ι)) : List ℕ → List ι → List ι
  | [], keep => keep
  | rank :: ranks, keep =>
    let keep := sources.foldl (pushNext rank) keep
    if maxCulprits ≤ keep.length then keep else interleave sources ranks keep

end Loop

section Rank

variable (out : List ProcCulprit)

def byBlocked : List (Fin out.length) :=
  (List.finRange out.length).insertionSort fun i j => out[j].blockedSamples ≤ out[i].blockedSamples

def byBytes : List (Fin out.length) :=
  (List.finRange out.length).insertionSort fun i j => moved out[j] ≤ moved out[i]

def keep : List (Fin out.length) :=
  (interleave [byBlocked out, byBytes out] (List.range out.length) []).take maxCulprits

def rank : List ProcCulprit :=
  ((keep out).map fun i => out[i]).insertionSort fun a b => moved b ≤ moved a

/-- How long the process at a position was blocked. -/
def blocked (i : Fin out.length) : ℕ := out[i].blockedSamples.toNat

/-- What the process at a position moved. -/
def bytes (i : Fin out.length) : ℕ := out[i].readBytes.toNat + out[i].writeBytes.toNat

end Rank

section Invariant

variable {ι κ κ' : Type} [LinearOrder ι] [LinearOrder κ] [LinearOrder κ'] [Fintype ι]
  {key : ι → κ} {key' : ι → κ'} {as bs keep : List ι}

/- After its rounds the loop has taken all whose turn came, enough of them or everyone. -/
theorem interleave_taken (first : StableOrder key as) (second : StableOrder key' bs) (m r : ℕ)
    (rounds : r + m = Fintype.card ι) (taken : Taken (turn key key') (2 * r) keep) :
    ∃ t, Taken (turn key key') t (interleave [as, bs] (List.range' r m) keep) ∧
      (maxCulprits ≤ (interleave [as, bs] (List.range' r m) keep).length ∨
        ∀ i, turn key key' i < t) := by
  induction m generalizing r keep with
  | zero =>
    refine ⟨2 * r, taken, .inr fun i => ?_⟩
    have inside := Turns.turn_lt key key' i
    omega
  | succ m ih =>
    have left : r < as.length := by
      rw [first.length]
      omega
    have right : r < bs.length := by
      rw [second.length]
      omega
    have round := taken.round first second (List.getElem?_eq_getElem left) (List.getElem?_eq_getElem right)
    have pushed : [as, bs].foldl (pushNext r) keep = push (push keep as[r]) bs[r] := by
      simp [pushNext, left, right]
    rw [List.range'_succ, interleave, pushed]
    split
    · rename_i full
      exact ⟨_, round, .inl full⟩
    · exact ih (r + 1) (by omega) round

end Invariant

section Kept

variable {out : List ProcCulprit}

theorem byBlocked_stable : StableOrder (blocked out) (byBlocked out) := by
  have agree : ∀ i j : Fin out.length,
      out[j].blockedSamples ≤ out[i].blockedSamples ↔ blocked out j ≤ blocked out i :=
    fun i j => UInt32.le_iff_toNat_le
  rw [byBlocked, Ranking.insertionSort_eq_rank (blocked out) agree]
  exact Turns.insertionSort_stable _ (List.pairwise_lt_finRange _) (List.mem_finRange)

theorem moved_toNat {p : ProcCulprit} (small : p.readBytes.toNat + p.writeBytes.toNat < 2 ^ 64) :
    (moved p).toNat = p.readBytes.toNat + p.writeBytes.toNat := by
  rw [moved, UInt64.toNat_add, Nat.mod_eq_of_lt small]

theorem moved_le {i j : Fin out.length} (small : ∀ i, bytes out i < 2 ^ 64) :
    moved out[j] ≤ moved out[i] ↔ bytes out j ≤ bytes out i := by
  rw [UInt64.le_iff_toNat_le, moved_toNat (small i), moved_toNat (small j), bytes, bytes]

theorem byBytes_stable (small : ∀ i, bytes out i < 2 ^ 64) : StableOrder (bytes out) (byBytes out) := by
  rw [byBytes, Ranking.insertionSort_eq_rank (bytes out) fun i j => moved_le small]
  exact Turns.insertionSort_stable _ (List.pairwise_lt_finRange _) (List.mem_finRange)

variable (small : ∀ i, bytes out i < 2 ^ 64)
include small

theorem interleaved : ∃ t taken, keep out = List.take maxCulprits taken ∧
    Taken (turn (blocked out) (bytes out)) t taken ∧
      (maxCulprits ≤ taken.length ∨ ∀ i, turn (blocked out) (bytes out) i < t) := by
  obtain ⟨t, taken, enough⟩ := interleave_taken byBlocked_stable (byBytes_stable small) out.length 0
    (by simp) (Turns.taken_nil _)
  rw [← List.range_eq_range'] at taken enough
  exact ⟨t, _, rfl, taken, enough⟩

/-- Who is kept has fewer than six before it when both orders are read in turns. -/
theorem mem_keep (i : Fin out.length) :
    i ∈ keep out ↔ before (turn (blocked out) (bytes out)) i < maxCulprits := by
  obtain ⟨t, taken, kept, all, enough⟩ := interleaved small
  rw [kept]
  exact all.mem_take enough i

theorem keep_nodup : (keep out).Nodup := by
  obtain ⟨t, taken, kept, all, _⟩ := interleaved small
  rw [kept]
  exact all.nodup.sublist (List.take_sublist _ _)

theorem length_keep : (keep out).length = min out.length maxCulprits := by
  obtain ⟨t, taken, kept, all, enough⟩ := interleaved small
  have bounded := all.nodup.length_le_card
  rw [Fintype.card_fin] at bounded
  rw [kept, List.length_take]
  rcases enough with full | everyone
  · omega
  · have length := all.length
    rw [Finset.filter_true_of_mem fun i _ => everyone i, Finset.card_univ, Fintype.card_fin] at length
    omega

end Kept

end Stallwatch.Process
