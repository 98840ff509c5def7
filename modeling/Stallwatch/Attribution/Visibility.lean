import Mathlib.Tactic.Linarith
import Stallwatch.Attribution.Provenance

/-! When a stall must show up in the report. The dominance rule hands the blame down the
tree and may keep four fifths of it at every level, so the floor has to be met with that
much to spare. -/
namespace Stallwatch.Attribution

open Counter

/-- At most `k` levels of the cgroups in `here` lie below `p`. -/
def Shallow (here : PathBuf → Prop) : ℕ → PathBuf → Prop
  | 0, p => ∀ q, here q → ¬ q.Within p
  | k + 1, p => ∀ q, here q → q.Within p → Shallow here k q

def SampledTwice (first second : HashMap PathBuf Snapshot) (cg : PathBuf) : Prop :=
  cg ∈ first ∧ cg ∈ second

theorem sampledTwice_iff {first second : HashMap PathBuf Snapshot} (res : Resource) (cg : PathBuf) :
    SampledTwice first second cg ↔ Responsibility.present (deltas res first second) cg = true := by
  rw [Responsibility.present_iff, SampledTwice, ← AList.lookup_isSome, ← AList.lookup_isSome,
    Option.isSome_iff_exists, Option.isSome_iff_exists]
  constructor
  · rintro ⟨⟨before, hbefore⟩, after, hafter⟩
    exact ⟨_, lookup_deltas_eq_some.mpr ⟨before, after, hbefore, hafter, rfl⟩⟩
  · rintro ⟨d, hd⟩
    obtain ⟨before, after, hbefore, hafter, _⟩ := lookup_deltas_eq_some.mp hd
    exact ⟨⟨before, hbefore⟩, after, hafter⟩

/- In exact rationals the floor is a comparison of integers. -/
theorem reaches_floor {elapsedUs : UInt64} (pos : 0 < elapsedUs) (d : UInt64) :
    (pct .exact elapsedUs d).lt minReportablePct = false ↔ elapsedUs.toNat ≤ d.toNat * 100 := by
  have positive : (0 : ℚ≥0) < elapsedUs.toNat := by
    exact_mod_cast UInt64.lt_iff_toNat_lt.mp pos
  have floor : minReportablePct = F64.ofMagnitude false ((1 : ℚ≥0) : WithTop ℚ≥0) := rfl
  rw [pct, F64.percent_eq .exact d.toNat_lt elapsedUs.toNat_lt (UInt64.lt_iff_toNat_lt.mp pos),
    floor, F64.lt_ofMagnitude, decide_eq_false_iff_not, F64.share_exact, WithTop.coe_lt_coe, not_lt,
    div_mul_eq_mul_div, one_le_div positive]
  exact_mod_cast Iff.rfl

theorem diff_ne_nil {first second : HashMap PathBuf Snapshot} {elapsedUs : UInt64}
    (order : Resource → Shuffle PathBuf UInt64)
    (some : ∃ p, Candidate .exact first second elapsedUs p) :
    diff .exact order first second elapsedUs ≠ .ok [] := by
  obtain ⟨p, candidate⟩ := some
  intro empty
  rcases diff_cases .exact order first second elapsedUs with
    ⟨panics, _⟩ | ⟨stalls, returns, _, records⟩
  · rw [empty] at panics
    cases panics
  · rw [empty, Outcome.ok.injEq] at returns
    subst returns
    have none := List.forall₂_nil_right_iff.mp records
    have listed := (mem_allPicks .exact order first second elapsedUs p).mpr candidate
    have length := congrArg List.length none
    rw [selected, List.length_take, List.length_insertionSort, List.length_nil] at length
    have some := List.length_pos_of_mem listed
    simp only [maxStalls] at length
    omega

section

variable {first second : HashMap PathBuf Snapshot} {elapsedUs : UInt64} (pos : 0 < elapsedUs)
  (bounded : ∀ res cg before after, first.lookup cg = some before → second.lookup cg = some after →
    (delta res before after).toNat ≤ (2 ^ 64 - 1) / 100)
include pos bounded

/- Blame that is handed down loses at most a fifth. -/
theorem candidate_of_shallow (res : Resource) (k : ℕ) (cg : PathBuf) (d : UInt64)
    (moved : (deltas res first second).lookup cg = some d)
    (shallow : Shallow (SampledTwice first second) k cg)
    (visible : 5 ^ k * elapsedUs.toNat ≤ 4 ^ k * (d.toNat * 100)) :
    ∃ p, Candidate .exact first second elapsedUs p := by
  have small : ∀ q e, (deltas res first second).lookup q = some e → e.toNat ≤ (2 ^ 64 - 1) / 100 := by
    intro q e he
    obtain ⟨before, after, hbefore, hafter, rfl⟩ := lookup_deltas_eq_some.mp he
    exact bounded res q before after hbefore hafter
  have positive : 0 < elapsedUs.toNat := UInt64.lt_iff_toNat_lt.mp pos
  induction k generalizing cg d with
  | zero =>
    rw [pow_zero, pow_zero, one_mul, one_mul] at visible
    refine ⟨⟨cg, res, d⟩, moved, ?_⟩
    have responsible : (Responsibility.new (deltas res first second)).isResponsible cg d = true := by
      rw [Responsibility.isResponsible_iff small moved]
      refine ⟨by omega, fun q e _ below => ?_⟩
      obtain ⟨here, _, within⟩ := below.within
      exact absurd within (shallow q ((sampledTwice_iff res q).mpr here))
    simp [reportable, responsible, (reaches_floor pos d).mpr visible]
  | succ k ih =>
    have spare : 4 ^ (k + 1) * (d.toNat * 100) ≤ 5 ^ (k + 1) * (d.toNat * 100) :=
      Nat.mul_le_mul_right _ (Nat.pow_le_pow_left (by decide) _)
    have floor : elapsedUs.toNat ≤ d.toNat * 100 :=
      Nat.le_of_mul_le_mul_left (visible.trans spare) (by positivity)
    by_cases responsible :
        (Responsibility.new (deltas res first second)).isResponsible cg d = true
    · exact ⟨⟨cg, res, d⟩, moved, by simp [reportable, responsible, (reaches_floor pos d).mpr floor]⟩
    · rw [Responsibility.isResponsible_iff small moved, not_and] at responsible
      have dominated := responsible (by omega)
      push Not at dominated
      obtain ⟨q, e, he, below, most⟩ := dominated
      obtain ⟨here, _, within⟩ := below.within
      refine ih q e he (shallow q ((sampledTwice_iff res q).mpr here) within) ?_
      have scaled : 5 * (5 ^ k * elapsedUs.toNat) ≤ 5 * (4 ^ k * (e.toNat * 100)) := by
        calc 5 * (5 ^ k * elapsedUs.toNat) = 5 ^ (k + 1) * elapsedUs.toNat := by ring
          _ ≤ 4 ^ (k + 1) * (d.toNat * 100) := visible
          _ = 4 ^ k * (5 * (d.toNat * 80)) := by ring
          _ ≤ 4 ^ k * (5 * (e.toNat * 100)) := by gcongr
          _ = 5 * (4 ^ k * (e.toNat * 100)) := by ring
      exact Nat.le_of_mul_le_mul_left scaled (by decide)

/-- A delta of one hundredth of the window, and a quarter more for every level below, is
never left out of a report that can be written. -/
theorem visible_reported (order : Resource → Shuffle PathBuf UInt64) (res : Resource) (cg : PathBuf)
    (before after : Snapshot) (sampledFirst : first.lookup cg = some before)
    (sampledSecond : second.lookup cg = some after) (k : ℕ)
    (shallow : Shallow (SampledTwice first second) k cg)
    (visible : 5 ^ k * elapsedUs.toNat ≤ 4 ^ k * ((delta res before after).toNat * 100)) :
    (diff .exact order first second elapsedUs = .panic → ∃ p,
      Candidate .exact first second elapsedUs p ∧ Cgroup.friendlyName p.cgroup = .panic) ∧
    diff .exact order first second elapsedUs ≠ .ok [] ∧
    ∀ ioOrder firstIo secondIo causes window,
      collect .exact order ioOrder first second firstIo secondIo elapsedUs ≠ .ok ([], causes, window) := by
  have moved : (deltas res first second).lookup cg = some (delta res before after) :=
    lookup_deltas_eq_some.mpr ⟨before, after, sampledFirst, sampledSecond, rfl⟩
  have candidate := candidate_of_shallow pos bounded res k cg _ moved shallow visible
  have full := diff_ne_nil order candidate
  refine ⟨fun panics => ?_, full, fun ioOrder firstIo secondIo causes window empty => ?_⟩
  · rcases diff_cases .exact order first second elapsedUs with ⟨_, unnamed⟩ | ⟨stalls, returns, _⟩
    · exact unnamed
    · rw [panics] at returns
      cases returns
  · have nonzero : elapsedUs ≠ 0 := fun h => by simp [h] at pos
    rw [collect, if_neg nonzero, Outcome.bind_eq_ok] at empty
    obtain ⟨stalls, hstalls, empty⟩ := empty
    obtain ⟨_, _, empty⟩ := Outcome.bind_eq_ok.mp empty
    cases empty
    exact full hstalls

end

def parent : PathBuf := .absolute ["sys", "fs", "cgroup", "a.slice"]

def child : PathBuf := .absolute ["sys", "fs", "cgroup", "a.slice", "b.service"]

def snapshots (parentUs childUs : UInt64) : HashMap PathBuf Snapshot :=
  HashMap.collect some
    [(parent, Snapshot.default.set ⟨parentUs, parentUs⟩ .io),
      (child, Snapshot.default.set ⟨childUs, childUs⟩ .io)]

theorem snapshots_bounded (res : Resource) (cg : PathBuf) (before after : Snapshot)
    (hb : (snapshots 0 0).lookup cg = some before) (ha : (snapshots 125 110).lookup cg = some after) :
    (delta res before after).toNat ≤ (2 ^ 64 - 1) / 100 := by
  have all : ∀ b ∈ (snapshots 0 0).entries, ∀ a ∈ (snapshots 125 110).entries,
      (delta res b.2 a.2).toNat ≤ (2 ^ 64 - 1) / 100 := by
    cases res <;> decide
  exact all _ (HashMap.mem_entries.mpr hb) _ (HashMap.mem_entries.mpr ha)

/- A quarter more than one hundredth is enough above a single level. -/
theorem visible_reported_parent :
    diff .exact (fun _ => .same) (snapshots 0 0) (snapshots 125 110) 10000 ≠ .ok [] := by
  have levels : ∀ q ∈ (snapshots 0 0).keys, q ≠ parent ∧ q.startsWith parent = true →
      ∀ r ∈ (snapshots 0 0).keys, ¬ (r ≠ q ∧ r.startsWith q = true) := by decide
  exact (visible_reported (by decide) snapshots_bounded
    (fun _ => .same) .io parent Snapshot.default (Snapshot.default.set ⟨125, 125⟩ .io) (by decide)
    (by decide) 1 (fun q hq within r hr => levels q hq.1 within r hr.1) (by decide)).2.1

/- One hundredth of the window for the parent, four fifths of that for its child: the
parent hands the blame down and the child falls through the floor. -/
theorem visible_not_reported :
    ¬ ∀ (order : Resource → Shuffle PathBuf UInt64) (first second : HashMap PathBuf Snapshot)
      (elapsedUs : UInt64), 0 < elapsedUs →
      (∃ res cg before after, first.lookup cg = some before ∧ second.lookup cg = some after ∧
        elapsedUs.toNat ≤ (delta res before after).toNat * 100) →
      diff .exact order first second elapsedUs ≠ .ok [] := by
  intro always
  refine always (fun _ => .same) (snapshots 0 0) (snapshots 100 80) 10000 (by decide)
    ⟨.io, parent, Snapshot.default, Snapshot.default.set ⟨100, 100⟩ .io, by decide, by decide,
      by decide⟩ ?_
  decide +kernel

end Stallwatch.Attribution
