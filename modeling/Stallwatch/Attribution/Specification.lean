import Stallwatch.Attribution.Causes
import Stallwatch.Attribution.Visibility
import Stallwatch.Base.PathText

/-! What a report of stalls has to be: the best of all pairs of a cgroup and a resource that
are to blame. The loops over the maps make such a report whenever they can name what they
blame. -/
namespace Stallwatch.Attribution

open Counter

/-- Sampled twice, stalled for one hundredth of the window, and no cgroup below it stalled
for four fifths of that. -/
structure Blamed (first second : HashMap PathBuf Snapshot) (elapsedUs : UInt64) (p : Pick) : Prop where
  sampled : ∃ before after, first.lookup p.cgroup = some before ∧
    second.lookup p.cgroup = some after ∧ p.delta = delta p.resource before after
  visible : elapsedUs.toNat ≤ p.delta.toNat * 100
  undominated : ∀ q before after, first.lookup q = some before → second.lookup q = some after →
    q.Descends p.cgroup → (delta p.resource before after).toNat * 100 < p.delta.toNat * 80

/-- The share of the window, in exact rationals. -/
def pressure (elapsedUs : UInt64) (p : Pick) : ℚ≥0 := p.delta.toNat / elapsedUs.toNat * (100 : ℕ)

structure Records (elapsedUs : UInt64) (p : Pick) (s : Stall) : Prop where
  unit : Cgroup.friendlyName p.cgroup = .ok s.unit
  cgroup : s.cgroup = p.cgroup.toStringLossy
  resource : s.resource = p.resource
  kind : s.kind = p.resource.primaryKind
  delta : s.deltaUsec = p.delta
  pressure : s.pressurePct = .finite false (pressure elapsedUs p)
  peak : s.peakPct = s.pressurePct

/-- The best of what is to blame, each pair of a cgroup and a resource once. Where all paths
are text, their text tells the entries apart. -/
structure Specified (first second : HashMap PathBuf Snapshot) (elapsedUs : UInt64)
    (stalls : List Stall) : Prop where
  selection : ∃ chosen, Ranking.Top (pressure elapsedUs) (Blamed first second elapsedUs) maxStalls chosen ∧
    (chosen.map fun p => (p.cgroup, p.resource)).Nodup ∧
    List.Forall₂ (Records elapsedUs) chosen stalls
  ranked : stalls.Pairwise fun a b => b.pressurePct.magnitude ≤ a.pressurePct.magnitude
  told : (∀ cg, SampledTwice first second cg → cg.Proper ∧ cg.IsUtf8) →
    (stalls.map fun s => (s.cgroup, s.resource)).Nodup

section

variable {first second : HashMap PathBuf Snapshot} {elapsedUs : UInt64}

theorem Blamed.sampledTwice {p : Pick} (blamed : Blamed first second elapsedUs p) :
    SampledTwice first second p.cgroup := by
  obtain ⟨before, after, hbefore, hafter, _⟩ := blamed.sampled
  exact ⟨AList.lookup_isSome.mp (by simp [hbefore]), AList.lookup_isSome.mp (by simp [hafter])⟩

/- The pair decides the delta. -/
theorem Blamed.eq {p q : Pick} (hp : Blamed first second elapsedUs p)
    (hq : Blamed first second elapsedUs q) (cgroup : p.cgroup = q.cgroup)
    (resource : p.resource = q.resource) : p = q := by
  obtain ⟨b, a, hb, ha, hd⟩ := hp.sampled
  obtain ⟨b', a', hb', ha', hd'⟩ := hq.sampled
  obtain ⟨cg, res, d⟩ := p
  obtain ⟨cg', res', d'⟩ := q
  cases cgroup
  cases resource
  rw [hb, Option.some.injEq] at hb'
  rw [ha, Option.some.injEq] at ha'
  subst hb' ha'
  rw [Pick.mk.injEq]
  exact ⟨rfl, rfl, hd.trans hd'.symm⟩

theorem pct_exact (pos : 0 < elapsedUs) (p : Pick) :
    pct .exact elapsedUs p.delta = .finite false (pressure elapsedUs p) := pct_eq .exact pos p

variable (pos : 0 < elapsedUs)
  (bounded : ∀ res cg before after, first.lookup cg = some before → second.lookup cg = some after →
    (delta res before after).toNat ≤ (2 ^ 64 - 1) / 100)
include pos bounded

theorem candidate_iff (p : Pick) :
    Candidate .exact first second elapsedUs p ↔ Blamed first second elapsedUs p := by
  have small : ∀ q e, (deltas p.resource first second).lookup q = some e →
      e.toNat ≤ (2 ^ 64 - 1) / 100 := by
    intro q e he
    obtain ⟨before, after, hbefore, hafter, rfl⟩ := lookup_deltas_eq_some.mp he
    exact bounded p.resource q before after hbefore hafter
  have positive : 0 < elapsedUs.toNat := UInt64.lt_iff_toNat_lt.mp pos
  have passes (moved : (deltas p.resource first second).lookup p.cgroup = some p.delta) :
      reportable .exact elapsedUs (Responsibility.new (deltas p.resource first second)) p.cgroup p.delta
        = true ↔ elapsedUs.toNat ≤ p.delta.toNat * 100 ∧ 0 < p.delta.toNat ∧
          ∀ q e, (deltas p.resource first second).lookup q = some e → q.Descends p.cgroup →
            ¬ p.delta.toNat * 80 ≤ e.toNat * 100 := by
    rw [reportable, Bool.not_eq_true', Bool.or_eq_false_iff, reaches_floor pos, Bool.not_eq_false',
      Responsibility.isResponsible_descends small moved]
  constructor
  · rintro ⟨moved, passed⟩
    obtain ⟨visible, _, undominated⟩ := (passes moved).mp passed
    refine ⟨lookup_deltas_eq_some.mp moved, visible, fun q b a hb ha below => not_le.mp ?_⟩
    exact undominated q _ (lookup_deltas_eq_some.mpr ⟨b, a, hb, ha, rfl⟩) below
  · rintro ⟨sampled, visible, undominated⟩
    have moved := lookup_deltas_eq_some.mpr sampled
    refine ⟨moved, (passes moved).mpr ⟨visible, by omega, fun q e he below => not_le.mpr ?_⟩⟩
    obtain ⟨b, a, hb, ha, rfl⟩ := lookup_deltas_eq_some.mp he
    exact undominated q b a hb ha below

theorem selected_top (order : Resource → Shuffle PathBuf UInt64) :
    Ranking.Top (pressure elapsedUs) (Blamed first second elapsedUs) maxStalls
      (selected .exact order first second elapsedUs) := by
  have agree : ∀ a b : Pick, (pct .exact elapsedUs a.delta).ge (pct .exact elapsedUs b.delta) = true ↔
      pressure elapsedUs b ≤ pressure elapsedUs a := by
    intro a b
    rw [pct_exact pos, pct_exact pos, F64.ge, F64.lt_finite]
    simp
  have ranked := Ranking.insertionSort_eq_rank _ agree (allPicks .exact order first second elapsedUs)
  rw [selected, ranked]
  refine Ranking.top_take_rank _ (allPicks_nodup .exact order first second elapsedUs) (fun p => ?_) _
  rw [mem_allPicks, candidate_iff pos bounded]

omit bounded in
theorem records {p : Pick} {s : Stall} (named : stall .exact elapsedUs p = .ok s) :
    Records elapsedUs p s := by
  obtain ⟨unit, friendly, rfl⟩ := stall_eq_ok.mp named
  exact ⟨friendly, rfl, rfl, rfl, rfl, pct_exact pos p, rfl⟩

theorem specified {order : Resource → Shuffle PathBuf UInt64} {stalls : List Stall}
    (recorded : List.Forall₂ (fun p s => stall .exact elapsedUs p = .ok s)
      (selected .exact order first second elapsedUs) stalls) :
    Specified first second elapsedUs stalls := by
  have top := selected_top pos bounded order
  have rows := recorded.imp fun p s named => records pos named
  have pairs : ((selected .exact order first second elapsedUs).map
      fun p => (p.cgroup, p.resource)).Nodup := by
    refine List.Nodup.map_on (fun p hp q hq same => ?_) top.distinct
    exact (top.members p hp).eq (top.members q hq) (Prod.ext_iff.mp same).1 (Prod.ext_iff.mp same).2
  refine ⟨⟨_, top, pairs, rows⟩, ?_, fun text => ?_⟩
  · refine Ranking.forall₂_pairwise (fun p q s t hp hq less => ?_) rows top.ranked
    rw [hp.pressure, hq.pressure]
    exact less
  · have both := (List.forall₂_and_left _ _).mpr ⟨top.members, rows⟩
    rw [List.Nodup, List.pairwise_map]
    refine Ranking.forall₂_pairwise (fun p q s t hp hq differ same => differ ?_) both top.distinct
    obtain ⟨texts, resources⟩ := Prod.ext_iff.mp same
    rw [hp.2.cgroup, hq.2.cgroup] at texts
    rw [hp.2.resource, hq.2.resource] at resources
    obtain ⟨properLeft, left⟩ := text p.cgroup hp.1.sampledTwice
    obtain ⟨properRight, right⟩ := text q.cgroup hq.1.sampledTwice
    exact hp.1.eq hq.1 (PathBuf.toStringLossy_injective properLeft properRight left right texts) resources

theorem diff_specified_cases (order : Resource → Shuffle PathBuf UInt64) :
    diff .exact order first second elapsedUs = .panic ∧
        (∃ p, Blamed first second elapsedUs p ∧ Cgroup.TornName p.cgroup) ∨
      ∃ stalls, diff .exact order first second elapsedUs = .ok stalls ∧
        (∀ p, Blamed first second elapsedUs p → ¬ Cgroup.TornName p.cgroup) ∧
        Specified first second elapsedUs stalls := by
  rcases diff_cases .exact order first second elapsedUs with
    ⟨panics, p, candidate, unnamed⟩ | ⟨stalls, returns, safe, recorded⟩
  · exact .inl ⟨panics, p, (candidate_iff pos bounded p).mp candidate,
      (Cgroup.friendlyName_panics _).mp unnamed⟩
  · refine .inr ⟨stalls, returns, fun p blamed torn => ?_, specified pos bounded recorded⟩
    exact safe p ((candidate_iff pos bounded p).mpr blamed) ((Cgroup.friendlyName_panics _).mpr torn)

/-- The stalls of a report are the best of what is to blame, in `diff` exactly when no name
in question is torn, and in `collect` when none of a suspected cause is either. -/
theorem diff_specified_iff (order : Resource → Shuffle PathBuf UInt64) :
    ((∃ stalls, diff .exact order first second elapsedUs = .ok stalls ∧
        Specified first second elapsedUs stalls) ↔
      ∀ p, Blamed first second elapsedUs p → ¬ Cgroup.TornName p.cgroup) ∧
    ∀ (ioOrder : Shuffle PathBuf UInt64) (firstIo secondIo : HashMap PathBuf IoBytes),
      (∀ cg before after, firstIo.lookup cg = some before → secondIo.lookup cg = some after →
        (after.delta before).total.toNat ≤ (2 ^ 64 - 1) / 100) →
      ((∃ stalls causes, collect .exact order ioOrder first second firstIo secondIo elapsedUs =
          .ok (stalls, causes, elapsedUs) ∧ Specified first second elapsedUs stalls) ↔
        (∀ p, Blamed first second elapsedUs p → ¬ Cgroup.TornName p.cgroup) ∧
          ∀ m, Suspect firstIo secondIo m → ¬ Cgroup.TornName m.cgroup) := by
  have nonzero : elapsedUs ≠ 0 := fun h => by simp [h] at pos
  rcases diff_specified_cases pos bounded order with
    ⟨panics, p, blamed, torn⟩ | ⟨stalls, returns, safe, specified⟩
  · have fails : ¬ ∀ p, Blamed first second elapsedUs p → ¬ Cgroup.TornName p.cgroup :=
      fun safe => safe p blamed torn
    refine ⟨by simp [panics, fails], fun ioOrder firstIo secondIo _ => ?_⟩
    rw [collect, if_neg nonzero, panics]
    simp [fails]
  · refine ⟨⟨fun _ => safe, fun _ => ⟨stalls, returns, specified⟩⟩, fun ioOrder firstIo secondIo few => ?_⟩
    rw [collect, if_neg nonzero, returns, Outcome.ok_bind]
    rcases collectCauses_cases .exact ioOrder first second elapsedUs few with
      ⟨panics, m, suspect, torn⟩ | ⟨causes, named, clean, _⟩
    · have fails : ¬ ∀ m, Suspect firstIo secondIo m → ¬ Cgroup.TornName m.cgroup :=
        fun clean => clean m suspect torn
      simp [panics, fails]
    · rw [named]
      exact ⟨fun _ => ⟨safe, clean⟩, fun _ => ⟨stalls, causes, rfl, specified⟩⟩

end

theorem diff_specified_parent : ∃ stalls,
    diff .exact (fun _ => .same) (snapshots 0 0) (snapshots 125 110) 10000 = .ok stalls ∧
      Specified (snapshots 0 0) (snapshots 125 110) 10000 stalls := by
  have plain : ∀ cg ∈ (snapshots 0 0).keys, Cgroup.friendlyName cg ≠ .panic := by decide +kernel
  refine (diff_specified_iff (by decide) snapshots_bounded fun _ => .same).1.mpr fun p blamed torn => ?_
  exact plain p.cgroup blamed.sampledTwice.1 ((Cgroup.friendlyName_panics _).mpr torn)

/- Half of the window for a unit whose name the decoding does not survive. -/
def tornService : PathBuf := .absolute ["sys", "fs", "cgroup", "\\xaé.service"]

def tornSnapshots (us : UInt64) : HashMap PathBuf Snapshot :=
  HashMap.collect some [(tornService, Snapshot.default.set ⟨us, us⟩ .io)]

theorem not_diff_specified :
    diff .exact (fun _ => .same) (tornSnapshots 0) (tornSnapshots 5000) 10000 = .panic ∧
      ¬ ∀ (order : Resource → Shuffle PathBuf UInt64) (first second : HashMap PathBuf Snapshot)
        (elapsedUs : UInt64), 0 < elapsedUs →
        (∀ res cg before after, first.lookup cg = some before → second.lookup cg = some after →
          (delta res before after).toNat ≤ (2 ^ 64 - 1) / 100) →
        ∃ stalls, diff .exact order first second elapsedUs = .ok stalls ∧
          Specified first second elapsedUs stalls := by
  have panics : diff .exact (fun _ => .same) (tornSnapshots 0) (tornSnapshots 5000) 10000 = .panic := by
    decide +kernel
  refine ⟨panics, fun always => ?_⟩
  have small : ∀ res, ∀ b ∈ (tornSnapshots 0).entries, ∀ a ∈ (tornSnapshots 5000).entries,
      (delta res b.2 a.2).toNat ≤ (2 ^ 64 - 1) / 100 := by
    intro res
    cases res <;> decide
  obtain ⟨stalls, returns, _⟩ := always (fun _ => .same) (tornSnapshots 0) (tornSnapshots 5000) 10000
    (by decide) fun res _ _ _ hb ha =>
      small res _ (HashMap.mem_entries.mpr hb) _ (HashMap.mem_entries.mpr ha)
  rw [panics] at returns
  cases returns

end Stallwatch.Attribution
