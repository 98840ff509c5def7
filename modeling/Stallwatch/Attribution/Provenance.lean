import Stallwatch.Attribution

/-! Where a reported delta comes from. A snapshot stores zero for a file that could not
be read, so a file that becomes readable between two sweeps looks like one long stall. -/
namespace Stallwatch.Attribution

open Counter

def share (f : Rounding) (elapsedUs : UInt64) (p : Pick) : WithTop ℚ≥0 :=
  F64.share f p.delta.toNat elapsedUs.toNat

theorem pct_eq (f : Rounding) {elapsedUs : UInt64} (pos : 0 < elapsedUs) (p : Pick) :
    pct f elapsedUs p.delta = F64.ofMagnitude false (share f elapsedUs p) :=
  F64.percent_eq f p.delta.toNat_lt elapsedUs.toNat_lt (UInt64.lt_iff_toNat_lt.mp pos)

theorem pct_lt (f : Rounding) {elapsedUs : UInt64} (pos : 0 < elapsedUs) (p q : Pick) :
    (pct f elapsedUs p.delta).lt (pct f elapsedUs q.delta) = true ↔
      share f elapsedUs p < share f elapsedUs q := by
  rw [pct_eq f pos, pct_eq f pos, F64.lt_ofMagnitude, decide_eq_true_iff]

/-- `q` stands before `p` in every report that lists both: it has the larger
percentage, or the same one for a resource that is diffed earlier. -/
def Outranks (f : Rounding) (elapsedUs : UInt64) (q p : Pick) : Prop :=
  (pct f elapsedUs p.delta).lt (pct f elapsedUs q.delta) = true ∨
    (pct f elapsedUs q.delta).lt (pct f elapsedUs p.delta) = false ∧ q.resource.index < p.resource.index

theorem outranks_iff (f : Rounding) {elapsedUs : UInt64} (pos : 0 < elapsedUs) (p q : Pick) :
    Outranks f elapsedUs q p ↔ share f elapsedUs p < share f elapsedUs q ∨
      share f elapsedUs p ≤ share f elapsedUs q ∧ q.resource.index < p.resource.index := by
  rw [Outranks, pct_lt f pos, ← Bool.not_eq_true, pct_lt f pos, not_lt]

/-- Ten candidates outrank `p`. -/
def Crowded (f : Rounding) (first second : HashMap PathBuf Snapshot) (elapsedUs : UInt64)
    (p : Pick) : Prop :=
  ∃ better : List Pick, better.Nodup ∧ maxStalls ≤ better.length ∧
    ∀ q ∈ better, Candidate f first second elapsedUs q ∧ Outranks f elapsedUs q p

section

variable (f : Rounding) (order : Resource → Shuffle PathBuf UInt64)
  (first second : HashMap PathBuf Snapshot) {elapsedUs : UInt64} (pos : 0 < elapsedUs)

theorem allPicks_sorted :
    (allPicks f order first second elapsedUs).Pairwise fun a b =>
      a.resource.index ≤ b.resource.index := by
  rw [allPicks, List.pairwise_flatMap]
  have resource : ∀ res p, p ∈ picks f order first second elapsedUs res → p.resource = res :=
    fun res p h => ((mem_picks f order first second elapsedUs res p).mp h).1
  constructor
  · intro res _
    refine List.pairwise_of_forall_mem_list fun a ha b hb => ?_
    rw [resource res a ha, resource res b hb]
  · refine Resource.all_sorted.imp fun {r s} less a ha b hb => ?_
    rw [resource r a ha, resource s b hb]
    exact less.le

include pos

theorem selected_eq :
    selected f order first second elapsedUs =
      (Ranking.rank (share f elapsedUs) (allPicks f order first second elapsedUs)).take maxStalls := by
  have same : (fun a b : Pick => (pct f elapsedUs a.delta).ge (pct f elapsedUs b.delta) = true) =
      fun a b => share f elapsedUs b ≤ share f elapsedUs a := by
    funext a b
    rw [F64.ge, Bool.not_eq_true', ← Bool.not_eq_true, pct_lt f pos, not_lt]
  rw [selected, Ranking.rank]
  simp only [same]

theorem crowded_not_selected {p : Pick} (crowded : Crowded f first second elapsedUs p) :
    p ∉ selected f order first second elapsedUs := by
  intro listed
  obtain ⟨better, distinct, many, above⟩ := crowded
  have candidate := mem_selected f order first second elapsedUs listed
  obtain ⟨as, bs, split⟩ :=
    List.append_of_mem ((mem_allPicks f order first second elapsedUs p).mpr candidate)
  have nodup := allPicks_nodup f order first second elapsedUs
  have sorted := @allPicks_sorted f order first second elapsedUs
  rw [selected_eq f order first second pos, split,
    Ranking.mem_take_rank _ as bs p (split ▸ nodup)] at listed
  have counted : better ⊆ as.filter (fun a => decide (share f elapsedUs p ≤ share f elapsedUs a)) ++
      bs.filter (fun b => decide (share f elapsedUs p < share f elapsedUs b)) := by
    intro q hq
    obtain ⟨hcandidate, outranks⟩ := above q hq
    rw [outranks_iff f pos] at outranks
    have here := (mem_allPicks f order first second elapsedUs q).mpr hcandidate
    rw [split, List.pairwise_append, List.pairwise_cons] at sorted
    rw [split, List.mem_append, List.mem_cons] at here
    simp only [List.mem_append, List.mem_filter, decide_eq_true_eq]
    rcases here with before | rfl | after
    · exact .inl ⟨before, outranks.elim le_of_lt And.left⟩
    · exact absurd outranks (by simp)
    · have later := sorted.2.1.1 q after
      exact .inr ⟨after, outranks.resolve_right fun h => absurd h.2 (not_lt.mpr later)⟩
  have length := (distinct.subperm counted).length_le
  rw [List.length_append, ← List.countP_eq_length_filter, ← List.countP_eq_length_filter] at length
  omega

/- The order that meets the cgroup of `p` first lists it unless ten others must precede. -/
theorem selected_of_not_crowded {p : Pick} (candidate : Candidate f first second elapsedUs p)
    (room : ¬ Crowded f first second elapsedUs p) :
    ∃ order, p ∈ selected f order first second elapsedUs := by
  obtain ⟨pre, post, resources⟩ := List.append_of_mem p.resource.mem_all
  let order : Resource → Shuffle PathBuf UInt64 := fun _ => .first p.cgroup
  refine ⟨order, ?_⟩
  obtain ⟨rest, entries⟩ := Shuffle.first_entries candidate.moved
  obtain ⟨tail, met⟩ : ∃ tail, picks f order first second elapsedUs p.resource = p :: tail := by
    simp [picks, order, entries, candidate.passes]
  have split : allPicks f order first second elapsedUs =
      pre.flatMap (picks f order first second elapsedUs) ++
        p :: (tail ++ post.flatMap (picks f order first second elapsedUs)) := by
    rw [allPicks, resources, List.flatMap_append, List.flatMap_cons, met, List.cons_append]
  have nodup := allPicks_nodup f order first second elapsedUs
  have listed := mem_allPicks f order first second elapsedUs
  rw [split] at nodup listed
  rw [selected_eq f order first second pos, split, Ranking.mem_take_rank _ _ _ _ nodup]
  by_contra full
  rw [not_lt, List.countP_eq_length_filter, List.countP_eq_length_filter, ← List.length_append] at full
  refine room ⟨_, ?_, full, ?_⟩
  · rw [List.nodup_append] at nodup ⊢
    refine ⟨nodup.1.filter _, (List.nodup_cons.mp nodup.2.1).2.filter _, fun a ha b hb => ?_⟩
    exact nodup.2.2 a (List.mem_of_mem_filter ha) b
      (List.mem_cons_of_mem _ (List.mem_of_mem_filter hb))
  · intro q hq
    rw [List.mem_append, List.mem_filter, List.mem_filter, decide_eq_true_iff, decide_eq_true_iff] at hq
    rw [← listed q, outranks_iff f pos]
    rcases hq with ⟨before, high⟩ | ⟨after, higher⟩
    · refine ⟨List.mem_append_left _ before, .inr ⟨high, ?_⟩⟩
      obtain ⟨res, earlier, hpick⟩ := List.mem_flatMap.mp before
      have sorted := Resource.all_sorted
      rw [resources, List.pairwise_append] at sorted
      rw [((mem_picks f order first second elapsedUs res q).mp hpick).1]
      exact sorted.2.2 res earlier p.resource (by simp)
    · exact ⟨List.mem_append_right _ (List.mem_cons_of_mem _ after), .inl higher⟩

end

/-- The report is produced and lists a stall made from `p`. -/
def Reports (f : Rounding) (order : Resource → Shuffle PathBuf UInt64)
    (first second : HashMap PathBuf Snapshot) (elapsedUs : UInt64) (p : Pick) : Prop :=
  ∃ stalls s, diff f order first second elapsedUs = .ok stalls ∧ s ∈ stalls ∧
    p ∈ selected f order first second elapsedUs ∧ stall f elapsedUs p = .ok s

theorem reports_iff (f : Rounding) (order : Resource → Shuffle PathBuf UInt64)
    (first second : HashMap PathBuf Snapshot) (elapsedUs : UInt64) (p : Pick) :
    Reports f order first second elapsedUs p ↔
      (∀ q, Candidate f first second elapsedUs q → Cgroup.friendlyName q.cgroup ≠ .panic) ∧
        p ∈ selected f order first second elapsedUs := by
  rcases diff_cases f order first second elapsedUs with
    ⟨panics, q, candidate, unnamed⟩ | ⟨stalls, returns, named, records⟩
  · constructor
    · rintro ⟨stalls, _, returns, _⟩
      rw [panics] at returns
      cases returns
    · exact fun h => absurd unnamed (h.1 q candidate)
  · constructor
    · exact fun ⟨_, _, _, _, listed, _⟩ => ⟨named, listed⟩
    · rintro ⟨_, listed⟩
      obtain ⟨i, hi, rfl⟩ := List.getElem_of_mem listed
      have length := records.length_eq
      exact ⟨stalls, stalls[i], returns, List.getElem_mem _, listed,
        List.forall₂_iff_get.mp records |>.2 i hi (length ▸ hi)⟩

/-- Every reported delta is the difference of two totals that were both read. -/
def FromReads (f : Rounding) (first second : Cgroup.Sweep) (elapsedUs : UInt64) : Prop :=
  ∀ order p, Reports f order (Cgroup.sample first) (Cgroup.sample second) elapsedUs p →
    first.Readable p.cgroup p.resource ∧ second.Readable p.cgroup p.resource ∧
      ∃ before after, first.total p.cgroup p.resource = some before ∧
        second.total p.cgroup p.resource = some after ∧ p.delta = saturatingSub after before

/-- The file of the resource was read in the second sweep but not in the first. -/
def Appeared (first second : Cgroup.Sweep) (p : Pick) : Prop :=
  ¬ first.Readable p.cgroup p.resource ∧ second.Readable p.cgroup p.resource

theorem sample_total {s : Cgroup.Sweep} {cg : PathBuf} {snap : Snapshot} (res : Resource)
    (sampled : (Cgroup.sample s).lookup cg = some snap) :
    cg ∈ s.cgroups ∧ (snap.get res).totalFor res.primaryKind = (s.total cg res).getD 0 := by
  obtain ⟨⟨_, listed, _⟩, stored⟩ := (Cgroup.mem_sample s cg snap).mp sampled
  refine ⟨listed, ?_⟩
  rw [stored res, Cgroup.Sweep.total]
  cases s.read cg res with
  | none => cases res <;> rfl
  | some body => rfl

theorem candidate_positive {f : Rounding} {first second : HashMap PathBuf Snapshot}
    {elapsedUs : UInt64} {p : Pick} (candidate : Candidate f first second elapsedUs p) :
    p.delta ≠ 0 := by
  intro zero
  have passes := candidate.passes
  simp [reportable, Responsibility.isResponsible, zero] at passes

theorem candidate_sampled {f : Rounding} {first second : Cgroup.Sweep} {elapsedUs : UInt64} {p : Pick}
    (candidate : Candidate f (Cgroup.sample first) (Cgroup.sample second) elapsedUs p) :
    p.cgroup ∈ first.cgroups ∧ second.Readable p.cgroup p.resource ∧
      p.delta = saturatingSub ((second.total p.cgroup p.resource).getD 0)
        ((first.total p.cgroup p.resource).getD 0) := by
  obtain ⟨before, after, hbefore, hafter, moved⟩ := lookup_deltas_eq_some.mp candidate.moved
  obtain ⟨listed, stored⟩ := sample_total p.resource hafter
  obtain ⟨listedFirst, storedFirst⟩ := sample_total p.resource hbefore
  simp only [delta, stored, storedFirst] at moved
  refine ⟨listedFirst, ⟨listed, ?_⟩, moved⟩
  cases unread : second.read p.cgroup p.resource with
  | some body => rfl
  | none =>
    have zero : second.total p.cgroup p.resource = none := by rw [Cgroup.Sweep.total, unread]; rfl
    rw [zero] at moved
    exact absurd (moved.trans (zero_saturatingSub _)) (candidate_positive candidate)

/-- Reports rest on two reads exactly when every candidate whose file was not read in
the first sweep is crowded out, or no report is made at all. -/
theorem fromReads_iff (f : Rounding) (first second : Cgroup.Sweep) (elapsedUs : UInt64)
    (pos : 0 < elapsedUs) :
    FromReads f first second elapsedUs ↔
      (∃ p, Candidate f (Cgroup.sample first) (Cgroup.sample second) elapsedUs p ∧
        Cgroup.friendlyName p.cgroup = .panic) ∨
      ∀ p, Candidate f (Cgroup.sample first) (Cgroup.sample second) elapsedUs p →
        Appeared first second p →
        Crowded f (Cgroup.sample first) (Cgroup.sample second) elapsedUs p := by
  constructor
  · intro honest
    by_contra neither
    rw [not_or] at neither
    obtain ⟨named, exposed⟩ := neither
    push Not at named exposed
    obtain ⟨p, candidate, appeared, room⟩ := exposed
    obtain ⟨order, listed⟩ := selected_of_not_crowded f _ _ pos candidate room
    exact appeared.1 (honest order p ((reports_iff f order _ _ _ p).mpr ⟨named, listed⟩)).1
  · intro condition order p reported
    obtain ⟨named, listed⟩ := (reports_iff f order _ _ _ p).mp reported
    have candidate := mem_selected f order _ _ _ listed
    obtain ⟨sampled, readable, moved⟩ := candidate_sampled candidate
    have readableFirst : first.Readable p.cgroup p.resource := by
      by_contra unread
      rcases condition with ⟨q, candidate', unnamed⟩ | crowded
      · exact named q candidate' unnamed
      · exact crowded_not_selected f order _ _ pos
          (crowded p candidate ⟨unread, readable⟩) listed
    refine ⟨readableFirst, readable, ?_⟩
    obtain ⟨before, hbefore⟩ := Option.isSome_iff_exists.mp readableFirst.2
    obtain ⟨after, hafter⟩ := Option.isSome_iff_exists.mp readable.2
    simp only [Cgroup.Sweep.total, hbefore, hafter, Option.map_some, Option.getD_some] at moved ⊢
    exact ⟨_, _, rfl, rfl, moved⟩

def service : PathBuf := .absolute ["sys", "fs", "cgroup", "a.service"]

/-- One service, idle but for what its `io.pressure` says. -/
def ioSweep (io : Option String) : Cgroup.Sweep where
  cgroups := [service]
  read _
    | .io => io
    | _ => some "some total=0\n"

def idle : Cgroup.Sweep := ioSweep (some "full total=0\n")

def busy : Cgroup.Sweep := ioSweep (some "full total=5000\n")

theorem sample_unread : Cgroup.sample (ioSweep none) = Cgroup.sample idle := by
  have snap : (ioSweep none).snapshot service = idle.snapshot service := by decide
  rw [Cgroup.sample, Cgroup.sample]
  simp only [ioSweep, idle, HashMap.collect, List.foldl_cons, List.foldl_nil] at snap ⊢
  rw [snap]

theorem idle_candidate (f : Rounding) (elapsedUs : UInt64) (q : Pick) :
    ¬ Candidate f (Cgroup.sample idle) (Cgroup.sample idle) elapsedUs q := by
  intro candidate
  have entries : ∀ res, ∀ e ∈ (deltas res (Cgroup.sample idle) (Cgroup.sample idle)).entries,
      e.2 = 0 := by
    intro res
    cases res <;> decide
  exact candidate_positive candidate (entries _ _ (HashMap.mem_entries.mpr candidate.moved))

/- Only the service has moved, and only in its I/O. -/
theorem service_candidate {f : Rounding} {first second : HashMap PathBuf Snapshot}
    {elapsedUs d : UInt64}
    (entries : ∀ res, ∀ e ∈ (deltas res first second).entries,
      e.1 = service ∧ e.2 = if res = .io then d else 0)
    (candidate : Candidate f first second elapsedUs ⟨service, .io, d⟩) (q : Pick) :
    Candidate f first second elapsedUs q ↔ q = ⟨service, .io, d⟩ := by
  constructor
  · intro other
    obtain ⟨cg, res, moved⟩ := q
    obtain ⟨rfl, hd⟩ := entries res _ (HashMap.mem_entries.mpr other.moved)
    cases res with
    | io => cases hd; rfl
    | cpu | memory => exact absurd hd (candidate_positive other)
  · rintro rfl
    exact candidate

theorem busy_candidate (f : Rounding) (elapsedUs : UInt64)
    (above : (pct f elapsedUs 5000).lt minReportablePct = false) (q : Pick) :
    Candidate f (Cgroup.sample idle) (Cgroup.sample busy) elapsedUs q ↔ q = ⟨service, .io, 5000⟩ := by
  refine service_candidate (fun res => by cases res <;> decide) ⟨by decide, ?_⟩ q
  change reportable f elapsedUs _ service 5000 = true
  rw [reportable, above]
  decide +kernel

theorem busy_above (f : Rounding) : (pct f 1000 5000).lt minReportablePct = false := by
  have exact := F64.percent_mul f (k := 5) (w := 1000) (by decide) (by decide) (by decide) (by decide)
  have percent : pct f 1000 5000 = .finite false 500 := by simpa [pct] using exact
  rw [percent]
  decide +kernel

theorem service_name : Cgroup.friendlyName service = .ok "a" := by decide +kernel

theorem not_fromReads : ¬ ∃ f, FromReads f (ioSweep none) busy 1000 := by
  rintro ⟨f, honest⟩
  let p : Pick := ⟨service, .io, 5000⟩
  have only := busy_candidate f 1000 (busy_above f)
  rw [← sample_unread] at only
  have listed : p ∈ selected f (fun _ => .same) (Cgroup.sample (ioSweep none)) (Cgroup.sample busy) 1000 := by
    rw [selected, allPicks_singleton _ _ _ _ _ only]
    exact List.mem_singleton_self p
  have named : ∀ q, Candidate f (Cgroup.sample (ioSweep none)) (Cgroup.sample busy) 1000 q →
      Cgroup.friendlyName q.cgroup ≠ .panic := by
    intro q candidate
    rw [(only q).mp candidate, service_name]
    exact fun h => nomatch h
  have reported := (reports_iff f _ _ _ _ p).mpr ⟨named, listed⟩
  exact absurd (honest _ p reported).1 (by decide)

/- Two sweeps that read the same files. -/
theorem fromReads_busy : FromReads .exact busy busy 1000 :=
  (fromReads_iff .exact busy busy 1000 (by decide)).mpr
    (.inr fun _ _ appeared => absurd appeared.2 appeared.1)

end Stallwatch.Attribution
