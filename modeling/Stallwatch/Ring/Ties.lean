import Stallwatch.Base.Ties
import Stallwatch.Ring

/-! A history that is queried twice. The map is iterated in another order each time, which
shows in the answer where two keys have the same worst tick. -/
namespace Stallwatch

/-- The place on the extended line, where a NaN is below everything. -/
def F64.level (x : F64) : WithBot (WithTop ℚ) := x.place.getD ⊥

namespace Stall

/-- The worst tick of a key. -/
def worst (ss : List Stall) (k : Key) : WithBot (WithTop ℚ) :=
  ((ofKey k ss).map fun s => s.pressurePct.level).foldr max ⊥

/-- The keys whose worst tick is worth a report. -/
def qualifying (ss : List Stall) : List Key :=
  (ss.map key).dedup.filter fun k => minReportablePct.level ≤ worst ss k

theorem qualifying_distinct (ss : List Stall) : (qualifying ss).Nodup := (List.nodup_dedup _).filter _

theorem mem_qualifying {ss : List Stall} {k : Key} :
    k ∈ qualifying ss ↔ k ∈ ss.map key ∧ minReportablePct.level ≤ worst ss k := by
  rw [qualifying, List.mem_filter, List.mem_dedup, decide_eq_true_eq]

end Stall

namespace Total

theorem add_place {t : Total} {p : WithBot (WithTop ℚ)} (peak : t.peak.place = some p) (s : Stall) :
    (t.add s).peak.place = some (max p s.pressurePct.level) := by
  cases pressure : s.pressurePct.place with
  | none => simp [add, F64.lt, F64.level, peak, pressure]
  | some q =>
    by_cases less : p < q
    · simp [add, F64.lt, F64.level, peak, pressure, less, max_eq_right less.le]
    · simp [add, F64.lt, F64.level, peak, pressure, less, max_eq_left (not_lt.mp less)]

theorem foldl_place (ss : List Stall) {t : Total} {p : WithBot (WithTop ℚ)} (peak : t.peak.place = some p) :
    (ss.foldl add t).peak.place = some (max p ((ss.map fun s => s.pressurePct.level).foldr max ⊥)) := by
  induction ss generalizing t p with
  | nil => simpa using peak
  | cons s ss ih =>
    rw [List.foldl_cons, ih (add_place peak s), List.map_cons, List.foldr_cons, max_assoc]

end Total

namespace Ring

section Places

variable {f : Rounding} {order : Shuffle Stall.Key Total} {window : UInt64} {ss : List Stall} {s : Stall}

theorem peak_place (member : s ∈ totals f order window ss) :
    s.peakPct.place = some (max 0 (Stall.worst ss s.key)) := by
  obtain ⟨t, total, here⟩ := (mem_totals f order window ss).mp member
  obtain ⟨first, _, folded⟩ := Option.map_eq_some_iff.mp total
  have peak : s.peakPct = t.peak := by
    rw [here]
    rfl
  rw [peak, ← folded, Total.foldl_place (p := 0)]
  · rfl
  · simp [Total.start, F64.whole, F64.place]

theorem atLeast_iff {x : F64} {p : WithBot (WithTop ℚ)} (place : x.place = some p) :
    x.atLeast minReportablePct = true ↔ minReportablePct.level ≤ p := by
  have least : minReportablePct.place = some minReportablePct.level := rfl
  simp [F64.atLeast, place, least]

variable (f order window ss)

/-- The totals that are worth a report. -/
def eligible : List Stall :=
  (totals f order window ss).filter fun s => s.peakPct.atLeast minReportablePct

variable {f order window ss}

theorem mem_eligible : s ∈ eligible f order window ss ↔
    s ∈ totals f order window ss ∧ minReportablePct.level ≤ Stall.worst ss s.key := by
  rw [eligible, List.mem_filter]
  refine and_congr_right fun member => ?_
  rw [atLeast_iff (peak_place member), le_max_iff, or_iff_right]
  decide

theorem eligible_place (member : s ∈ eligible f order window ss) :
    s.peakPct.place = some (Stall.worst ss s.key) := by
  obtain ⟨listed, least⟩ := mem_eligible.mp member
  have zero : (0 : WithBot (WithTop ℚ)) ≤ minReportablePct.level := by decide
  rw [peak_place listed, max_eq_right (zero.trans least)]

theorem eligible_level (member : s ∈ eligible f order window ss) :
    s.peakPct.level = Stall.worst ss s.key := by
  rw [F64.level, eligible_place member]
  rfl

variable (f order window ss)

theorem eligible_distinct : ((eligible f order window ss).map Stall.key).Nodup :=
  (totals_distinct f order window ss).sublist (List.filter_sublist.map _)

theorem eligible_keys :
    ((eligible f order window ss).map Stall.key).Perm (Stall.qualifying ss) := by
  refine (List.perm_ext_iff_of_nodup (eligible_distinct f order window ss)
    (Stall.qualifying_distinct ss)).mpr fun k => ?_
  rw [Stall.mem_qualifying, List.mem_map]
  constructor
  · rintro ⟨s, member, rfl⟩
    obtain ⟨listed, least⟩ := mem_eligible.mp member
    obtain ⟨t, total, _⟩ := (mem_totals f order window ss).mp listed
    obtain ⟨first, heads, _⟩ := Option.map_eq_some_iff.mp total
    have among := List.mem_filter.mp (List.mem_of_head? heads)
    exact ⟨List.mem_map.mpr ⟨first, among.1, by simpa using among.2⟩, least⟩
  · rintro ⟨occurs, least⟩
    obtain ⟨u, among, here⟩ := List.mem_map.mp occurs
    have some : Stall.ofKey k ss ≠ [] :=
      List.ne_nil_of_mem (List.mem_filter.mpr ⟨among, by simpa using here⟩)
    obtain ⟨s, listed, rfl⟩ := totals_complete f order window ss some
    exact ⟨s, mem_eligible.mpr ⟨listed, least⟩, rfl⟩

theorem eligible_tied : Ranking.Tied (fun s => s.peakPct.level) maxStalls (eligible f order window ss) ↔
    Ranking.Tied (Stall.worst ss) maxStalls (Stall.qualifying ss) :=
  Ranking.tied_names _ (eligible_keys f order window ss) (Stall.qualifying_distinct ss)
    (fun _ member => (eligible_level member).symm) _

/- Orders of the map are orders of what is worth a report. -/
theorem eligible_perm (order' : Shuffle Stall.Key Total) :
    (eligible f order window ss).Perm (eligible f order' window ss) :=
  (((order.perm _).trans (order'.perm _).symm).map _).filter _

/- The sort of the code is the ranking by the worst tick. -/
theorem sort_eligible : ((eligible f order window ss).insertionSort fun a b => a.peakPct.ge b.peakPct) =
    Ranking.rank (fun s => s.peakPct.level) (eligible f order window ss) := by
  have same : List.Forall₂ (fun a b => a = b ∧ a ∈ eligible f order window ss)
      (eligible f order window ss) (eligible f order window ss) :=
    List.forall₂_same.mpr fun s member => ⟨rfl, member⟩
  have sorted := Ranking.forall₂_insertionSort (r := fun a b => a.peakPct.ge b.peakPct)
    (s := fun a b => b.peakPct.level ≤ a.peakPct.level) ?_ same
  · exact List.forall₂_eq_eq_eq ▸ sorted.imp fun _ _ both => both.1
  · rintro a a' b b' ⟨rfl, here⟩ ⟨rfl, there⟩
    rw [eligible_level here, eligible_level there]
    simp [F64.ge, F64.lt, eligible_place here, eligible_place there]

variable {f order window ss}

/- The entry that is met first stands first. -/
theorem eligible_first (member : s ∈ eligible f order window ss) :
    ∃ as, eligible f (.first s.key) window ss = s :: as := by
  obtain ⟨listed, least⟩ := mem_eligible.mp member
  obtain ⟨t, total, here⟩ := (mem_totals f order window ss).mp listed
  rw [Stall.ofKey, ← HashMap.lookup_group Stall.key] at total
  obtain ⟨rest, front⟩ := Shuffle.first_entries total
  have reportable := (List.mem_filter.mp member).2
  have head : t.toStall f window s.key = s := here.symm
  have met : eligible f (.first s.key) window ss = (s :: rest.map fun e => e.2.toStall f window e.1).filter
      fun s => s.peakPct.atLeast minReportablePct := by
    rw [eligible, totals, front, List.map_cons, head]
  exact ⟨_, met.trans (List.filter_cons_of_pos reportable)⟩

end Places

/-- The frames of a query. -/
def recent (r : Ring) (sinceUnix : UInt64) : List Frame := r.frames.filter fun fr => sinceUnix ≤ fr.atUnix

theorem aggregate_stalls (f : Rounding) (order : Shuffle Stall.Key Total) (r : Ring) (sinceUnix : UInt64)
    (window : ((recent r sinceUnix).map Frame.windowUsec).sum ≠ 0) :
    (aggregate f order r sinceUnix).stalls =
      (Ranking.rank (fun s => s.peakPct.level) (eligible f order
        ((recent r sinceUnix).map Frame.windowUsec).sum ((recent r sinceUnix).flatMap Frame.stalls))).take
          maxStalls := by
  rw [← sort_eligible, aggregate]
  dsimp only
  rw [← recent, if_neg window]
  rfl

/- Where two keys tie within reach, the one that is met first is named first. -/
theorem stalls_differ (f : Rounding) {r : Ring} {sinceUnix : UInt64}
    (window : ((recent r sinceUnix).map Frame.windowUsec).sum ≠ 0)
    (tied : Ranking.Tied (Stall.worst ((recent r sinceUnix).flatMap Frame.stalls)) maxStalls
      (Stall.qualifying ((recent r sinceUnix).flatMap Frame.stalls))) :
    ∃ order order' : Shuffle Stall.Key Total,
      (aggregate f order r sinceUnix).stalls ≠ (aggregate f order' r sinceUnix).stalls := by
  obtain ⟨x, hx, y, hy, other, equal, reach⟩ :=
    (eligible_tied f .same ((recent r sinceUnix).map Frame.windowUsec).sum _).mpr tied
  obtain ⟨as, first⟩ := eligible_first hx
  obtain ⟨bs, second⟩ := eligible_first hy
  refine ⟨.first x.key, .first y.key, ?_⟩
  rw [aggregate_stalls _ _ _ _ window, aggregate_stalls _ _ _ _ window, first, second]
  refine Ranking.take_rank_ne _ ?_ other equal ?_
  · rw [← first, ← second]
    exact eligible_perm ..
  · rw [← first, ← Ranking.above_perm _ (eligible_perm f .same _ _ _)]
    exact reach

theorem stalls_same (f : Rounding) {r : Ring} {sinceUnix : UInt64}
    (clear : ((recent r sinceUnix).map Frame.windowUsec).sum = 0 ∨
      ¬Ranking.Tied (Stall.worst ((recent r sinceUnix).flatMap Frame.stalls)) maxStalls
        (Stall.qualifying ((recent r sinceUnix).flatMap Frame.stalls)))
    (order order' : Shuffle Stall.Key Total) :
    (aggregate f order r sinceUnix).stalls = (aggregate f order' r sinceUnix).stalls := by
  by_cases window : ((recent r sinceUnix).map Frame.windowUsec).sum = 0
  · have none : ∀ order, aggregate f order r sinceUnix = .default := fun order => if_pos window
    rw [none, none]
  · rw [aggregate_stalls _ _ _ _ window, aggregate_stalls _ _ _ _ window]
    refine Ranking.take_rank_eq _ (.of_map Stall.key (eligible_distinct ..)) (eligible_perm ..) ?_
    rw [eligible_tied]
    exact clear.resolve_left window

/- A total is that of its key, whatever the order. -/
theorem totals_key {f : Rounding} {order order' : Shuffle Stall.Key Total} {window : UInt64} {ss : List Stall}
    {s t : Stall} (here : s ∈ totals f order window ss) (there : t ∈ totals f order' window ss)
    (same : s.key = t.key) : s = t := by
  obtain ⟨a, total, mine⟩ := (mem_totals f order window ss).mp here
  obtain ⟨b, total', yours⟩ := (mem_totals f order' window ss).mp there
  rw [same] at total mine
  cases total.symm.trans total'
  exact mine.trans yours.symm

theorem aggregate_totals {f : Rounding} {order : Shuffle Stall.Key Total} {r : Ring} {sinceUnix : UInt64}
    (window : ((recent r sinceUnix).map Frame.windowUsec).sum ≠ 0) {s : Stall}
    (listed : s ∈ (aggregate f order r sinceUnix).stalls) :
    s ∈ totals f order ((recent r sinceUnix).map Frame.windowUsec).sum
      ((recent r sinceUnix).flatMap Frame.stalls) := by
  rw [aggregate_stalls _ _ _ _ window] at listed
  exact (mem_eligible.mp ((Ranking.rank_perm _ _).mem_iff.mp (List.mem_of_mem_take listed))).1

/- Answers that name the same keys are the same. -/
theorem stalls_keys {f : Rounding} {order order' : Shuffle Stall.Key Total} {r : Ring} {sinceUnix : UInt64}
    (same : (aggregate f order r sinceUnix).stalls.map Stall.key =
      (aggregate f order' r sinceUnix).stalls.map Stall.key) :
    (aggregate f order r sinceUnix).stalls = (aggregate f order' r sinceUnix).stalls := by
  by_cases window : ((recent r sinceUnix).map Frame.windowUsec).sum = 0
  · exact stalls_same f (.inl window) order order'
  · refine List.ext_getElem (by simpa using congrArg List.length same) fun i inside inside' => ?_
    have keys := List.getElem_of_eq same (by simpa using inside)
    rw [List.getElem_map, List.getElem_map] at keys
    exact totals_key (aggregate_totals window (List.getElem_mem inside))
      (aggregate_totals window (List.getElem_mem inside')) keys

/-- Two queries give the same stalls in every order of the map exactly when no two keys that
qualify tie within reach of the report. -/
theorem stalls_repeat_iff (f : Rounding) (r : Ring) (sinceUnix : UInt64) :
    (∀ order order' : Shuffle Stall.Key Total,
      (aggregate f order r sinceUnix).stalls = (aggregate f order' r sinceUnix).stalls) ↔
    ((recent r sinceUnix).map Frame.windowUsec).sum = 0 ∨
      ¬Ranking.Tied (Stall.worst ((recent r sinceUnix).flatMap Frame.stalls)) maxStalls
        (Stall.qualifying ((recent r sinceUnix).flatMap Frame.stalls)) := by
  refine ⟨fun same => or_iff_not_imp_left.mpr fun window tied => ?_, stalls_same f⟩
  obtain ⟨order, order', differ⟩ := stalls_differ f window tied
  exact differ (same order order')

/-- Two units froze for half of one tick, and a query names the one or the other first. -/
theorem not_stalls_repeat : ∃ order order' : Shuffle Stall.Key Total,
    ((aggregate .exact order ⟨[⟨1, 1000000, [⟨"a", "a", .io, .full, 500000, .whole 50, .whole 50⟩,
      ⟨"b", "b", .io, .full, 500000, .whole 50, .whole 50⟩]⟩], 1⟩ 0).stalls.map Stall.unit) = ["a", "b"] ∧
    ((aggregate .exact order' ⟨[⟨1, 1000000, [⟨"a", "a", .io, .full, 500000, .whole 50, .whole 50⟩,
      ⟨"b", "b", .io, .full, 500000, .whole 50, .whole 50⟩]⟩], 1⟩ 0).stalls.map Stall.unit) = ["b", "a"] :=
  ⟨.first ("a", .io, .full), .first ("b", .io, .full), by decide +kernel, by decide +kernel⟩

end Ring

end Stallwatch
