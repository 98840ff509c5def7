import Stallwatch.Base.HashMap
import Stallwatch.Base.Ranking
import Stallwatch.Report

/-! A bounded history of frames, and the report it aggregates to. -/
namespace Stallwatch

/-- One sampling tick. -/
structure Frame where
  atUnix : UInt64
  windowUsec : UInt64
  stalls : List Stall
  deriving DecidableEq

/-- Recent frames, oldest first. -/
structure Ring where
  frames : List Frame
  capacity : ℕ

/-- What a history adds up. -/
abbrev Stall.Key := String × Resource × PsiKind

def Stall.key (s : Stall) : Stall.Key := (s.cgroup, s.resource, s.kind)

/-- What was added up for a key. -/
structure Total where
  unit : String
  usec : UInt64
  peak : F64

namespace Total

def start (s : Stall) : Total := ⟨s.unit, 0, .whole 0⟩

def add (t : Total) (s : Stall) : Total :=
  { t with
    usec := t.usec + s.deltaUsec
    peak := if t.peak.lt s.pressurePct then s.pressurePct else t.peak }

def toStall (f : Rounding) (window : UInt64) (k : Stall.Key) (t : Total) : Stall :=
  ⟨t.unit, k.1, k.2.1, k.2.2, t.usec, F64.percent f t.usec.toNat window.toNat, t.peak⟩

end Total

protected def Report.default : Report := ⟨0, [], [], []⟩

namespace Ring

protected def new (capacity : ℕ) : Ring := ⟨[], max capacity 1⟩

def push (r : Ring) (frame : Frame) : Ring :=
  let frames := if r.frames.length = r.capacity then r.frames.tail else r.frames
  { r with frames := frames ++ [frame] }

def len (r : Ring) : ℕ := r.frames.length

def newest (r : Ring) : Option Frame := r.frames.getLast?

/-- The sums are those of the release build, which wrap. -/
def aggregate (f : Rounding) (order : Shuffle Stall.Key Total) (r : Ring) (sinceUnix : UInt64) :
    Report :=
  let frames := r.frames.filter fun fr => sinceUnix ≤ fr.atUnix
  let totalWindow := (frames.map Frame.windowUsec).sum
  if totalWindow = 0 then .default
  else
    let acc := HashMap.group Stall.key Total.start Total.add (frames.flatMap Frame.stalls)
    let stalls := ((order.run acc).entries.map fun e => e.2.toStall f totalWindow e.1).filter
      fun s => s.peakPct.atLeast minReportablePct
    ⟨totalWindow, (stalls.insertionSort fun a b => a.peakPct.ge b.peakPct).take maxStalls, [], []⟩

theorem capacity_push (capacity : ℕ) (frames : List Frame) :
    (frames.foldl push (.new capacity)).capacity = max capacity 1 := by
  induction frames using List.reverseRecOn with
  | nil => rfl
  | append_singleton frames frame ih =>
    rw [List.foldl_append]
    exact ih

/-- The newest frames, as many as there is room for. -/
theorem frames_push (capacity : ℕ) (frames : List Frame) :
    (frames.foldl push (.new capacity)).frames = frames.drop (frames.length - max capacity 1) := by
  induction frames using List.reverseRecOn with
  | nil => simp [Ring.new]
  | append_singleton frames frame ih =>
    rw [List.foldl_append, List.foldl_cons, List.foldl_nil, push, ih, capacity_push,
      List.length_append, List.length_singleton, List.drop_append_of_le_length (by omega)]
    split
    · rename_i full
      rw [List.length_drop] at full
      have next : frames.length - max capacity 1 + 1 = frames.length + 1 - max capacity 1 := by omega
      rw [List.tail_drop, next]
    · rename_i room
      rw [List.length_drop] at room
      have all : frames.length - max capacity 1 = frames.length + 1 - max capacity 1 := by omega
      rw [all]

end Ring

namespace Stall

def pressures (ss : List Stall) : List ℚ≥0 := ss.map fun s => s.pressurePct.magnitude

/-- The greatest pressure of some stalls. -/
def IsPeak (ss : List Stall) (q : ℚ≥0) : Prop := q ∈ pressures ss ∧ ∀ p ∈ pressures ss, p ≤ q

def ofKey (k : Key) (ss : List Stall) : List Stall := ss.filter fun s => s.key = k

end Stall

/-- What the stalls of one key add up to. -/
structure Sums (f : Rounding) (window : ℕ) (ss : List Stall) (s : Stall) : Prop where
  unit : ss.head?.map Stall.unit = some s.unit
  usec : s.deltaUsec.toNat = (ss.map fun t => t.deltaUsec.toNat).sum
  pressure : s.pressurePct = F64.percent f s.deltaUsec.toNat window
  peak : s.peakPct = .finite false s.peakPct.magnitude ∧ Stall.IsPeak ss s.peakPct.magnitude

/-- The report of some frames whose windows are not empty. -/
structure Aggregates (f : Rounding) (frames : List Frame) (r : Report) : Prop where
  window : r.windowUsec.toNat = (frames.map fun fr => fr.windowUsec.toNat).sum
  sums : ∀ s ∈ r.stalls, Sums f r.windowUsec.toNat (Stall.ofKey s.key (frames.flatMap Frame.stalls)) s
  distinct : (r.stalls.map Stall.key).Nodup
  reportable : ∀ s ∈ r.stalls, s.peakPct.atLeast minReportablePct = true
  ranked : r.stalls.Pairwise fun a b => b.peakPct.magnitude ≤ a.peakPct.magnitude
  few : r.stalls.length ≤ maxStalls
  omitted : ∀ k q, Stall.IsPeak (Stall.ofKey k (frames.flatMap Frame.stalls)) q →
    minReportablePct.magnitude ≤ q → (∃ s ∈ r.stalls, s.key = k) ∨
      r.stalls.length = maxStalls ∧ ∀ s ∈ r.stalls, q ≤ s.peakPct.magnitude
  bare : r.causes = [] ∧ r.warnings = []

namespace Total

theorem foldl_unit (ss : List Stall) (t : Total) : (ss.foldl add t).unit = t.unit := by
  induction ss generalizing t with
  | nil => rfl
  | cons s ss ih => exact ih (t.add s)

theorem foldl_usec {ss : List Stall} (t : Total)
    (fits : t.usec.toNat + (ss.map fun s => s.deltaUsec.toNat).sum < 2 ^ 64) :
    (ss.foldl add t).usec.toNat = t.usec.toNat + (ss.map fun s => s.deltaUsec.toNat).sum := by
  induction ss generalizing t with
  | nil => rfl
  | cons s ss ih =>
    rw [List.map_cons, List.sum_cons, ← Nat.add_assoc] at fits ⊢
    have next : (t.add s).usec.toNat = t.usec.toNat + s.deltaUsec.toNat := by
      rw [add, UInt64.toNat_add]
      exact Nat.mod_eq_of_lt (by omega)
    rw [← next] at fits ⊢
    exact ih (t.add s) fits

theorem foldl_peak {ss : List Stall} (measured : ∀ s ∈ ss, s.pressurePct.NonNegative) {t : Total}
    {p : ℚ≥0} (peak : t.peak = .finite false p) :
    ∃ q, (ss.foldl add t).peak = .finite false q ∧ q ∈ p :: Stall.pressures ss ∧
      ∀ x ∈ p :: Stall.pressures ss, x ≤ q := by
  induction ss generalizing t p with
  | nil => exact ⟨p, peak, by simp [Stall.pressures]⟩
  | cons s ss ih =>
    obtain ⟨here, rest⟩ := List.forall_mem_cons.mp measured
    have next : (t.add s).peak = .finite false (max p s.pressurePct.magnitude) := by
      rw [add, peak]
      exact here.max_eq p
    obtain ⟨q, final, member, upper⟩ := ih rest next
    obtain ⟨both, later⟩ := List.forall_mem_cons.mp upper
    obtain ⟨old, new⟩ := max_le_iff.mp both
    refine ⟨q, final, ?_, List.forall_mem_cons.mpr ⟨old, List.forall_mem_cons.mpr ⟨new, later⟩⟩⟩
    rcases List.mem_cons.mp member with greatest | among
    · rcases max_choice p s.pressurePct.magnitude with first | second
      · rw [greatest, first]
        exact List.mem_cons_self
      · rw [greatest, second]
        exact List.mem_cons_of_mem _ List.mem_cons_self
    · exact List.mem_cons_of_mem _ (List.mem_cons_of_mem _ among)

/- The peak of a key is among its pressures. -/
theorem summary_peak {ss : List Stall} (measured : ∀ s ∈ ss, s.pressurePct.NonNegative) {t : Total}
    (total : HashMap.summary start add ss = some t) :
    ∃ q, t.peak = .finite false q ∧ Stall.IsPeak ss q := by
  obtain ⟨first, heads, folded⟩ := Option.map_eq_some_iff.mp total
  obtain ⟨q, peak, member, upper⟩ := foldl_peak measured (t := start first) (p := 0)
    (by simp [start, F64.whole])
  rw [folded] at peak
  obtain ⟨zero, later⟩ := List.forall_mem_cons.mp upper
  refine ⟨q, peak, ?_, later⟩
  rcases List.mem_cons.mp member with none | among
  · have present : first.pressurePct.magnitude ∈ Stall.pressures ss :=
      List.mem_map_of_mem (List.mem_of_head? heads)
    have least := later _ present
    rw [none] at least ⊢
    rwa [le_antisymm least zero_le] at present
  · exact among

/-- What the loop adds up for one key. -/
theorem summary_sums (f : Rounding) (window : UInt64) (k : Stall.Key) {ss : List Stall}
    (measured : ∀ s ∈ ss, s.pressurePct.NonNegative)
    (fits : (ss.map fun s => s.deltaUsec.toNat).sum < 2 ^ 64) {t : Total}
    (total : HashMap.summary start add ss = some t) :
    Sums f window.toNat ss (t.toStall f window k) := by
  obtain ⟨q, peak, greatest⟩ := summary_peak measured total
  obtain ⟨first, heads, folded⟩ := Option.map_eq_some_iff.mp total
  have unit : t.unit = first.unit := by
    rw [← folded]
    exact foldl_unit ss (start first)
  have usec : t.usec.toNat = (ss.map fun s => s.deltaUsec.toNat).sum := by
    rw [← folded, foldl_usec]
    · simp [start]
    · simpa [start] using fits
  refine ⟨by rw [heads, toStall, unit, Option.map_some], usec, rfl, ?_⟩
  have toStall_peak : (t.toStall f window k).peakPct = .finite false q := peak
  rw [toStall_peak]
  exact ⟨rfl, greatest⟩

end Total

namespace Ring

section Aggregating

variable (f : Rounding) (order : Shuffle Stall.Key Total) (window : UInt64) (ss : List Stall)

/-- All stalls of a history, in the order in which the map is iterated. -/
def totals : List Stall :=
  (order.run (HashMap.group Stall.key Total.start Total.add ss)).entries.map fun e =>
    e.2.toStall f window e.1

theorem mem_totals {s : Stall} :
    s ∈ totals f order window ss ↔ ∃ t, HashMap.summary Total.start Total.add (Stall.ofKey s.key ss) =
      some t ∧ s = t.toStall f window s.key := by
  rw [totals, List.mem_map]
  constructor
  · rintro ⟨⟨k, t⟩, member, here⟩
    have found := HashMap.mem_entries.mp ((order.perm _).mem_iff.mp member)
    rw [HashMap.lookup_group] at found
    have keys : s.key = k := by rw [← here]; rfl
    exact ⟨t, by rwa [keys], by rw [← here]; rfl⟩
  · rintro ⟨t, total, here⟩
    refine ⟨⟨s.key, t⟩, (order.perm _).mem_iff.mpr (HashMap.mem_entries.mpr ?_), here.symm⟩
    rwa [HashMap.lookup_group]

theorem totals_distinct : ((totals f order window ss).map Stall.key).Nodup := by
  rw [totals, List.map_map]
  exact (order.run _).nodupKeys

theorem totals_sums (measured : ∀ s ∈ ss, s.pressurePct.NonNegative)
    (fits : ∀ k, ((Stall.ofKey k ss).map fun s => s.deltaUsec.toNat).sum < 2 ^ 64) {s : Stall}
    (member : s ∈ totals f order window ss) : Sums f window.toNat (Stall.ofKey s.key ss) s := by
  obtain ⟨t, total, here⟩ := (mem_totals f order window ss).mp member
  have sums := Total.summary_sums f window s.key
    (fun u hu => measured u (List.mem_of_mem_filter hu)) (fits s.key) total
  rwa [← here] at sums

/- A key that occurs has its stall. -/
theorem totals_complete {k : Stall.Key} (occurs : Stall.ofKey k ss ≠ []) :
    ∃ s ∈ totals f order window ss, s.key = k := by
  obtain ⟨t, total⟩ : ∃ t, HashMap.summary Total.start Total.add (Stall.ofKey k ss) = some t := by
    obtain ⟨first, rest, split⟩ := List.exists_cons_of_ne_nil occurs
    rw [split]
    exact ⟨_, rfl⟩
  exact ⟨t.toStall f window k, (mem_totals f order window ss).mpr ⟨t, total, rfl⟩, rfl⟩

/- Its stall has the peak of the key. -/
theorem totals_of_peak (measured : ∀ s ∈ ss, s.pressurePct.NonNegative)
    (fits : ∀ k, ((Stall.ofKey k ss).map fun s => s.deltaUsec.toNat).sum < 2 ^ 64) {k : Stall.Key} {q : ℚ≥0}
    (peak : Stall.IsPeak (Stall.ofKey k ss) q) :
    ∃ s ∈ totals f order window ss, s.key = k ∧ s.peakPct = .finite false q ∧ s.peakPct.magnitude = q := by
  have occurs : Stall.ofKey k ss ≠ [] := by
    intro none
    rw [none] at peak
    exact List.not_mem_nil peak.1
  obtain ⟨s, member, key⟩ := totals_complete f order window ss occurs
  obtain ⟨finite, greatest⟩ := (totals_sums f order window ss measured fits member).peak
  rw [key] at greatest
  have value : s.peakPct.magnitude = q := le_antisymm (peak.2 _ greatest.1) (greatest.2 _ peak.1)
  exact ⟨s, member, key, value ▸ finite, value⟩

end Aggregating

/-- Stalls in the order of their peaks. -/
theorem rank_eq {ss : List Stall}
    (finite : ∀ s ∈ ss, s.peakPct = .finite false s.peakPct.magnitude) :
    (ss.insertionSort fun a b => a.peakPct.ge b.peakPct) =
      Ranking.rank (fun s => s.peakPct.magnitude) ss := by
  have same : List.Forall₂ (fun a b => a = b ∧ a.peakPct = .finite false a.peakPct.magnitude) ss ss :=
    List.forall₂_same.mpr fun s member => ⟨rfl, finite s member⟩
  have sorted := Ranking.forall₂_insertionSort (r := fun a b => a.peakPct.ge b.peakPct)
    (s := fun a b => b.peakPct.magnitude ≤ a.peakPct.magnitude) ?_ same
  · exact List.forall₂_eq_eq_eq ▸ sorted.imp fun _ _ both => both.1
  · rintro a a' b b' ⟨here, ha⟩ ⟨there, ha'⟩
    have before : a.peakPct.ge a'.peakPct = !decide (a.peakPct.magnitude < a'.peakPct.magnitude) := by
      rw [F64.ge, ha, ha', F64.lt_finite]
      rfl
    rw [← here, ← there, before]
    simp

/-- What is worth a report, the worst first. -/
def reported (all : List Stall) : List Stall :=
  (Ranking.rank (fun s => s.peakPct.magnitude)
    (all.filter fun s => s.peakPct.atLeast minReportablePct)).take maxStalls

section Reporting

variable {all : List Stall} {s : Stall}

theorem reported_subset (member : s ∈ reported all) :
    s ∈ all ∧ s.peakPct.atLeast minReportablePct = true := by
  have perm := Ranking.rank_perm (fun s : Stall => s.peakPct.magnitude)
    (all.filter fun s => s.peakPct.atLeast minReportablePct)
  exact List.mem_filter.mp (perm.mem_iff.mp (List.mem_of_mem_take member))

theorem reported_distinct (distinct : (all.map Stall.key).Nodup) :
    ((reported all).map Stall.key).Nodup := by
  have perm := Ranking.rank_perm (fun s : Stall => s.peakPct.magnitude)
    (all.filter fun s => s.peakPct.atLeast minReportablePct)
  have sublist := (List.filter_sublist (p := fun s => s.peakPct.atLeast minReportablePct)
    (l := all)).map Stall.key
  have ranked := (perm.map Stall.key).nodup_iff.mpr (distinct.sublist sublist)
  exact ranked.sublist ((List.take_sublist _ _).map Stall.key)

theorem reported_ranked (all : List Stall) :
    (reported all).Pairwise fun a b => b.peakPct.magnitude ≤ a.peakPct.magnitude :=
  (Ranking.rank_sorted _ _).sublist (List.take_sublist _ _)

theorem reported_few (all : List Stall) : (reported all).length ≤ maxStalls := by
  rw [reported, List.length_take]
  exact min_le_left _ _

/- What is left out is too small, or there was no room for it. -/
theorem reported_or (member : s ∈ all) (least : s.peakPct.atLeast minReportablePct = true) :
    s ∈ reported all ∨ (reported all).length = maxStalls ∧
      ∀ t ∈ reported all, s.peakPct.magnitude ≤ t.peakPct.magnitude := by
  have eligible : s ∈ all.filter fun s => s.peakPct.atLeast minReportablePct :=
    List.mem_filter.mpr ⟨member, least⟩
  by_cases listed : s ∈ reported all
  · exact .inl listed
  · exact .inr (Ranking.not_mem_take_rank _ eligible listed)

end Reporting

theorem aggregate_eq (f : Rounding) (order : Shuffle Stall.Key Total) (r : Ring) (sinceUnix : UInt64)
    {frames : List Frame} (recent : r.frames.filter (fun fr => sinceUnix ≤ fr.atUnix) = frames)
    {window : UInt64} (total : (frames.map Frame.windowUsec).sum = window) (nonzero : window ≠ 0)
    (finite : ∀ s ∈ totals f order window (frames.flatMap Frame.stalls),
      s.peakPct = .finite false s.peakPct.magnitude) :
    aggregate f order r sinceUnix =
      ⟨window, reported (totals f order window (frames.flatMap Frame.stalls)), [], []⟩ := by
  unfold aggregate
  rw [recent]
  dsimp only
  rw [total, if_neg nonzero, ← totals, rank_eq fun s member => finite s (List.mem_of_mem_filter member)]
  rfl

theorem toNat_window {frames : List Frame}
    (fits : (frames.map fun fr => fr.windowUsec.toNat).sum < 2 ^ 64) :
    (frames.map Frame.windowUsec).sum.toNat = (frames.map fun fr => fr.windowUsec.toNat).sum := by
  rw [Counter.toNat_sum (by rwa [List.map_map]), List.map_map]
  rfl

theorem aggregate_aggregates (f : Rounding) (order : Shuffle Stall.Key Total) (r : Ring)
    (sinceUnix : UInt64) {frames : List Frame}
    (recent : r.frames.filter (fun fr => sinceUnix ≤ fr.atUnix) = frames)
    (measured : ∀ s ∈ frames.flatMap Frame.stalls, s.pressurePct.NonNegative)
    (windowFits : (frames.map fun fr => fr.windowUsec.toNat).sum < 2 ^ 64)
    (stallFits : ∀ k, ((Stall.ofKey k (frames.flatMap Frame.stalls)).map fun s =>
      s.deltaUsec.toNat).sum < 2 ^ 64) :
    ((frames.map fun fr => fr.windowUsec.toNat).sum = 0 →
        aggregate f order r sinceUnix = .default) ∧
      ((frames.map fun fr => fr.windowUsec.toNat).sum ≠ 0 →
        Aggregates f frames (aggregate f order r sinceUnix)) := by
  have window := toNat_window windowFits
  constructor
  · intro zero
    unfold aggregate
    rw [recent]
    rw [← window] at zero
    exact if_pos (UInt64.toNat_inj.mp zero)
  · intro nonzero
    generalize total : (frames.map Frame.windowUsec).sum = w at window
    have some : w ≠ 0 := by
      rintro rfl
      exact nonzero window.symm
    have sums := fun s => totals_sums f order w (frames.flatMap Frame.stalls) measured stallFits (s := s)
    have distinct := totals_distinct f order w (frames.flatMap Frame.stalls)
    rw [aggregate_eq f order r sinceUnix recent total some fun s member => (sums s member).peak.1]
    exact {
      window := window
      sums := fun s member => sums s (reported_subset member).1
      distinct := reported_distinct distinct
      reportable := fun s member => (reported_subset member).2
      ranked := reported_ranked _
      few := reported_few _
      omitted := by
        intro k q peak least
        obtain ⟨s, member, key, finite, value⟩ := totals_of_peak f order w _ measured stallFits peak
        have reportable : s.peakPct.atLeast minReportablePct = true := by
          rw [finite]
          exact (F64.atLeast_finite q _).trans (decide_eq_true least)
        rw [← value]
        exact (reported_or member reportable).imp_left fun listed => ⟨s, listed, key⟩
      bare := ⟨rfl, rfl⟩ }

/-- The ring holds the newest frames, and what it aggregates to is their specification. -/
theorem history (f : Rounding) (order : Shuffle Stall.Key Total) (capacity : ℕ) (pushed : List Frame)
    (sinceUnix : UInt64) {held frames : List Frame}
    (last : held = pushed.drop (pushed.length - max capacity 1))
    (recent : frames = held.filter fun fr => sinceUnix ≤ fr.atUnix)
    (measured : ∀ s ∈ pushed.flatMap Frame.stalls, s.pressurePct.NonNegative)
    (windowFits : (frames.map fun fr => fr.windowUsec.toNat).sum < 2 ^ 64)
    (stallFits : ∀ k, ((Stall.ofKey k (frames.flatMap Frame.stalls)).map fun s =>
      s.deltaUsec.toNat).sum < 2 ^ 64) :
    (pushed.foldl push (.new capacity)).frames = held ∧
      held.length = min pushed.length (max capacity 1) ∧
      ((frames.map fun fr => fr.windowUsec.toNat).sum = 0 →
        aggregate f order (pushed.foldl push (.new capacity)) sinceUnix = .default) ∧
      ((frames.map fun fr => fr.windowUsec.toNat).sum ≠ 0 →
        Aggregates f frames (aggregate f order (pushed.foldl push (.new capacity)) sinceUnix)) := by
  have holds : (pushed.foldl push (.new capacity)).frames = held := (frames_push capacity pushed).trans last.symm
  refine ⟨holds, by rw [last, List.length_drop]; omega, ?_⟩
  refine aggregate_aggregates f order _ sinceUnix (by rw [holds, recent]) ?_ windowFits stallFits
  intro s member
  obtain ⟨fr, listed, here⟩ := List.mem_flatMap.mp member
  rw [recent, last] at listed
  exact measured s (List.mem_flatMap.mpr ⟨fr, List.mem_of_mem_drop (List.mem_of_mem_filter listed), here⟩)

def quiet : Frame := ⟨1000, 1000000, []⟩

def busy : Frame :=
  ⟨1001, 1000000, [⟨"ghostty.service", "/sys/fs/cgroup/ghostty.service", .io, .full, 200000,
    .whole 20, .whole 20⟩]⟩

/- One place for two frames. -/
theorem history_two : Aggregates .exact [busy]
    (aggregate .exact .same ([quiet, busy].foldl push (.new 1)) 0) := by
  refine (history .exact .same 1 [quiet, busy] 0 rfl rfl ?_ (by decide) ?_).2.2.2 (by decide)
  · intro s member
    rw [List.mem_singleton.mp member]
    exact ⟨rfl, by decide⟩
  · intro k
    change ((busy.stalls.filter fun s => s.key = k).map fun s => s.deltaUsec.toNat).sum < 2 ^ 64
    rw [busy, List.filter_cons, List.filter_nil]
    split <;> decide

end Ring

end Stallwatch
