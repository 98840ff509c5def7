import Stallwatch.Cgroup.Names
import Stallwatch.Metrics

/-! The cap on the number of series, and what the gauges at the end of the document say
about it. -/
namespace Stallwatch.Metrics

open Text

section Series

variable (snapshot : HashMap PathBuf Snapshot)

/-- The pairs of a cgroup that have accumulated something. -/
def seriesOf (path : PathBuf) : Outcome Empty (List Series) :=
  match snapshot.lookup path with
  | none => .panic
  | some snap => do
    let unit ← Cgroup.friendlyName path
    return (Resource.all.filter fun res =>
        ¬ ((snap.get res).someTotalUs = 0 ∧ (snap.get res).fullTotalUs = 0)).map
      fun res => ⟨unit.toList, path.toStringLossy.toList, res, snap.get res⟩

/-- Every pair that would be rendered without a cap. -/
def allSeries : Outcome Empty (List Series) := do
  let rows ← (snapshot.keys.insertionSort (· ≤ ·)).mapM (seriesOf snapshot)
  return rows.flatten

end Series

section Loop

variable (f : Rounding) (maxSeries : ℕ) {snapshot : HashMap PathBuf Snapshot}

theorem addCgroup_eq (w : Written) (path : PathBuf) :
    addCgroup f maxSeries snapshot w path =
      seriesOf snapshot path >>= fun rows => .ok (rows.foldl (Written.add f maxSeries) w) := by
  unfold addCgroup seriesOf
  cases snapshot.lookup path with
  | none => rfl
  | some snap =>
    cases Cgroup.friendlyName path with
    | err e => exact e.elim
    | panic => rfl
    | ok unit =>
      simp only [Outcome.ok_bind, Outcome.pure_eq, Outcome.ok.injEq, List.foldl_map, List.foldl_filter]
      congr 1
      funext w res
      by_cases none : (snap.get res).someTotalUs = 0 ∧ (snap.get res).fullTotalUs = 0
      · simp [none]
      · simp [none]

theorem foldlM_addCgroup (paths : List PathBuf) (w : Written) :
    paths.foldlM (addCgroup f maxSeries snapshot) w =
      paths.mapM (seriesOf snapshot) >>=
        fun rows => .ok (rows.flatten.foldl (Written.add f maxSeries) w) := by
  induction paths generalizing w with
  | nil => rfl
  | cons path paths ih =>
    rw [List.foldlM_cons, List.mapM_cons, addCgroup_eq]
    simp only [bind_assoc]
    congr 1
    funext rows
    simp only [Outcome.ok_bind, Outcome.pure_eq, ih, List.flatten_cons, List.foldl_append]

theorem addAll_eq : addAll f maxSeries snapshot =
    allSeries snapshot >>= fun rows => .ok (rows.foldl (Written.add f maxSeries) ⟨[], [], 0, 0⟩) := by
  rw [addAll, foldlM_addCgroup, allSeries]
  simp only [bind_assoc, Outcome.pure_eq, Outcome.ok_bind]

theorem unlines_append (as bs : List (List Char)) : unlines (as ++ bs) = unlines as ++ unlines bs :=
  List.flatMap_append

theorem writeln_unlines (ls : List (List Char)) (line : List Char) :
    writeln (unlines ls) line = unlines (ls ++ [line]) := by
  rw [unlines_append]
  simp [writeln, unlines]

def waitingLines (rows : List Series) : List (List Char) := rows.map (Series.waitingLine f)

/-- The processor has no stalled series. -/
def stalledLines (rows : List Series) : List (List Char) :=
  (rows.filter fun s => s.resource ≠ .cpu).map (Series.stalledLine f)

/- The loop writes the first pairs up to the cap and counts the others. -/
theorem foldl_add (rows : List Series) : rows.foldl (Written.add f maxSeries) ⟨[], [], 0, 0⟩ =
    ⟨unlines (waitingLines f (rows.take maxSeries)), unlines (stalledLines f (rows.take maxSeries)),
      min maxSeries rows.length, rows.length - maxSeries⟩ := by
  induction rows using List.reverseRecOn with
  | nil => simp [waitingLines, stalledLines, unlines]
  | append_singleton rows s ih =>
    rw [List.foldl_append, ih, List.foldl_cons, List.foldl_nil]
    by_cases full : maxSeries ≤ rows.length
    · have capped : maxSeries ≤ min maxSeries rows.length := by omega
      rw [Written.add, if_pos capped, List.take_append_of_le_length full]
      simp only [List.length_append, List.length_singleton, Written.mk.injEq, true_and]
      omega
    · have open_ : ¬ maxSeries ≤ min maxSeries rows.length := by omega
      have whole : (rows ++ [s]).take maxSeries = rows ++ [s] := List.take_of_length_le (by simp; omega)
      have before : rows.take maxSeries = rows := List.take_of_length_le (by omega)
      rw [Written.add, if_neg open_, whole, before]
      simp only [writeln_unlines, waitingLines, stalledLines, List.map_append, List.filter_append,
        List.map_singleton, List.length_append, List.length_singleton, Written.mk.injEq, true_and]
      refine ⟨?_, by omega, by omega⟩
      by_cases cpu : s.resource = .cpu
      · simp [cpu]
      · simp [cpu]

end Loop

/-- A line that is one line of the document. -/
def Single (line : List Char) : Prop := '\n' ∉ line ∧ line.getLast? ≠ some '\r'

theorem lines_unlines {ls : List (List Char)} (single : ∀ l ∈ ls, Single l) : lines (unlines ls) = ls :=
  lines_write ls (fun l member => (single l member).1) fun l member => (single l member).2

theorem esc_newline (v : List Char) : '\n' ∉ esc v := by
  intro member
  obtain ⟨c, _, inner⟩ := List.mem_flatMap.mp member
  unfold escChar at inner
  split at inner
  · revert inner
    decide
  split at inner
  · revert inner
    decide
  split at inner
  · revert inner
    decide
  · rename_i newline
    exact newline (List.mem_singleton.mp inner).symm

/-- A value of a sample. -/
def Number (value : List Char) : Prop := value ≠ [] ∧ value.all F64.written = true

theorem number_decimal (n : ℕ) : Number (decimal n) := ⟨decimal_ne_nil n, F64.written_digits (decimal_all n)⟩

theorem number_format (prec : ℕ) (x : F64) : Number (F64.format prec x) :=
  ⟨F64.format_ne_nil _ _, F64.format_written _ _⟩

/- A number ends the line. -/
theorem single_number {front value : List Char} (free : '\n' ∉ front) (number : Number value) :
    Single (front ++ value) := by
  have written := List.all_eq_true.mp number.2
  refine ⟨fun member => ?_, fun last => ?_⟩
  · rcases List.mem_append.mp member with inner | inner
    · exact free inner
    · exact absurd (written _ inner) (by decide)
  · rw [List.getLast?_append_of_ne_nil _ number.1] at last
    exact absurd (written _ (List.mem_of_getLast? last)) (by decide)

/-- A text without line breaks. -/
def Plain (text : List Char) : Prop := text.all (fun c => c ≠ '\n' && c ≠ '\r') = true

instance : DecidablePred Plain := fun text => inferInstanceAs (Decidable (text.all _ = true))

theorem plain_literal {text : List Char} (plain : text.all (fun c => c ≠ '\n' && c ≠ '\r') = true) :
    Plain (String.ofList text).toList := by
  rwa [String.toList_ofList]

theorem Plain.append {a b : List Char} (front : Plain a) (back : Plain b) : Plain (a ++ b) := by
  rw [Plain, List.all_append, front, back]
  rfl

theorem Plain.single {text : List Char} (plain : Plain text) : Single text := by
  have free := List.all_eq_true.mp plain
  refine ⟨fun member => ?_, fun last => ?_⟩
  · exact absurd (free _ member) (by decide)
  · exact absurd (free _ (List.mem_of_getLast? last)) (by decide)

theorem single_sample {name : String} {labels value : List Char} (plain : Plain name.toList)
    (clean : '\n' ∉ labels) (number : Number value) : Single (sample name labels value) := by
  have front : '\n' ∉ name.toList ++ '{' :: (labels ++ ['}', ' ']) := by
    simp only [List.mem_append, List.mem_cons, not_or]
    exact ⟨plain.single.1, by decide, clean, by decide, by decide, List.not_mem_nil⟩
  have line := single_number front number
  simpa [sample] using line

def pressurePrefix : List Char := "stallwatch_pressure_".toList

def emittedGauge : List Char := "stallwatch_series_emitted ".toList

def droppedGauge : List Char := "stallwatch_series_dropped ".toList

/-- A line that is no sample of a pressure counter and no gauge of the cap. -/
structure Aside (line : List Char) : Prop where
  single : Single line
  pressure : pressurePrefix.isPrefixOf line = false
  emitted : emittedGauge.isPrefixOf line = false
  dropped : droppedGauge.isPrefixOf line = false

/- The comments before a family. -/
theorem aside_family {name help kind : String} (plainName : Plain name.toList) (plainHelp : Plain help.toList)
    (plainKind : Plain kind.toList) : ∀ l ∈ familyLines name help kind, Aside l := by
  have comment {line : List Char} (plain : Plain ('#' :: line)) : Aside ('#' :: line) :=
    ⟨plain.single, rfl, rfl, rfl⟩
  intro l member
  simp only [familyLines, List.mem_cons, List.not_mem_nil, or_false, String.toList_append] at member
  have blank : Plain " ".toList := by decide
  rcases member with rfl | rfl
  · have front : Plain "# HELP ".toList := by decide
    exact comment (((front.append plainName).append blank).append plainHelp)
  · have front : Plain "# TYPE ".toList := by decide
    exact comment (((front.append plainName).append blank).append plainKind)

theorem aside_gauges {name help : String} {ls : List (List Char)} (plainName : Plain name.toList)
    (plainHelp : Plain help.toList) (samples : ∀ l ∈ ls, Aside l) : ∀ l ∈ gauges name help ls, Aside l := by
  intro l member
  unfold gauges at member
  split at member
  · cases member
  · exact (List.mem_append.mp member).elim (aside_family plainName plainHelp (by decide) l) (samples l)

/-- The name of another family. -/
structure Other (name : String) : Prop where
  plain : Plain name.toList
  pressure : ∀ rest, pressurePrefix.isPrefixOf (name.toList ++ rest) = false
  emitted : ∀ rest, emittedGauge.isPrefixOf (name.toList ++ rest) = false
  dropped : ∀ rest, droppedGauge.isPrefixOf (name.toList ++ rest) = false

theorem Other.aside {name : String} (other : Other name) {labels value : List Char} (clean : '\n' ∉ labels)
    (number : Number value) : Aside (sample name labels value) :=
  ⟨single_sample other.plain clean number, other.pressure _, other.emitted _, other.dropped _⟩

theorem btrfs_labels (b : Btrfs) : '\n' ∉ b.labels :=
  List.not_mem_append (List.not_mem_append (by decide) (esc_newline _)) (by decide)

theorem reading_labels {host : Host} {r : Reading} (member : r ∈ readings host) : '\n' ∉ r.labels := by
  obtain ⟨h, _, inner⟩ := List.mem_flatMap.mp member
  unfold Hwmon.readings at inner
  split at inner
  · obtain ⟨idx, _, read⟩ := List.mem_filterMap.mp inner
    unfold Hwmon.reading at read
    split at read
    · cases read
      refine List.not_mem_append (List.not_mem_append (List.not_mem_append
        (List.not_mem_append ?_ ?_) ?_) ?_) ?_
      · decide
      · exact esc_newline _
      · decide
      · exact esc_newline _
      · decide
    · cases read
  · cases inner

theorem aside_readings {name : String} (other : Other name) (host : Host) (value : Reading → List Char)
    (number : ∀ r, Number (value r)) :
    ∀ l ∈ (readings host).map fun r => sample name r.labels (value r), Aside l := by
  intro l member
  obtain ⟨r, read, rfl⟩ := List.mem_map.mp member
  exact other.aside (reading_labels read) (number r)

set_option maxRecDepth 2000 in
theorem pathology_aside (f : Rounding) (host : Host) : ∀ l ∈ pathologyLines f host, Aside l := by
  have unallocName : Other "stallwatch_btrfs_unallocated_bytes" :=
    ⟨plain_literal (by decide +kernel), fun _ => rfl, fun _ => rfl, fun _ => rfl⟩
  have discardName : Other "stallwatch_btrfs_discard_queued_extents" :=
    ⟨plain_literal (by decide +kernel), fun _ => rfl, fun _ => rfl, fun _ => rfl⟩
  have celsiusName : Other "stallwatch_drive_temperature_celsius" :=
    ⟨plain_literal (by decide +kernel), fun _ => rfl, fun _ => rfl, fun _ => rfl⟩
  have limitName : Other "stallwatch_drive_temperature_limit_celsius" :=
    ⟨plain_literal (by decide +kernel), fun _ => rfl, fun _ => rfl, fun _ => rfl⟩
  have unalloc : ∀ l ∈ host.btrfs.filterMap Btrfs.unallocLine, Aside l := by
    intro l member
    obtain ⟨b, _, line⟩ := List.mem_filterMap.mp member
    unfold Btrfs.unallocLine at line
    split at line
    · cases line
      exact unallocName.aside (btrfs_labels b) (number_decimal _)
    · cases line
  have discard : ∀ l ∈ host.btrfs.filterMap Btrfs.discardLine, Aside l := by
    intro l member
    obtain ⟨b, _, line⟩ := List.mem_filterMap.mp member
    obtain ⟨ext, _, rfl⟩ := Option.map_eq_some_iff.mp line
    exact discardName.aside (btrfs_labels b) (number_decimal _)
  have celsius := aside_readings celsiusName host (fun r => degrees f r.celsius) fun _ => number_format _ _
  have limit := aside_readings limitName host (fun r => degrees f r.limit) fun _ => number_format _ _
  intro l member
  simp only [pathologyLines, List.mem_append] at member
  rcases member with ((first | second) | third) | fourth
  · exact aside_gauges unallocName.plain (plain_literal (by decide +kernel)) unalloc l first
  · exact aside_gauges discardName.plain (plain_literal (by decide +kernel)) discard l second
  · exact aside_gauges celsiusName.plain (plain_literal (by decide +kernel)) celsius l third
  · exact aside_gauges limitName.plain (plain_literal (by decide +kernel)) limit l fourth

/-- The lines of the document for the pairs in `rows`. -/
def documentLines (f : Rounding) (host : Host) (cgroups maxSeries : ℕ) (rows : List Series) :
    List (List Char) :=
  waitingFamily ++ waitingLines f (rows.take maxSeries) ++ stalledFamily ++
    stalledLines f (rows.take maxSeries) ++ pathologyLines f host ++
    scrapeLines host cgroups (min maxSeries rows.length) (rows.length - maxSeries)

section Document

variable (f : Rounding) (host : Host) (cgroups maxSeries : ℕ) {snapshot : HashMap PathBuf Snapshot}
  (rows : List Series)

theorem render_eq : render f host cgroups maxSeries snapshot =
    allSeries snapshot >>= fun rows => .ok (unlines (documentLines f host cgroups maxSeries rows)) := by
  rw [render, addAll_eq]
  simp only [bind_assoc, Outcome.ok_bind, Outcome.pure_eq, foldl_add, documentLines, unlines_append,
    pathologySeries]

theorem waitingName_plain : Plain waitingName.toList := plain_literal (by decide +kernel)

theorem stalledName_plain : Plain stalledName.toList := plain_literal (by decide +kernel)

theorem waitingFamily_aside : ∀ l ∈ waitingFamily, Aside l :=
  aside_family waitingName_plain (plain_literal (by decide +kernel)) (by decide)

theorem stalledFamily_aside : ∀ l ∈ stalledFamily, Aside l :=
  aside_family stalledName_plain (plain_literal (by decide +kernel)) (by decide)

/-- A sample of a pressure counter. -/
structure Pressure (line : List Char) : Prop where
  single : Single line
  pressure : pressurePrefix.isPrefixOf line = true
  emitted : emittedGauge.isPrefixOf line = false
  dropped : droppedGauge.isPrefixOf line = false

theorem labels_newline (s : Series) : '\n' ∉ s.labels := by
  have resource : '\n' ∉ s.resource.display.toList := by cases s.resource <;> decide
  refine List.not_mem_append (List.not_mem_append (List.not_mem_append (List.not_mem_append
    (List.not_mem_append (List.not_mem_append ?_ ?_) ?_) ?_) ?_) resource) ?_
  · decide
  · exact esc_newline _
  · decide
  · exact esc_newline _
  · decide
  · decide

theorem waiting_pressure {l : List Char} (member : l ∈ waitingLines f rows) : Pressure l := by
  obtain ⟨s, _, rfl⟩ := List.mem_map.mp member
  exact ⟨single_sample waitingName_plain (labels_newline s) (number_format _ _), rfl, rfl, rfl⟩

theorem stalled_pressure {l : List Char} (member : l ∈ stalledLines f rows) : Pressure l := by
  obtain ⟨s, _, rfl⟩ := List.mem_map.mp member
  exact ⟨single_sample stalledName_plain (labels_newline s) (number_format _ _), rfl, rfl, rfl⟩

theorem single_gauge {name help : String} {value : List Char} (plainName : Plain name.toList)
    (plainHelp : Plain help.toList) (number : Number value) : ∀ l ∈ gaugeLines name help value, Single l := by
  intro l member
  rcases List.mem_append.mp member with comment | line
  · exact (aside_family plainName plainHelp (by decide) l comment).single
  · rw [List.mem_singleton.mp line, List.append_cons]
    exact single_number (plainName.append (by decide : Plain [' '])).single.1 number

theorem scrape_single (emitted dropped : ℕ) : ∀ l ∈ scrapeLines host cgroups emitted dropped, Single l := by
  intro l member
  simp only [scrapeLines, List.mem_append] at member
  rcases member with ((first | second) | third) | fourth
  · exact single_gauge (plain_literal (by decide +kernel)) (plain_literal (by decide +kernel))
      (number_decimal _) l first
  · exact single_gauge (plain_literal (by decide +kernel)) (plain_literal (by decide +kernel))
      (number_decimal _) l second
  · exact single_gauge (plain_literal (by decide +kernel)) (plain_literal (by decide +kernel))
      (number_decimal _) l third
  · exact single_gauge (plain_literal (by decide +kernel)) (plain_literal (by decide +kernel))
      (number_format _ _) l fourth

theorem lines_document : lines (unlines (documentLines f host cgroups maxSeries rows)) =
    documentLines f host cgroups maxSeries rows := by
  apply lines_unlines
  intro l member
  simp only [documentLines, List.mem_append] at member
  rcases member with ((((front | waiting) | middle) | stalled) | pathology) | scrape
  · exact (waitingFamily_aside l front).single
  · exact (waiting_pressure f _ waiting).single
  · exact (stalledFamily_aside l middle).single
  · exact (stalled_pressure f _ stalled).single
  · exact (pathology_aside f host l pathology).single
  · exact scrape_single host cgroups _ _ l scrape

end Document

/-- The number of samples of the pressure counters. -/
def samples (doc : List Char) : ℕ := (lines doc).countP fun l => pressurePrefix.isPrefixOf l

/-- The value of a gauge without labels. -/
def gauge (front doc : List Char) : Option (List Char) := (lines doc).findSome? (stripPrefix front)

section Accounts

variable (f : Rounding) (host : Host) (cgroups maxSeries : ℕ) (rows : List Series)

theorem countP_aside {ls : List (List Char)} (aside : ∀ l ∈ ls, Aside l) :
    (ls.countP fun l => pressurePrefix.isPrefixOf l) = 0 := by
  rw [List.countP_eq_zero]
  intro l member
  simp [(aside l member).pressure]

theorem countP_pressure {ls : List (List Char)} (pressure : ∀ l ∈ ls, Pressure l) :
    (ls.countP fun l => pressurePrefix.isPrefixOf l) = ls.length := by
  rw [List.countP_eq_length]
  exact fun l member => (pressure l member).pressure

theorem samples_document : samples (unlines (documentLines f host cgroups maxSeries rows)) =
    (waitingLines f (rows.take maxSeries)).length + (stalledLines f (rows.take maxSeries)).length := by
  have scrape : ((scrapeLines host cgroups (min maxSeries rows.length) (rows.length - maxSeries)).countP
      fun l => pressurePrefix.isPrefixOf l) = 0 := rfl
  rw [samples, lines_document, documentLines]
  simp only [List.countP_append, countP_aside waitingFamily_aside, countP_aside stalledFamily_aside,
    countP_aside (pathology_aside f host), countP_pressure fun l => waiting_pressure f _,
    countP_pressure fun l => stalled_pressure f _, scrape]
  omega

theorem findSome?_free {front : List Char} {ls : List (List Char)}
    (free : ∀ l ∈ ls, front.isPrefixOf l = false) : ls.findSome? (stripPrefix front) = none := by
  rw [List.findSome?_eq_none_iff]
  intro l member
  simp [stripPrefix, free l member]

theorem gauges_document :
    gauge emittedGauge (unlines (documentLines f host cgroups maxSeries rows)) =
        some (decimal (min maxSeries rows.length)) ∧
      gauge droppedGauge (unlines (documentLines f host cgroups maxSeries rows)) =
        some (decimal (rows.length - maxSeries)) := by
  rw [gauge, gauge, lines_document, documentLines]
  constructor
  · simp only [List.findSome?_append,
      findSome?_free fun l member => (waitingFamily_aside l member).emitted,
      findSome?_free fun l member => (stalledFamily_aside l member).emitted,
      findSome?_free fun l member => (pathology_aside f host l member).emitted,
      findSome?_free fun l member => (waiting_pressure f (rows.take maxSeries) member).emitted,
      findSome?_free fun l member => (stalled_pressure f (rows.take maxSeries) member).emitted,
      Option.none_or]
    rfl
  · simp only [List.findSome?_append,
      findSome?_free fun l member => (waitingFamily_aside l member).dropped,
      findSome?_free fun l member => (stalledFamily_aside l member).dropped,
      findSome?_free fun l member => (pathology_aside f host l member).dropped,
      findSome?_free fun l member => (waiting_pressure f (rows.take maxSeries) member).dropped,
      findSome?_free fun l member => (stalled_pressure f (rows.take maxSeries) member).dropped,
      Option.none_or]
    rfl

end Accounts

/-- The document keeps to the cap, and its gauges account for its samples and for those
that only `whole` has. -/
def Reported (maxSeries : ℕ) (doc whole : List Char) : Prop :=
  ∃ emitted dropped, gauge emittedGauge doc = some (decimal emitted) ∧
    gauge droppedGauge doc = some (decimal dropped) ∧
    samples doc ≤ maxSeries ∧ emitted = samples doc ∧ emitted + dropped = samples whole

section Cap

variable {f : Rounding} {host : Host} {cgroups maxSeries enough : ℕ} {snapshot : HashMap PathBuf Snapshot}
  {doc whole : List Char}

theorem decimal_inj {a b : ℕ} (same : decimal a = decimal b) : a = b := by
  rw [← decimal_value a, same, decimal_value]

/- Every pair has a waiting sample, and every pair that is not of the processor a stalled
one. -/
theorem reported_rows {rows : List Series} (all : rows.length ≤ enough) :
    Reported maxSeries (unlines (documentLines f host cgroups maxSeries rows))
      (unlines (documentLines f host cgroups enough rows)) ↔ ∀ s ∈ rows, s.resource = .cpu := by
  obtain ⟨emittedText, droppedText⟩ := gauges_document f host cgroups maxSeries rows
  have waiting (rows : List Series) : (waitingLines f rows).length = rows.length := List.length_map _
  constructor
  · rintro ⟨emitted, dropped, gauge₁, gauge₂, -, -, total⟩
    rw [emittedText, Option.some.injEq] at gauge₁
    rw [droppedText, Option.some.injEq] at gauge₂
    rw [samples_document, List.take_of_length_le all, waiting, ← decimal_inj gauge₁,
      ← decimal_inj gauge₂] at total
    have none : (stalledLines f rows).length = 0 := by omega
    rw [stalledLines, List.length_map, List.length_eq_zero_iff, List.filter_eq_nil_iff] at none
    intro s member
    simpa using none s member
  · intro cpu
    have none : ∀ n, (stalledLines f (rows.take n)).length = 0 := by
      intro n
      rw [stalledLines, List.length_map, List.length_eq_zero_iff, List.filter_eq_nil_iff]
      intro s member
      simp [cpu s (List.mem_of_mem_take member)]
    refine ⟨_, _, emittedText, droppedText, ?_⟩
    rw [samples_document, samples_document, none, none, waiting, waiting, List.take_of_length_le all,
      List.length_take]
    omega

theorem seriesOf_ok {path : PathBuf} {rows : List Series} (ok : seriesOf snapshot path = .ok rows) :
    ∃ snap, snapshot.lookup path = some snap ∧
      rows.map Series.resource = Resource.all.filter fun res =>
        ¬ ((snap.get res).someTotalUs = 0 ∧ (snap.get res).fullTotalUs = 0) := by
  unfold seriesOf at ok
  cases found : snapshot.lookup path with
  | none => simp [found] at ok
  | some snap =>
    simp only [found] at ok
    obtain ⟨unit, _, made⟩ := Outcome.bind_eq_ok.mp ok
    cases made
    refine ⟨snap, rfl, ?_⟩
    rw [List.map_map]
    exact List.map_id _

theorem seriesOf_length {path : PathBuf} {rows : List Series} (ok : seriesOf snapshot path = .ok rows) :
    rows.length ≤ 3 := by
  obtain ⟨snap, _, resources⟩ := seriesOf_ok ok
  calc rows.length = (rows.map Series.resource).length := (List.length_map _).symm
    _ ≤ Resource.all.length := by rw [resources]; exact List.length_filter_le _ _

/-- Nothing but the processor has made this cgroup wait. -/
def CpuOnly (snap : Snapshot) : Prop := snap.memory = ⟨0, 0⟩ ∧ snap.io = ⟨0, 0⟩

theorem seriesOf_cpu {path : PathBuf} {rows : List Series} (ok : seriesOf snapshot path = .ok rows) :
    ∃ snap, snapshot.lookup path = some snap ∧ ((∀ s ∈ rows, s.resource = .cpu) ↔ CpuOnly snap) := by
  obtain ⟨snap, found, resources⟩ := seriesOf_ok ok
  refine ⟨snap, found, ?_⟩
  have listed : (∀ s ∈ rows, s.resource = .cpu) ↔ ∀ res ∈ rows.map Series.resource, res = .cpu := by
    simp
  rw [listed, resources]
  obtain ⟨cpu, ⟨memorySome, memoryFull⟩, ⟨ioSome, ioFull⟩⟩ := snap
  simp [CpuOnly, Resource.all, Snapshot.get]

theorem keys_sorted (path : PathBuf) :
    path ∈ snapshot.keys.insertionSort (· ≤ ·) ↔ ∃ snap, snapshot.lookup path = some snap := by
  rw [List.mem_insertionSort]
  exact AList.mem_keys.symm.trans AList.lookup_isSome.symm |>.trans Option.isSome_iff_exists

theorem rows_cpu {paths : List PathBuf} {parts : List (List Series)}
    (rel : List.Forall₂ (fun path rows => seriesOf snapshot path = .ok rows) paths parts) :
    parts.flatten.length ≤ 3 * paths.length ∧
      ((∀ s ∈ parts.flatten, s.resource = .cpu) ↔
        ∀ path ∈ paths, ∀ snap, snapshot.lookup path = some snap → CpuOnly snap) := by
  induction rel with
  | nil => simp
  | @cons path rows paths parts ok _ ih =>
    obtain ⟨fewer, cpu⟩ := ih
    have three := seriesOf_length ok
    obtain ⟨snap, found, here⟩ := seriesOf_cpu ok
    constructor
    · rw [List.flatten_cons, List.length_append, List.length_cons]
      omega
    · rw [List.flatten_cons, List.forall_mem_append, List.forall_mem_cons, cpu, here, found]
      simp

/- What the sorted paths give is about the whole map. -/
theorem allSeries_cpu {rows : List Series} (ok : allSeries snapshot = .ok rows) :
    rows.length ≤ 3 * snapshot.entries.length ∧
      ((∀ s ∈ rows, s.resource = .cpu) ↔ ∀ path snap, snapshot.lookup path = some snap → CpuOnly snap) := by
  obtain ⟨parts, ran, made⟩ := Outcome.bind_eq_ok.mp ok
  cases made
  obtain ⟨fewer, cpu⟩ := rows_cpu (Outcome.mapM_rel ran)
  rw [List.length_insertionSort, AList.keys, List.keys, List.length_map] at fewer
  refine ⟨fewer, cpu.trans ⟨fun only path snap found => ?_,
    fun only path _ snap found => only path snap found⟩⟩
  exact only path ((keys_sorted path).mpr ⟨snap, found⟩) snap found

theorem seriesOf_panic {path : PathBuf} {snap : Snapshot} (found : snapshot.lookup path = some snap) :
    seriesOf snapshot path = .panic ↔ Cgroup.TornName path := by
  rw [← Cgroup.friendlyName_panics]
  simp only [seriesOf, found]
  exact Outcome.bind_ok_eq_panic

/- Each cgroup is named before its pairs are looked at, so one name that is torn is enough. -/
theorem allSeries_returns : (∃ rows, allSeries snapshot = .ok rows) ↔
    ∀ path snap, snapshot.lookup path = some snap → ¬Cgroup.TornName path := by
  rcases Outcome.mapM_cases (f := seriesOf snapshot) (snapshot.keys.insertionSort (· ≤ ·)) with
    ⟨failed, path, listed, panics⟩ | ⟨parts, ran, named, _⟩
  · obtain ⟨snap, found⟩ := (keys_sorted path).mp listed
    refine iff_of_false ?_ fun all => all path snap found ((seriesOf_panic found).mp panics)
    rw [allSeries, failed]
    exact nofun
  · refine iff_of_true ⟨parts.flatten, by rw [allSeries, ran]; rfl⟩ fun path snap found torn => ?_
    exact named path ((keys_sorted path).mpr ⟨snap, found⟩) ((seriesOf_panic found).mpr torn)

theorem render_returns : (∃ doc, render f host cgroups maxSeries snapshot = .ok doc) ↔
    ∀ path snap, snapshot.lookup path = some snap → ¬Cgroup.TornName path := by
  rw [← allSeries_returns, render_eq]
  constructor
  · rintro ⟨doc, made⟩
    obtain ⟨rows, ok, _⟩ := Outcome.bind_eq_ok.mp made
    exact ⟨rows, ok⟩
  · rintro ⟨rows, ok⟩
    exact ⟨_, by rw [ok]; rfl⟩

/-- The cap counts pairs of a cgroup and a resource, and memory and io have two samples
for each, so there are documents with the right accounts exactly if nothing has waited for
either, and every cgroup can be named. -/
theorem cap_reported_iff (all : 3 * snapshot.entries.length ≤ enough) :
    (∃ doc whole, render f host cgroups maxSeries snapshot = .ok doc ∧
        render f host cgroups enough snapshot = .ok whole ∧ Reported maxSeries doc whole) ↔
      ∀ path snap, snapshot.lookup path = some snap → ¬Cgroup.TornName path ∧ CpuOnly snap := by
  have named := @allSeries_returns snapshot
  cases series : allSeries snapshot with
  | err e => exact e.elim
  | panic =>
    refine iff_of_false ?_ fun right => ?_
    · rintro ⟨doc, _, rendered, _⟩
      rw [render_eq, series] at rendered
      cases rendered
    · obtain ⟨rows, ok⟩ := named.mpr fun path snap found => (right path snap found).1
      cases series.symm.trans ok
  | ok rows =>
    obtain ⟨fewer, cpu⟩ := allSeries_cpu series
    have whole := named.mp ⟨rows, series⟩
    have accounts : Reported maxSeries (unlines (documentLines f host cgroups maxSeries rows))
        (unlines (documentLines f host cgroups enough rows)) ↔
          ∀ path snap, snapshot.lookup path = some snap → CpuOnly snap :=
      (reported_rows (fewer.trans all)).trans cpu
    have rendered (n : ℕ) : render f host cgroups n snapshot =
        .ok (unlines (documentLines f host cgroups n rows)) := by rw [render_eq, series]; rfl
    constructor
    · rintro ⟨doc, uncapped, first, second, reported⟩
      cases (rendered maxSeries).symm.trans first
      cases (rendered enough).symm.trans second
      exact fun path snap found => ⟨whole path snap found, accounts.mp reported path snap found⟩
    · intro right
      exact ⟨_, _, rendered maxSeries, rendered enough,
        accounts.mpr fun path snap found => (right path snap found).2⟩

end Cap

section OneUnit

def service : PathBuf := .absolute ["sys", "fs", "cgroup", "a.service"]

/-- A machine with one unit. -/
def oneUnit (snap : Snapshot) : HashMap PathBuf Snapshot := AList.insert service snap ∅

def bare : Host := ⟨[], [], .whole 0⟩

theorem service_name : Cgroup.friendlyName service = .ok "a" := by decide +kernel

theorem service_named : ¬Cgroup.TornName service := by
  rw [← Cgroup.friendlyName_panics, service_name]
  exact nofun

theorem allSeries_oneUnit (snap : Snapshot) (res : Resource)
    (waited : (Resource.all.filter fun res =>
      ¬ ((snap.get res).someTotalUs = 0 ∧ (snap.get res).fullTotalUs = 0)) = [res]) :
    allSeries (oneUnit snap) = .ok [⟨"a".toList, service.toStringLossy.toList, res, snap.get res⟩] := by
  have found : (oneUnit snap).lookup service = some snap := AList.lookup_insert _
  have series : seriesOf (oneUnit snap) service =
      .ok [⟨"a".toList, service.toStringLossy.toList, res, snap.get res⟩] := by
    simp only [seriesOf, found, service_name, waited, Outcome.ok_bind, Outcome.pure_eq, List.map_cons, List.map_nil]
  have keys : (oneUnit snap).keys.insertionSort (· ≤ ·) = [service] := rfl
  rw [allSeries, keys, List.mapM_cons, series]
  rfl

def ranOnly : Snapshot := ⟨⟨7, 0⟩, ⟨0, 0⟩, ⟨0, 0⟩⟩

def readOnly : Snapshot := ⟨⟨0, 0⟩, ⟨0, 0⟩, ⟨7, 5⟩⟩

theorem cap_reported_processor :
    ∃ doc whole, render .exact bare 1 1 (oneUnit ranOnly) = .ok doc ∧
      render .exact bare 1 3 (oneUnit ranOnly) = .ok whole ∧ Reported 1 doc whole := by
  refine (cap_reported_iff (by decide)).mpr fun path snap found => ?_
  by_cases here : path = service
  · subst here
    cases found
    exact ⟨service_named, rfl, rfl⟩
  · rw [oneUnit, AList.lookup_insert_ne here] at found
    cases found

/- Two samples under a cap of one, reported as one series. -/
theorem cap_exceeded :
    ∃ doc whole, render .exact bare 1 1 (oneUnit readOnly) = .ok doc ∧
      render .exact bare 1 3 (oneUnit readOnly) = .ok whole ∧
      samples doc = 2 ∧ gauge emittedGauge doc = some ['1'] ∧ ¬ Reported 1 doc whole := by
  have series := allSeries_oneUnit readOnly .io rfl
  have rendered (maxSeries : ℕ) := series ▸ @render_eq .exact bare 1 maxSeries (oneUnit readOnly)
  refine ⟨_, _, rendered 1, rendered 3, ?_, (gauges_document _ _ _ _ _).1, fun reported => ?_⟩
  · rw [samples_document]
    rfl
  · have cpu := (reported_rows (by decide)).mp reported
    exact absurd (cpu _ (List.mem_singleton_self _)) (by decide)

end OneUnit

end Stallwatch.Metrics
