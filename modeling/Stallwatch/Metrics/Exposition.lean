import Stallwatch.Base.Exposition
import Stallwatch.Metrics.Cap

/-! The samples of the document, read as Prometheus reads them. -/
namespace Stallwatch.Metrics

open Text Exposition

theorem quotes_escChar : Quotes escChar := by
  intro c sample label text
  unfold escChar
  split
  · rename_i slash
    subst slash
    rfl
  split
  · rename_i quote
    subst quote
    rfl
  split
  · rename_i newline
    subst newline
    rfl
  · rename_i slash quote newline
    simp [State.run_cons, State.run_nil, State.step, State.pushText, slash, quote, newline]

/-- What a line is to say of a pair. -/
def Series.sampled (s : Series) (name : String) (value : List Char) : Sample :=
  ⟨name.toList, [("unit".toList, s.unit), ("cgroup".toList, s.cgroup),
    ("resource".toList, s.resource.display.toList)], value, []⟩

theorem labels_fields (s : Series) (name : String) (value : List Char) :
    [','].intercalate ((s.sampled name value).labels.map (field escChar)) = s.labels := by
  have plain : s.resource.display.toList.flatMap escChar = s.resource.display.toList := by
    cases s.resource <;> decide
  have unit : "unit=\"".toList = "unit".toList ++ ['=', '"'] := by decide
  have cgroup : "\",cgroup=\"".toList = '"' :: ',' :: "cgroup".toList ++ ['=', '"'] := by decide
  have resource : "\",resource=\"".toList = '"' :: ',' :: "resource".toList ++ ['=', '"'] := by decide
  have whole : s.labels = "unit=\"".toList ++ esc s.unit ++ "\",cgroup=\"".toList ++ esc s.cgroup ++
      "\",resource=\"".toList ++ s.resource.display.toList ++ ['"'] := rfl
  simp only [Series.sampled, whole, unit, cgroup, resource, List.map_cons, List.map_nil, List.intercalate_cons_cons,
    List.intercalate_singleton, field, esc, plain, List.append_assoc, List.cons_append, List.nil_append]

theorem sample_write (s : Series) (name : String) (value : List Char) :
    sample name s.labels value = write escChar name.toList (s.sampled name value).labels value := by
  rw [sample, write, labels_fields]

theorem isNumberChar_written {c : Char} (written : F64.written c = true) : isNumberChar c = true := by
  have letters : ['-', '.', 'N', 'a', 'i', 'n', 'f'].all isNumberChar = true := by decide
  rw [F64.written, Bool.or_eq_true, List.contains_iff_mem] at written
  rcases written with digit | letter
  · simp [isNumberChar, Char.isAlphanum, digit]
  · exact List.all_eq_true.mp letters c letter

theorem named_labels (s : Series) (name : String) (value : List Char) :
    ∀ l ∈ (s.sampled name value).labels, IsName isLabelChar l.1 := by
  rintro l member
  simp only [Series.sampled, List.mem_cons, List.not_mem_nil, or_false] at member
  rcases member with rfl | rfl | rfl
  · exact ⟨_, _, rfl, by decide, List.all_eq_true.mp (by decide)⟩
  · exact ⟨_, _, rfl, by decide, List.all_eq_true.mp (by decide)⟩
  · exact ⟨_, _, rfl, by decide, List.all_eq_true.mp (by decide)⟩

/- Whatever the unit and the cgroup are called. -/
theorem readSample_sample (s : Series) {name : String} (metric : IsName isNameChar name.toList)
    {value : List Char} (number : Number value) :
    readSample (sample name s.labels value) = some (s.sampled name value) := by
  rw [sample_write]
  exact readSample_write quotes_escChar (List.cons_ne_nil _ _) metric (named_labels s name value)
    number.1 fun c member => isNumberChar_written (List.all_eq_true.mp number.2 c member)

/-- A block of lines, each of which is read as one of the samples. -/
def Reads (block : List Char) (samples : List Sample) : Prop :=
  ∃ ls, block = unlines ls ∧ (∀ l ∈ ls, '\n' ∉ l) ∧ ls.map readSample = samples.map some

section Blocks

variable (f : Rounding)

/-- The two blocks say of each pair what it has waited, and of each that is not the
processor's how long it was stalled. -/
structure Exposed (rows : List Series) (waiting stalled : List Char) : Prop where
  waiting : Reads waiting (rows.map fun s => s.sampled waitingName (seconds f (s.psi.totalFor .some)))
  stalled : Reads stalled ((rows.filter fun s => s.resource ≠ .cpu).map fun s =>
    s.sampled stalledName (seconds f (s.psi.totalFor .full)))

theorem reads_samples {name : String} (metric : IsName isNameChar name.toList) (plain : Plain name.toList)
    (value : Series → List Char) (number : ∀ s, Number (value s)) (rows : List Series) :
    Reads (unlines (rows.map fun s => sample name s.labels (value s)))
      (rows.map fun s => s.sampled name (value s)) := by
  refine ⟨_, rfl, fun l member => ?_, ?_⟩
  · obtain ⟨s, _, rfl⟩ := List.mem_map.mp member
    exact (single_sample plain (labels_newline s) (number s)).1
  · rw [List.map_map, List.map_map]
    exact List.map_congr_left fun s _ => readSample_sample s metric (number s)

theorem isName_waiting : IsName isNameChar waitingName.toList := ⟨'s', _, rfl, by decide, List.all_eq_true.mp (by decide)⟩

theorem isName_stalled : IsName isNameChar stalledName.toList := ⟨'s', _, rfl, by decide, List.all_eq_true.mp (by decide)⟩

/-- For pairs with any names. -/
theorem exposed_rows (rows : List Series) :
    Exposed f rows (unlines (waitingLines f rows)) (unlines (stalledLines f rows)) :=
  ⟨reads_samples isName_waiting waitingName_plain _ (fun _ => number_format _ _) rows,
    reads_samples isName_stalled stalledName_plain _ (fun _ => number_format _ _) _⟩

end Blocks

/-- A pair of the snapshot that has accumulated something. -/
structure Accumulated (snapshot : HashMap PathBuf Snapshot) (path : PathBuf) (s : Series) : Prop where
  unit : Cgroup.friendlyName path = .ok (String.ofList s.unit)
  cgroup : s.cgroup = path.toStringLossy.toList
  psi : ∃ snap, snapshot.lookup path = some snap ∧ s.psi = snap.get s.resource
  some : ¬(s.psi.someTotalUs = 0 ∧ s.psi.fullTotalUs = 0)

/-- In the order of the paths, and of the resources where the paths are the same. -/
def Before (a b : PathBuf × Series) : Prop :=
  a.1 < b.1 ∨ a.1 = b.1 ∧ a.2.resource.index < b.2.resource.index

section Snapshot

variable {snapshot : HashMap PathBuf Snapshot}

theorem seriesOf_accumulated {path : PathBuf} {rows : List Series} (ok : seriesOf snapshot path = .ok rows) :
    (∀ s, s ∈ rows ↔ Accumulated snapshot path s) ∧
      rows.Pairwise fun a b => a.resource.index < b.resource.index := by
  unfold seriesOf at ok
  cases found : snapshot.lookup path with
  | none => simp [found] at ok
  | some snap =>
    simp only [found] at ok
    obtain ⟨unit, named, made⟩ := Outcome.bind_eq_ok.mp ok
    cases made
    constructor
    · intro s
      rw [List.mem_map]
      constructor
      · rintro ⟨res, listed, rfl⟩
        exact ⟨by rw [named, String.ofList_toList], rfl, ⟨snap, found, rfl⟩,
          of_decide_eq_true (List.mem_filter.mp listed).2⟩
      · rintro ⟨name, cgroup, ⟨other, here, psi⟩, nonzero⟩
        cases found.symm.trans here
        have same : unit = String.ofList s.unit := Outcome.ok.inj (named.symm.trans name)
        refine ⟨s.resource, List.mem_filter.mpr ⟨Resource.mem_all _, decide_eq_true (psi ▸ nonzero)⟩, ?_⟩
        rw [same, ← cgroup, ← psi, String.toList_ofList]
    · rw [List.pairwise_map]
      exact Resource.all_sorted.filter _

theorem rows_accumulated {paths : List PathBuf} {parts : List (List Series)} (sorted : paths.Pairwise (· < ·))
    (rel : List.Forall₂ (fun path rows => seriesOf snapshot path = .ok rows) paths parts) :
    ∃ rows : List (PathBuf × Series), rows.map Prod.snd = parts.flatten ∧ rows.Pairwise Before ∧
      ∀ path s, (path, s) ∈ rows ↔ path ∈ paths ∧ Accumulated snapshot path s := by
  induction rel with
  | nil => exact ⟨[], rfl, .nil, by simp⟩
  | @cons path part paths parts ok _ ih =>
    obtain ⟨least, sorted⟩ := List.pairwise_cons.mp sorted
    obtain ⟨rows, flat, ordered, members⟩ := ih sorted
    obtain ⟨here, resources⟩ := seriesOf_accumulated ok
    refine ⟨part.map (Prod.mk path) ++ rows, ?_, ?_, fun p s => ?_⟩
    · rw [List.map_append, flat, List.map_map, List.flatten_cons]
      exact congrArg (· ++ parts.flatten) (List.map_id _)
    · refine List.pairwise_append.mpr ⟨?_, ordered, ?_⟩
      · exact List.pairwise_map.mpr (resources.imp fun less => .inr ⟨rfl, less⟩)
      · rintro _ front ⟨p, t⟩ back
        obtain ⟨s, _, rfl⟩ := List.mem_map.mp front
        exact .inl (least p ((members p t).mp back).1)
    · rw [List.mem_append, List.mem_cons, members, List.mem_map]
      constructor
      · rintro (⟨t, listed, same⟩ | ⟨listed, accumulated⟩)
        · cases same
          exact ⟨.inl rfl, (here _).mp listed⟩
        · exact ⟨.inr listed, accumulated⟩
      · rintro ⟨rfl | listed, accumulated⟩
        · exact .inl ⟨s, (here s).mpr accumulated, rfl⟩
        · exact .inr ⟨listed, accumulated⟩

theorem keys_strict (snapshot : HashMap PathBuf Snapshot) :
    (snapshot.keys.insertionSort (· ≤ ·)).Pairwise (· < ·) := by
  have sorted : (snapshot.keys.insertionSort (· ≤ ·)).Pairwise (· ≤ ·) := List.pairwise_insertionSort _ _
  have distinct : (snapshot.keys.insertionSort (· ≤ ·)).Nodup :=
    (List.perm_insertionSort _ _).nodup_iff.mpr snapshot.nodupKeys
  exact (sorted.and distinct).imp fun both => lt_of_le_of_ne both.1 both.2

theorem allSeries_accumulated {all : List Series} (ok : allSeries snapshot = .ok all) :
    ∃ rows : List (PathBuf × Series), rows.map Prod.snd = all ∧ rows.Pairwise Before ∧
      ∀ path s, (path, s) ∈ rows ↔ Accumulated snapshot path s := by
  obtain ⟨parts, ran, made⟩ := Outcome.bind_eq_ok.mp ok
  cases made
  obtain ⟨rows, flat, ordered, members⟩ := rows_accumulated (keys_strict snapshot) (Outcome.mapM_rel ran)
  refine ⟨rows, flat, ordered, fun path s => (members path s).trans (and_iff_right_of_imp fun accumulated => ?_)⟩
  obtain ⟨snap, found, _⟩ := accumulated.psi
  exact (keys_sorted path).mpr ⟨snap, found⟩

variable (f : Rounding) (host : Host) (cgroups maxSeries : ℕ)

/- Pairs with any names, written by the loop. -/
theorem exposed_loop (rows : List Series) :
    Exposed f (rows.take maxSeries) (rows.foldl (Written.add f maxSeries) ⟨[], [], 0, 0⟩).waiting
      (rows.foldl (Written.add f maxSeries) ⟨[], [], 0, 0⟩).stalled := by
  rw [foldl_add]
  exact exposed_rows f _

/-- The two blocks of the document are the samples of the snapshot in the order of the paths. -/
def Decoded (snapshot : HashMap PathBuf Snapshot) (doc : List Char) : Prop :=
  ∃ (rows : List (PathBuf × Series)) (waiting stalled rest : List Char),
    doc = unlines waitingFamily ++ waiting ++ unlines stalledFamily ++ stalled ++ rest ∧
    Exposed f ((rows.map Prod.snd).take maxSeries) waiting stalled ∧
    rows.Pairwise Before ∧ ∀ path s, (path, s) ∈ rows ↔ Accumulated snapshot path s

/- What is rendered has been read back, whatever the names. -/
theorem render_decoded {doc : List Char} (rendered : render f host cgroups maxSeries snapshot = .ok doc) :
    Decoded f maxSeries snapshot doc := by
  rw [render, addAll_eq] at rendered
  obtain ⟨w, ran, made⟩ := Outcome.bind_eq_ok.mp rendered
  obtain ⟨all, ok, written⟩ := Outcome.bind_eq_ok.mp ran
  obtain ⟨rows, flat, ordered, members⟩ := allSeries_accumulated ok
  have same : w = (rows.map Prod.snd).foldl (Written.add f maxSeries) ⟨[], [], 0, 0⟩ := by
    rw [flat, Outcome.ok.inj written]
  have exposed := exposed_loop f maxSeries (rows.map Prod.snd)
  rw [← same] at exposed
  refine ⟨rows, w.waiting, w.stalled,
    pathologySeries f host ++ unlines (scrapeLines host cgroups w.emitted w.dropped), ?_, exposed, ordered, members⟩
  rw [← Outcome.ok.inj made]
  exact List.append_assoc _ _ _

/-- There is a document with one line for each sample, which is read as the name, the labels and
the number it was written from, exactly if every cgroup of the snapshot can be named. -/
theorem samples_decode_iff :
    (∃ doc, render f host cgroups maxSeries snapshot = .ok doc ∧ Decoded f maxSeries snapshot doc) ↔
      ∀ path snap, snapshot.lookup path = some snap → ¬Cgroup.TornName path := by
  rw [← @render_returns f host cgroups maxSeries snapshot]
  exact exists_congr fun _ => and_iff_left_of_imp (render_decoded f host cgroups maxSeries)

end Snapshot

def tornPath : PathBuf := .absolute ["sys", "fs", "cgroup", "\\xaé.service"]

/-- Beside a unit that has read from a disk there is one with a name that is torn. -/
theorem samples_lost : ¬∃ doc,
    render .exact bare 2 500 (AList.insert tornPath ranOnly (oneUnit readOnly)) = .ok doc ∧
      Decoded .exact 500 (AList.insert tornPath ranOnly (oneUnit readOnly)) doc := by
  have panics : Cgroup.friendlyName tornPath = .panic := by decide +kernel
  rintro ⟨doc, rendered, _⟩
  have named := render_returns.mp ⟨doc, rendered⟩
  exact named tornPath ranOnly (AList.lookup_insert _) ((Cgroup.friendlyName_panics _).mp panics)

end Stallwatch.Metrics
