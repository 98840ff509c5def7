import Stallwatch.Base.Publish
import Stallwatch.Base.Utf8
import Stallwatch.Metrics.Cap

/-! The file for the textfile collector. The daemon renders a new document every fifteen seconds,
and the collector reads when it likes. -/
namespace Stallwatch.Metrics

open Publish

section

variable (f : Rounding) (maxSeries : ℕ) (path : List Char)

/-- `format!("{path}.tmp")`. -/
def temporary : List Char := path ++ ".tmp".toList

/-- The bytes of what one scrape renders. -/
def Scraped (doc : List UInt8) : Prop :=
  ∃ host sweep text, scrape f host sweep maxSeries = .ok text ∧ doc = Utf8.bytes text

/-- What `write_textfile` does to the disk, called again and again, beside those who read. -/
abbrev WriteTextfile : Disk (List Char) UInt8 → List (Event UInt8) → State (List Char) UInt8 → Prop :=
  Run (Scraped f maxSeries) path (temporary path)

end

variable {f : Rounding} {maxSeries : ℕ} {path : List Char} {disk : Disk (List Char) UInt8}
  {es : List (Event UInt8)} {s : State (List Char) UInt8}

theorem temporary_ne (path : List Char) : path ≠ temporary path := by
  intro same
  have longer := congrArg List.length same
  have four : ".tmp".toList.length = 4 := by decide
  rw [temporary, List.length_append, four] at longer
  omega

/-- The name always stands for a whole document, the last that was renamed, wherever the daemon
is in writing the next and wherever it has failed. A collector that has read to the end has read
the document that was there when it opened the file: the one found at the start, or all of one
scrape. What a failure leaves behind does not keep the next document from being shown. -/
theorem textfile_read (run : WriteTextfile f maxSeries path disk es s)
    (apart : ∀ file, disk.link (temporary path) = some file → disk.link path ≠ some file) :
    s.disk.content path = shown (disk.content path) es ∧
      (∀ r seen, s.reader r = .closed seen → ∃ before after, es = before ++ .opened r :: after ∧
        shown (disk.content path) before = some seen ∧
        (disk.content path = some seen ∨ .renamed seen ∈ before ∧ Scraped f maxSeries seen)) ∧
      ∀ doc, s.writer = .idle → Scraped f maxSeries doc → (∃ file, s.Free file) →
        ∃ s', WriteTextfile f maxSeries path disk (es ++ [.created doc] ++ [.wrote doc] ++
          [.renamed doc]) s' ∧
          s'.disk.content path = some doc := by
  have whole := run_whole (temporary_ne path) apart run
  refine ⟨whole.content, fun r seen closed => ?_, fun doc idle scraped space => ?_⟩
  · obtain ⟨before, after, split, current⟩ := whole.closed r seen closed
    refine ⟨before, after, split, current, (shown_cases current).imp_right fun renamed => ⟨renamed, ?_⟩⟩
    have among : Event.renamed seen ∈ es := split ▸ List.mem_append_left _ renamed
    exact (run_documents run).2 seen among
  · obtain ⟨s', next, _, _, current⟩ := run.published (temporary_ne path) apart idle scraped space
    exact ⟨s', next, current⟩

/-- A disk with a document, and with what an interrupted write has left behind. -/
def leftBehind (path : List Char) (old : List UInt8) : Disk (List Char) UInt8 :=
  ⟨fun name => if name = path then some 0 else if name = temporary path then some 1 else none,
    fun _ => old⟩

/- One collector reads while the document is replaced, another comes afterwards. -/
def overlapping (old doc : List UInt8) : List (Event UInt8) :=
  [.opened 0, .created doc, .stopped, .created doc, .wrote doc, .renamed doc, .read 0 old, .closed 0,
    .opened 1, .read 1 doc, .closed 1]

theorem leftBehind_apart {path : List Char} {old : List UInt8} (file : ℕ)
    (there : (leftBehind path old).link (temporary path) = some file) :
    (leftBehind path old).link path ≠ some file := by
  have differ := temporary_ne path
  simp only [leftBehind, differ.symm, if_false, if_true] at there ⊢
  cases there
  exact nofun

theorem run_overlapping {old doc : List UInt8} (scraped : Scraped f maxSeries doc) :
    ∃ s, WriteTextfile f maxSeries path (leftBehind path old) (overlapping old doc) s ∧
      s.reader 0 = .closed old ∧ s.reader 1 = .closed doc := by
  have differ := temporary_ne path
  have opened := (@Run.start _ _ _ (Scraped f maxSeries) path (temporary path) (leftBehind path old)).step
    (@Step.opened _ _ _ _ _ _ _ 0 0 rfl (by simp [leftBehind]))
  have left := (opened.step (@Step.emptied _ _ _ _ _ _ _ doc 1 rfl scraped
    (by simp [leftBehind, differ.symm, State.setReader]))).step .stopped
  have created := left.step (@Step.emptied _ _ _ _ _ _ _ doc 1 rfl scraped
    (by simp [leftBehind, differ.symm, State.setReader]))
  have renamed := (created.step (@Step.wrote _ _ _ _ _ _ _ 1 doc doc [] (by simp))).step (.renamed rfl)
  have read := renamed.step (@Step.read _ _ _ _ _ _ _ 0 0 [] old (by simp [State.setReader])
    (by simp [leftBehind, State.setReader]))
  have closed := read.step (@Step.closed _ _ _ _ _ _ _ 0 0 old (by simp [State.setReader])
    (by simp [leftBehind, State.setReader]))
  have later := closed.step (@Step.opened _ _ _ _ _ _ _ 1 1 (by simp [State.setReader])
    (by simp [leftBehind, differ, differ.symm, State.setReader]))
  have again := later.step (@Step.read _ _ _ _ _ _ _ 1 1 [] doc (by simp [State.setReader])
    (by simp [leftBehind, State.setReader]))
  have last := again.step (@Step.closed _ _ _ _ _ _ _ 1 1 doc (by simp [State.setReader])
    (by simp [leftBehind, State.setReader]))
  exact ⟨_, last, by simp [State.setReader], by simp [State.setReader]⟩

theorem textfile_read_overlapping : ∃ (doc : List UInt8) (s : State (List Char) UInt8),
    WriteTextfile .exact 500 ['m'] (leftBehind ['m'] []) (overlapping [] doc) s ∧
      s.disk.content ['m'] = shown ((leftBehind ['m'] []).content ['m']) (overlapping [] doc) ∧
      s.reader 1 = .closed doc ∧ ∃ before after, overlapping [] doc = before ++ .opened 1 :: after ∧
        shown ((leftBehind ['m'] []).content ['m']) before = some doc := by
  have scraped : Scraped .exact 500 (Utf8.bytes _) := ⟨bare, ⟨[], fun _ _ => none⟩, _, rfl, rfl⟩
  obtain ⟨s, run, _, closed⟩ := @run_overlapping .exact 500 ['m'] [] _ scraped
  obtain ⟨content, reads, _⟩ := textfile_read run leftBehind_apart
  obtain ⟨before, after, split, current, _⟩ := reads 1 _ closed
  exact ⟨_, s, run, content, closed, before, after, split, current⟩

end Stallwatch.Metrics
