import Mathlib.Data.List.Infix
import Mathlib.Logic.Function.Basic

/-! A document published under a name. It is written to a file with another name, which then
takes the name. Others open the name at any moment and read what they opened piece by piece. -/
namespace Stallwatch.Publish

variable {κ β : Type}

/-- The names of files, and what each file holds. A file without a name is there for as long
as somebody has it open. -/
structure Disk (κ β : Type) where
  link : κ → Option ℕ
  bytes : ℕ → List β

def Disk.content (d : Disk κ β) (name : κ) : Option (List β) := (d.link name).map d.bytes

/-- What is left to write of a document. -/
inductive Writer (β : Type) where
  | idle
  | writing (file : ℕ) (doc rest : List β)

inductive Reader (β : Type) where
  | absent
  | reading (file : ℕ) (seen : List β)
  | closed (seen : List β)

structure State (κ β : Type) where
  disk : Disk κ β
  writer : Writer β
  reader : ℕ → Reader β

/-- The writer may stop anywhere: an error, a signal, a loss of power. -/
inductive Event (β : Type) where
  | created (doc : List β)
  | wrote (chunk : List β)
  | renamed (doc : List β)
  | stopped
  | opened (r : ℕ)
  | read (r : ℕ) (chunk : List β)
  | closed (r : ℕ)

def State.setReader (s : State κ β) (r : ℕ) (stage : Reader β) : State κ β :=
  { s with reader := Function.update s.reader r stage }

/-- Neither named nor open. -/
structure State.Free (s : State κ β) (file : ℕ) : Prop where
  unnamed : ∀ name, s.disk.link name ≠ some file
  closed : ∀ r seen, s.reader r ≠ .reading file seen

section Steps

variable [DecidableEq κ] (Doc : List β → Prop) (path tmp : κ)

/-- A file is created empty, or emptied where there is one. -/
inductive Step : State κ β → Event β → State κ β → Prop where
  | created {s : State κ β} {doc : List β} {file : ℕ} :
      s.writer = .idle → Doc doc → s.disk.link tmp = none → s.Free file →
      Step s (.created doc)
        { s with
          disk := ⟨Function.update s.disk.link tmp (some file), Function.update s.disk.bytes file []⟩
          writer := .writing file doc doc }
  | emptied {s : State κ β} {doc : List β} {file : ℕ} :
      s.writer = .idle → Doc doc → s.disk.link tmp = some file →
      Step s (.created doc)
        { s with
          disk := ⟨s.disk.link, Function.update s.disk.bytes file []⟩
          writer := .writing file doc doc }
  | wrote {s : State κ β} {file : ℕ} {doc chunk rest : List β} :
      s.writer = .writing file doc (chunk ++ rest) →
      Step s (.wrote chunk)
        { s with
          disk := ⟨s.disk.link, Function.update s.disk.bytes file (s.disk.bytes file ++ chunk)⟩
          writer := .writing file doc rest }
  | renamed {s : State κ β} {file : ℕ} {doc : List β} :
      s.writer = .writing file doc [] →
      Step s (.renamed doc)
        { s with
          disk := ⟨Function.update (Function.update s.disk.link path (s.disk.link tmp)) tmp none,
            s.disk.bytes⟩
          writer := .idle }
  | stopped {s : State κ β} : Step s .stopped { s with writer := .idle }
  | opened {s : State κ β} {r file : ℕ} :
      s.reader r = .absent → s.disk.link path = some file →
      Step s (.opened r) (s.setReader r (.reading file []))
  | read {s : State κ β} {r file : ℕ} {seen chunk : List β} :
      s.reader r = .reading file seen → seen ++ chunk <+: s.disk.bytes file →
      Step s (.read r chunk) (s.setReader r (.reading file (seen ++ chunk)))
  | closed {s : State κ β} {r file : ℕ} {seen : List β} :
      s.reader r = .reading file seen → seen = s.disk.bytes file →
      Step s (.closed r) (s.setReader r (.closed seen))

/-- What has happened since the disk was found as it was. -/
inductive Run (disk : Disk κ β) : List (Event β) → State κ β → Prop where
  | start : Run disk [] ⟨disk, .idle, fun _ => .absent⟩
  | step {es : List (Event β)} {e : Event β} {s s' : State κ β} :
      Run disk es s → Step Doc path tmp s e s' → Run disk (es ++ [e]) s'

end Steps

def Event.shows (doc : Option (List β)) : Event β → Option (List β)
  | .renamed new => some new
  | _ => doc

/-- The document that took the name last. -/
def shown (first : Option (List β)) (es : List (Event β)) : Option (List β) := es.foldl Event.shows first

@[simp] theorem shown_append (first : Option (List β)) (es : List (Event β)) (e : Event β) :
    shown first (es ++ [e]) = e.shows (shown first es) := by
  rw [shown, List.foldl_append]
  rfl

/-- Reader `r` opened the name while it showed `doc`. -/
def Saw (first : Option (List β)) (es : List (Event β)) (r : ℕ) (doc : List β) : Prop :=
  ∃ before after, es = before ++ .opened r :: after ∧ shown first before = some doc

theorem Saw.later {first : Option (List β)} {es : List (Event β)} {r : ℕ} {doc : List β} {e : Event β}
    (saw : Saw first es r doc) : Saw first (es ++ [e]) r doc := by
  obtain ⟨before, after, split, current⟩ := saw
  exact ⟨before, after ++ [e], by rw [split, List.append_assoc]; rfl, current⟩

/-- The name stands for a whole document, and nobody reads the file that is written. -/
structure Whole (path tmp : κ) (first : Option (List β)) (es : List (Event β)) (s : State κ β) :
    Prop where
  content : s.disk.content path = shown first es
  apart : ∀ file, s.disk.link tmp = some file → s.disk.link path ≠ some file
  unread : ∀ file r seen, s.disk.link tmp = some file → s.reader r ≠ .reading file seen
  writing : ∀ file doc rest, s.writer = .writing file doc rest →
    s.disk.link tmp = some file ∧ s.disk.bytes file ++ rest = doc
  reading : ∀ r file seen, s.reader r = .reading file seen → Saw first es r (s.disk.bytes file)
  closed : ∀ r seen, s.reader r = .closed seen → Saw first es r seen

section Steps

variable {Doc : List β → Prop} {path tmp : κ} {first : Option (List β)} {es : List (Event β)}
  {s s' : State κ β} {disk : Disk κ β}

theorem whole_start (apart : ∀ file, disk.link tmp = some file → disk.link path ≠ some file) :
    Whole path tmp (disk.content path) [] ⟨disk, .idle, fun _ => .absent⟩ where
  content := rfl
  apart := apart
  unread _ _ _ _ reading := nomatch reading
  writing _ _ _ writing := nomatch writing
  reading _ _ _ reading := nomatch reading
  closed _ _ closed := nomatch closed

/- Whatever is done to a file that neither the name nor a reader stands for. -/
theorem Whole.rewrite (whole : Whole path tmp first es s) {file : ℕ} {doc rest now : List β} {e : Event β}
    {link : κ → Option ℕ} (temporary : link tmp = some file) (named : link path = s.disk.link path)
    (elsewhere : s.disk.link path ≠ some file) (unread : ∀ r seen, s.reader r ≠ .reading file seen)
    (still : e.shows (shown first es) = shown first es) (all : now ++ rest = doc) :
    Whole path tmp first (es ++ [e])
      { s with
        disk := ⟨link, Function.update s.disk.bytes file now⟩
        writer := .writing file doc rest } where
  content := by
    rw [shown_append, still, ← whole.content]
    dsimp only [Disk.content]
    rw [named]
    cases here : s.disk.link path with
    | none => rfl
    | some other =>
      have differ : other ≠ file := fun same => elsewhere (same ▸ here)
      simp [differ]
  apart other is := by
    cases temporary.symm.trans is
    exact fun shared => elsewhere (named ▸ shared)
  unread other r seen is := by
    cases temporary.symm.trans is
    exact unread r seen
  writing _ _ _ writing := by
    cases writing
    exact ⟨temporary, by simpa using all⟩
  reading r other seen reading := by
    have differ : other ≠ file := fun same => unread r seen (same ▸ reading)
    dsimp only
    rw [Function.update_of_ne differ]
    exact (whole.reading r other seen reading).later
  closed r seen closed := (whole.closed r seen closed).later

theorem Whole.ended (whole : Whole path tmp first es s) :
    Whole path tmp first (es ++ [.stopped]) { s with writer := .idle } where
  content := by rw [shown_append]; exact whole.content
  apart := whole.apart
  unread := whole.unread
  writing _ _ _ writing := nomatch writing
  reading r file seen reading := (whole.reading r file seen reading).later
  closed r seen closed := (whole.closed r seen closed).later

/- A reader that goes on with the file it has, or begins with the one the name stands for. -/
theorem Whole.proceed (whole : Whole path tmp first es s) {r : ℕ} {stage : Reader β} {e : Event β}
    (still : e.shows (shown first es) = shown first es)
    (reading : ∀ file seen, stage = .reading file seen →
      s.disk.link tmp ≠ some file ∧ Saw first (es ++ [e]) r (s.disk.bytes file))
    (closed : ∀ seen, stage = .closed seen → Saw first (es ++ [e]) r seen) :
    Whole path tmp first (es ++ [e]) (s.setReader r stage) where
  content := by rw [shown_append, still]; exact whole.content
  apart := whole.apart
  unread file other seen temporary := by
    by_cases same : other = r
    · subst same
      simp only [State.setReader, Function.update_self]
      exact fun is => (reading file seen is).1 temporary
    · simp only [State.setReader, Function.update_of_ne same]
      exact whole.unread file other seen temporary
  writing := whole.writing
  reading other file seen is := by
    by_cases same : other = r
    · subst same
      simp only [State.setReader, Function.update_self] at is
      exact (reading file seen is).2
    · simp only [State.setReader, Function.update_of_ne same] at is
      exact (whole.reading other file seen is).later
  closed other seen is := by
    by_cases same : other = r
    · subst same
      simp only [State.setReader, Function.update_self] at is
      exact closed seen is
    · simp only [State.setReader, Function.update_of_ne same] at is
      exact (whole.closed other seen is).later

variable [DecidableEq κ]

theorem Whole.replace (whole : Whole path tmp first es s) (differ : path ≠ tmp) {file : ℕ} {doc : List β}
    (ready : s.writer = .writing file doc []) :
    Whole path tmp first (es ++ [.renamed doc])
      { s with
        disk := ⟨Function.update (Function.update s.disk.link path (s.disk.link tmp)) tmp none,
          s.disk.bytes⟩
        writer := .idle } := by
  obtain ⟨temporary, all⟩ := whole.writing file doc [] ready
  rw [List.append_nil] at all
  exact {
    content := by simp [Disk.content, differ, temporary, all, Event.shows]
    apart := by simp
    unread := by simp
    writing := by simp
    reading := fun r other seen reading => (whole.reading r other seen reading).later
    closed := fun r seen closed => (whole.closed r seen closed).later }

theorem step_whole {e : Event β} (differ : path ≠ tmp) (step : Step Doc path tmp s e s')
    (whole : Whole path tmp first es s) : Whole path tmp first (es ++ [e]) s' := by
  cases step with
  | created _ _ _ free =>
    exact whole.rewrite (by simp) (by simp [differ]) (free.unnamed path) free.closed rfl rfl
  | emptied _ _ temporary =>
    exact whole.rewrite temporary rfl (whole.apart _ temporary)
      (fun r seen => whole.unread _ r seen temporary) rfl rfl
  | wrote writing =>
    obtain ⟨temporary, all⟩ := whole.writing _ _ _ writing
    exact whole.rewrite temporary rfl (whole.apart _ temporary)
      (fun r seen => whole.unread _ r seen temporary) rfl (by rw [List.append_assoc]; exact all)
  | renamed ready => exact whole.replace differ ready
  | stopped => exact whole.ended
  | @opened r file absent named =>
    refine whole.proceed rfl (fun _ _ is => ?_) (fun _ is => nomatch is)
    cases is
    have current := whole.content
    rw [Disk.content, named, Option.map_some] at current
    exact ⟨fun temporary => whole.apart file temporary named, es, [], rfl, current.symm⟩
  | read reading _ =>
    refine whole.proceed rfl (fun _ _ is => ?_) (fun _ is => nomatch is)
    cases is
    exact ⟨fun temporary => whole.unread _ _ _ temporary reading, (whole.reading _ _ _ reading).later⟩
  | closed reading all =>
    refine whole.proceed rfl (fun _ _ is => nomatch is) (fun _ is => ?_)
    cases is
    rw [all]
    exact (whole.reading _ _ _ reading).later

/-- The name always stands for the document that took it last, and whoever has read to the end
has read the document that the name stood for when it was opened. -/
theorem run_whole (differ : path ≠ tmp)
    (apart : ∀ file, disk.link tmp = some file → disk.link path ≠ some file)
    (run : Run Doc path tmp disk es s) : Whole path tmp (disk.content path) es s := by
  induction run with
  | start => exact whole_start apart
  | step _ step ih => exact step_whole differ step ih

theorem run_documents (run : Run Doc path tmp disk es s) :
    (∀ file doc rest, s.writer = .writing file doc rest → Doc doc) ∧ ∀ doc, .renamed doc ∈ es →
      Doc doc := by
  induction run with
  | start => exact ⟨fun _ _ _ writing => (nomatch writing), by simp⟩
  | step _ step ih =>
    obtain ⟨written, renamed⟩ := ih
    cases step with
    | created _ good | emptied _ good =>
      refine ⟨fun _ _ _ writing => ?_, by simpa using renamed⟩
      cases writing
      exact good
    | wrote writing =>
      refine ⟨fun _ _ _ still => ?_, by simpa using renamed⟩
      cases still
      exact written _ _ _ writing
    | renamed ready =>
      refine ⟨fun _ _ _ writing => (nomatch writing), fun doc member => ?_⟩
      rcases List.mem_append.mp member with before | now
      · exact renamed doc before
      · cases List.mem_singleton.mp now
        exact written _ _ _ ready
    | stopped => exact ⟨fun _ _ _ writing => (nomatch writing), by simpa using renamed⟩
    | opened | read | closed => exact ⟨written, by simpa using renamed⟩

/- Whatever an earlier attempt has left behind. -/
theorem Run.published {doc : List β} (differ : path ≠ tmp)
    (apart : ∀ file, disk.link tmp = some file → disk.link path ≠ some file)
    (run : Run Doc path tmp disk es s)
    (idle : s.writer = .idle) (good : Doc doc) (space : ∃ file, s.Free file) :
    ∃ s', Run Doc path tmp disk (es ++ [.created doc] ++ [.wrote doc] ++ [.renamed doc]) s' ∧
      s'.writer = .idle ∧ s'.reader = s.reader ∧ s'.disk.content path = some doc := by
  obtain ⟨s₁, file, created, reader, writing⟩ : ∃ s₁ file, Step Doc path tmp s (.created doc) s₁ ∧
      s₁.reader = s.reader ∧ s₁.writer = .writing file doc (doc ++ []) := by
    rw [List.append_nil]
    cases there : s.disk.link tmp with
    | none =>
      obtain ⟨file, free⟩ := space
      exact ⟨_, file, .created idle good there free, rfl, rfl⟩
    | some file => exact ⟨_, file, .emptied idle good there, rfl, rfl⟩
  have done := ((run.step created).step (.wrote writing)).step (.renamed rfl)
  refine ⟨_, done, rfl, reader, ?_⟩
  rw [(run_whole differ apart done).content, shown_append]
  rfl

theorem shown_cases {doc : List β} (current : shown first es = some doc) :
    first = some doc ∨ .renamed doc ∈ es := by
  induction es using List.reverseRecOn with
  | nil => exact .inl current
  | append_singleton es e ih =>
    rw [shown_append] at current
    cases e with
    | renamed new =>
      cases current
      exact .inr (by simp)
    | _ => exact (ih current).imp_right (List.mem_append_left _)

end Steps

end Stallwatch.Publish
