import Stallwatch.Incident.RoundTrip

/-! The indented JSON of a report. The reader takes it and the compact line as one value. -/
namespace Stallwatch

open Text Json

namespace Json

def spacedMember (field : String × List Char) : List Char := bare field.1 ++ ':' :: ' ' :: field.2

def spacedRecord (fields : List (String × List Char)) : List Char :=
  '{' :: ([',', ' '].intercalate (fields.map spacedMember) ++ ['}'])

/-- One entry a line. The comma depends on the index. -/
def rows (texts : List (List Char)) : List Char :=
  texts.zipIdx.flatMap fun e =>
    [' ', ' ', ' ', ' '] ++ (e.1 ++ ((if e.2 + 1 = texts.length then [] else [',']) ++ ['\n']))

/-- A named list, from its indentation to its bracket. -/
def listed (name : String) (texts : List (List Char)) : List Char :=
  [' ', ' '] ++ (bare name ++ ([':', ' ', '[', '\n'] ++ (rows texts ++ [' ', ' ', ']'])))

end Json

def Stall.toJson (s : Stall) : List Char :=
  spacedRecord [("unit", jsonStr s.unit.toList), ("cgroup", jsonStr s.cgroup.toList),
    ("resource", bare s.resource.display), ("type", bare s.kind.display),
    ("delta_usec", decimal s.deltaUsec.toNat), ("pressure_pct", F64.format 2 s.pressurePct),
    ("peak_pct", F64.format 2 s.peakPct)]

def Cause.toJson (c : Cause) : List Char :=
  spacedRecord [("unit", jsonStr c.unit.toList), ("cgroup", jsonStr c.cgroup.toList),
    ("read_bytes", decimal c.readBytes.toNat), ("write_bytes", decimal c.writeBytes.toNat),
    ("discard_bytes", decimal c.discardBytes.toNat), ("pressure_pct", F64.format 2 c.pressurePct),
    ("role", bare c.role.asStr)]

def Warning.toJson (w : Warning) : List Char :=
  spacedRecord [("source", jsonStr w.source.toList), ("severity", bare w.severity.display),
    ("transient", boolText w.transient), ("message", jsonStr w.message.toList)]

namespace Report

def toJson (r : Report) : List Char :=
  ['{', '\n', ' ', ' '] ++ (bare "window_usec" ++ ([':', ' '] ++ (decimal r.windowUsec.toNat ++
    ([',', '\n'] ++ (listed "stalls" (r.stalls.map Stall.toJson) ++
      ([',', '\n'] ++ (listed "causes" (r.causes.map Cause.toJson) ++
        ([',', '\n'] ++ (listed "warnings" (r.warnings.map Warning.toJson) ++ ['\n', '}'])))))))))

end Report

namespace Json

theorem join_front (c : Char) (t : List Char) (ts : List (List Char)) :
    join ((c :: t) :: ts) = c :: join (t :: ts) := by
  cases ts <;> rfl

theorem intercalate_join (t : List Char) (ts : List (List Char)) :
    [',', ' '].intercalate (t :: ts) = join (t :: ts.map (' ' :: ·)) := by
  induction ts generalizing t with
  | nil => simp [join]
  | cons u ts ih =>
    rw [List.intercalate_cons_cons, ih, List.map_cons, join_concat t (List.cons_ne_nil _ _), join_front]
    simp

theorem MemberRead.indent {f : Rounding} {text : List Char} {e : List Char × Json} {w : List Char}
    (blank : Blank w) (read : MemberRead f text e) : MemberRead f (w ++ text) e := by
  obtain ⟨v, k, w', t, before, after, rfl, quotes, padded⟩ := read
  exact ⟨w ++ v, k, w', t, by rw [Blank, List.all_append, blank, before]; rfl, after, by simp, quotes,
    padded⟩

theorem FieldRead.spaced {f : Rounding} {field : String × List Char} {entry : String × Json}
    (read : FieldRead f field entry) :
    MemberRead f (spacedMember field) (entry.1.toList, entry.2) := by
  have quotes : Quotes (bare field.1) entry.1.toList := by
    rw [read.same]
    exact bare_quotes read.plain
  exact ⟨[], _, [], ' ' :: field.2, rfl, rfl, rfl, quotes, [' '], field.2, [], rfl, rfl, by simp,
    read.read⟩

theorem reads_spaced {f : Rounding} {fields : List (String × List Char)}
    {entries : List (String × Json)} (reads : FieldsRead f fields entries) :
    Reads f (spacedRecord fields) (ofEntries entries) := by
  cases reads with
  | nil => exact reads_emptyObject rfl
  | @cons field entry fields entries first others =>
    have same : spacedRecord (field :: fields) =
        braced (spacedMember field :: (fields.map spacedMember).map (' ' :: ·)) := by
      rw [spacedRecord, List.map_cons, intercalate_join, braced]
    rw [same, ← ofMembers_entries, List.map_map]
    refine reads_braced (List.cons_ne_nil _ _) (.cons first.spaced ?_)
    rw [List.forall₂_map_left_iff, List.forall₂_map_right_iff]
    exact others.imp fun _ _ read => read.spaced.indent (w := [' ']) rfl

/-- The same lines as texts between commas, with the line breaks and the last indentation. -/
def laid : List (List Char) → List (List Char)
  | [] => []
  | [t] => [['\n', ' ', ' ', ' ', ' '] ++ (t ++ ['\n', ' ', ' '])]
  | t :: ts => (['\n', ' ', ' ', ' ', ' '] ++ (t ++ [])) :: laid ts

theorem laid_cons (t u : List Char) (ts : List (List Char)) :
    laid (t :: u :: ts) = (['\n', ' ', ' ', ' ', ' '] ++ (t ++ [])) :: laid (u :: ts) :=
  rfl

theorem laid_ne_nil (t : List Char) (ts : List (List Char)) : laid (t :: ts) ≠ [] := by
  cases ts <;> exact List.cons_ne_nil _ _

/- The index reaches the length at the last line. -/
theorem zipIdx_laid (t : List Char) (ts : List (List Char)) (k n : ℕ) (last : k + ts.length + 1 = n) :
    '\n' :: (((t :: ts).zipIdx k).flatMap (fun e => [' ', ' ', ' ', ' '] ++ (e.1 ++
      ((if e.2 + 1 = n then [] else [',']) ++ ['\n']))) ++ [' ', ' ']) = join (laid (t :: ts)) := by
  induction ts generalizing t k with
  | nil =>
    have here : k + 1 = n := last
    simp [here, laid, join]
  | cons u ts ih =>
    rw [List.length_cons] at last
    have before : k + 1 ≠ n := by omega
    have others := ih u (k + 1) (by omega)
    rw [laid_cons, join_concat _ (laid_ne_nil u ts), ← others, List.zipIdx_cons, List.flatMap_cons]
    simp [before]

theorem rows_laid (t : List Char) (ts : List (List Char)) :
    '\n' :: (rows (t :: ts) ++ [' ', ' ']) = join (laid (t :: ts)) :=
  zipIdx_laid t ts 0 _ (by simp)

theorem laid_padded {f : Rounding} {texts : List (List Char)} {js : List Json}
    (reads : List.Forall₂ (Reads f) texts js) : List.Forall₂ (Padded f) (laid texts) js := by
  induction reads with
  | nil => exact .nil
  | cons first others ih =>
    cases others with
    | nil => exact .cons ⟨_, _, _, rfl, rfl, rfl, first⟩ .nil
    | cons => exact .cons ⟨_, _, _, rfl, rfl, rfl, first⟩ ih

theorem reads_rows {f : Rounding} {texts : List (List Char)} {js : List Json}
    (reads : List.Forall₂ (Reads f) texts js) :
    Reads f ('[' :: '\n' :: (rows texts ++ [' ', ' ', ']'])) (arr js) := by
  cases texts with
  | nil =>
    cases reads
    exact reads_emptyArray (w := ['\n', ' ', ' ']) rfl
  | cons t ts =>
    have same : '[' :: '\n' :: (rows (t :: ts) ++ [' ', ' ', ']']) = list (laid (t :: ts)) := by
      rw [list, ← rows_laid]
      simp
    rw [same]
    exact reads_padded (laid_ne_nil t ts) (laid_padded reads)

/- The list reads as a member of what is around it. -/
theorem listed_read {f : Rounding} {name : String} (plain : jstr name.toList = bare name)
    {texts : List (List Char)} {js : List Json} (reads : List.Forall₂ (Reads f) texts js) :
    MemberRead f (listed name texts) (name.toList, arr js) :=
  ⟨[' ', ' '], _, [], _, rfl, rfl, rfl, bare_quotes plain, [' '], _, [], rfl, rfl,
    (congrArg _ (List.append_nil _)).symm, reads_rows reads⟩

theorem MemberRead.outdent {f : Rounding} {text : List Char} {e : List Char × Json} {w : List Char}
    (blank : Blank w) (read : MemberRead f text e) : MemberRead f (text ++ w) e := by
  obtain ⟨v, k, w', t, before, after, rfl, quotes, u, core, u', front, back, rfl, value⟩ := read
  refine ⟨v, k, w', u ++ (core ++ (u' ++ w)), before, after, by simp, quotes, u, core, u' ++ w, front,
    ?_, rfl, value⟩
  rw [Blank, List.all_append, blank, back]
  rfl

end Json

namespace Report

variable (f : Rounding)

/-- Every percentage of the report is a number. -/
def finite (r : Report) : Bool := r.stalls.all (·.finite) && r.causes.all (·.pressurePct.isFinite)

/-- The value both renderers write. -/
def entries (r : Report) : List (String × Json) :=
  [("window_usec", .num (F64.ofNat f r.windowUsec.toNat)),
    ("stalls", .arr (r.stalls.map fun s => ofEntries (s.entries f))),
    ("causes", .arr (r.causes.map fun c => ofEntries (c.entries f))),
    ("warnings", .arr (r.warnings.map fun w => ofEntries w.entries))]

theorem reads_compact {r : Report} (finite : r.finite = true) :
    Reads f r.toJsonCompact (ofEntries (r.entries f)) := by
  simp only [Report.finite, Bool.and_eq_true, List.all_eq_true] at finite
  apply reads_record
  apply FieldsRead.field rfl (reads_decimal f _)
  apply FieldsRead.field rfl (reads_map fun s member => s.reads f (finite.1 s member))
  apply FieldsRead.field rfl (reads_map fun c member => c.reads f (finite.2 c member))
  exact .field rfl (reads_map fun w _ => w.reads f) .nil

theorem toJson_eq (r : Report) : r.toJson = braced
    [['\n', ' ', ' '] ++ spacedMember ("window_usec", decimal r.windowUsec.toNat),
      ['\n'] ++ listed "stalls" (r.stalls.map Stall.toJson),
      ['\n'] ++ listed "causes" (r.causes.map Cause.toJson),
      ['\n'] ++ listed "warnings" (r.warnings.map Warning.toJson) ++ ['\n']] := by
  simp [toJson, braced, join, spacedMember]

theorem reads_pretty {r : Report} (finite : r.finite = true) :
    Reads f r.toJson (ofEntries (r.entries f)) := by
  simp only [Report.finite, Bool.and_eq_true, List.all_eq_true] at finite
  have plain : jstr "window_usec".toList = bare "window_usec" := rfl
  have window : FieldRead f ("window_usec", decimal r.windowUsec.toNat)
      ("window_usec", .num (F64.ofNat f r.windowUsec.toNat)) := ⟨plain, rfl, reads_decimal f _⟩
  have stalls : MemberRead f (listed "stalls" (r.stalls.map Stall.toJson))
      ("stalls".toList, .arr (r.stalls.map fun s => ofEntries (s.entries f))) :=
    listed_read rfl (reads_each fun s member => reads_spaced (s.fields_read f (finite.1 s member)))
  have causes : MemberRead f (listed "causes" (r.causes.map Cause.toJson))
      ("causes".toList, .arr (r.causes.map fun c => ofEntries (c.entries f))) :=
    listed_read rfl (reads_each fun c member => reads_spaced (c.fields_read f (finite.2 c member)))
  have warnings : MemberRead f (listed "warnings" (r.warnings.map Warning.toJson))
      ("warnings".toList, .arr (r.warnings.map fun w => ofEntries w.entries)) :=
    listed_read rfl (reads_each fun w _ => reads_spaced (w.fields_read f))
  rw [toJson_eq, ← ofMembers_entries]
  refine reads_braced (List.cons_ne_nil _ _) ?_
  apply List.Forall₂.cons (window.spaced.indent rfl)
  apply List.Forall₂.cons (stalls.indent rfl)
  apply List.Forall₂.cons (causes.indent rfl)
  exact .cons ((warnings.indent rfl).outdent rfl) .nil

theorem toJsonCompact_printed (r : Report) : Printed r.toJsonCompact := shaped_record r.shaped

/-- Both renderers write the same value, and the compact one writes it on one line. -/
theorem one_schema {r : Report} (finite : r.finite = true) :
    parse f r.toJson = .ok (ofEntries (r.entries f)) ∧
      parse f r.toJsonCompact = .ok (ofEntries (r.entries f)) ∧ '\n' ∉ r.toJsonCompact :=
  ⟨parse_reads (reads_pretty f finite), parse_reads (reads_compact f finite),
    r.toJsonCompact_printed.oneLine⟩

/-- Two stalls with names to escape, no cause, and one warning. -/
def varied : Report where
  windowUsec := 500000
  stalls := [⟨"a\"b\\\n.service", "/é\t", .memory, .some, 12345,
      .div .exact (.whole 201) (.whole 16), .finite true 1⟩,
    ⟨"", "/", .io, .full, 0, .whole 0, .whole 0⟩]
  causes := []
  warnings := [⟨"thermal", .critical, true, "Throttled.\r\n\u2028"⟩]

theorem one_schema_varied :
    parse .exact varied.toJson = .ok (ofEntries (varied.entries .exact)) ∧
      parse .exact varied.toJsonCompact = .ok (ofEntries (varied.entries .exact)) ∧
      '\n' ∉ varied.toJsonCompact :=
  one_schema .exact rfl

end Report

end Stallwatch
