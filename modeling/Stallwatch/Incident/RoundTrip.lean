import Stallwatch.Incident.Jsonl
import Stallwatch.Json.OneLine
import Stallwatch.Json.Refuses

/-! An incident comes back from its line as it was recorded: counts through a float, and
percentages at the places they were written with. -/
namespace Stallwatch

open Text Json

variable (f : Rounding)

/-- A count as it is read back. -/
def recordedCount (n : ℕ) : UInt64 := (F64.ofNat f n).asU64

def Stall.recorded (s : Stall) : Stall :=
  { s with
    deltaUsec := recordedCount f s.deltaUsec.toNat
    pressurePct := F64.recorded f 2 s.pressurePct
    peakPct := F64.recorded f 2 s.peakPct }

def Culprit.recorded (c : Culprit) : Culprit :=
  { c with
    blockedPct := F64.recorded f 1 c.blockedPct
    bytes := recordedCount f c.bytes.toNat }

def Incident.recorded (i : Incident) : Incident where
  atUnix := recordedCount f i.atUnix.toNat
  windowUsec := recordedCount f i.windowUsec.toNat
  wokeOn := []
  stalls := i.stalls.map (·.recorded f)
  warnings := i.warnings
  culprits := i.culprits.map (·.recorded f)
  causes := []

def Stall.finite (s : Stall) : Bool := s.pressurePct.isFinite && s.peakPct.isFinite

/-- Every percentage that is written is a number. -/
def Incident.finite (i : Incident) : Bool :=
  i.stalls.all (·.finite) && i.causes.all (·.pressurePct.isFinite) &&
    i.culprits.all (·.blockedPct.isFinite)

/- The splice is the record of all the fields: neither end of the report's own text has a
brace left to lose. -/
theorem Incident.toJsonl_eq (i : Incident) :
    i.toJsonl = record (i.fields ++ i.toReport.fields) := by
  obtain ⟨cs, inside⟩ : ∃ cs, join (i.toReport.fields.map member) = '"' :: (cs ++ [']']) := by
    simp only [Report.fields, List.map_cons, List.map_nil, join, member, bare, list,
      ← List.append_assoc, ← List.cons_append]
    exact ⟨_, rfl⟩
  have body : i.toReport.toJsonCompact = '{' :: '"' :: (cs ++ [']', '}']) := by
    rw [Report.toJsonCompact, record, inside]
    simp
  have inner : trimEndMatches (· = '}') (trimStartMatches (· = '{') i.toReport.toJsonCompact) =
      join (i.toReport.fields.map member) := by
    rw [body, inside]
    simp [trimStartMatches, trimEndMatches]
  have joined := join_append (member ("at_unix", decimal i.atUnix.toNat))
    (member ("window_usec", decimal i.windowUsec.toNat))
    (i.fields.tail.map member) (i.toReport.fields.tail.map member)
  have both : join ((i.fields ++ i.toReport.fields).map member) =
      join (i.fields.map member) ++ ',' :: join (i.toReport.fields.map member) := by
    rw [List.map_append]
    exact joined
  rw [toJsonl, inner, record, both, List.append_assoc]
  rfl

theorem recordedCount_exact {n : ℕ} (small : n < 2 ^ 53) : recordedCount f n = UInt64.ofNat n := by
  have bounded : min n 18446744073709551615 = n := by omega
  rw [recordedCount, F64.ofNat, f.round_nat small, F64.ofMagnitude_coe, F64.asU64]
  simp [bounded]

section
variable {f} {entries : List (String × Json)} (distinct : (entries.map Prod.fst).Nodup) (k : String)
include distinct

theorem num_ofEntries {n : UInt64} (entry : entries.lookup k = some (.num (F64.ofNat f n.toNat))) :
    num (ofEntries entries) k = recordedCount f n.toNat := by
  obtain ⟨q, hq⟩ := f.round_u64 n.toNat_lt
  have positive : (F64.ofNat f n.toNat).atLeast (.finite false 0) = true := by
    simp [F64.ofNat, hq, F64.atLeast, F64.place]
  have finite : (F64.ofNat f n.toNat).isFinite = true := by
    rw [F64.ofNat, hq]
    rfl
  rw [num, get_ofEntries distinct, entry]
  simp [asU64, positive, finite, recordedCount]

theorem txt_ofEntries {s : String} (entry : entries.lookup k = some (.str s.toList)) :
    txt (ofEntries entries) k = s := by
  rw [txt, get_ofEntries distinct, entry]
  simp [asStr]

theorem pct_ofEntries {x : F64} (entry : entries.lookup k = some (.num x)) :
    pct (ofEntries entries) k = x := by
  rw [pct, get_ofEntries distinct, entry]
  rfl

theorem each_ofEntries {α β : Type} {xs : List α} {write : α → Json} {rebuild : Json → β}
    (entry : entries.lookup k = some (.arr (xs.map write))) :
    each (ofEntries entries) k rebuild = xs.map fun x => rebuild (write x) := by
  rw [each, get_ofEntries distinct, entry]
  simp [asArray]

end

def Stall.entries (s : Stall) : List (String × Json) :=
  [("unit", .str s.unit.toList), ("cgroup", .str s.cgroup.toList),
    ("resource", .str s.resource.display.toList), ("type", .str s.kind.display.toList),
    ("delta_usec", .num (F64.ofNat f s.deltaUsec.toNat)),
    ("pressure_pct", .num (F64.recorded f 2 s.pressurePct)),
    ("peak_pct", .num (F64.recorded f 2 s.peakPct))]

theorem Stall.fields_read {s : Stall} (finite : s.finite = true) :
    FieldsRead f s.fields (s.entries f) := by
  rw [Stall.finite, Bool.and_eq_true] at finite
  apply FieldsRead.field rfl (reads_jsonStr f _)
  apply FieldsRead.field rfl (reads_jsonStr f _)
  apply FieldsRead.field rfl (reads_bare (by cases s.resource <;> rfl))
  apply FieldsRead.field rfl (reads_bare (by cases s.kind <;> rfl))
  apply FieldsRead.field rfl (reads_decimal f _)
  apply FieldsRead.field rfl (reads_format f 2 finite.1)
  exact .field rfl (reads_format f 2 finite.2) .nil

theorem Stall.reads {s : Stall} (finite : s.finite = true) :
    Reads f (record s.fields) (ofEntries (s.entries f)) :=
  reads_record (Stall.fields_read f finite)

theorem Stall.shaped (s : Stall) : ∀ e ∈ s.fields, Shaped e := by
  simp only [fields, List.forall_mem_cons]
  exact ⟨shaped_escaper rfl jsonStr_escaper _, shaped_escaper rfl jsonStr_escaper _,
    shaped_bare rfl (by cases s.resource <;> rfl), shaped_bare rfl (by cases s.kind <;> rfl),
    shaped_decimal rfl _, shaped_format rfl 2 _, shaped_format rfl 2 _, List.forall_mem_nil _⟩

theorem Stall.refuses {s : Stall} (odd : s.finite = false) : Refuses f (record s.fields) := by
  apply record_refuses (shaped_decided s.shaped f)
  rw [Stall.finite, Bool.and_eq_false_iff] at odd
  rcases odd with odd | odd
  · exact ⟨("pressure_pct", F64.format 2 s.pressurePct), by simp [fields], refuses_format f 2 odd⟩
  · exact ⟨("peak_pct", F64.format 2 s.peakPct), by simp [fields], refuses_format f 2 odd⟩

theorem Stall.decided (s : Stall) : Decided f (record s.fields) := by
  cases finite : s.finite with
  | true => exact .inl ⟨_, Stall.reads f finite⟩
  | false => exact .inr (Stall.refuses f finite)

theorem resourceOf_display (r : Resource) : resourceOf r.display = r := by cases r <;> rfl

theorem kind_display (k : PsiKind) : (if k.display = "some" then PsiKind.some else .full) = k := by
  cases k <;> rfl

theorem severityOf_display (s : Severity) : severityOf s.display = s := by cases s <;> rfl

theorem roleOf_asStr (r : Role) : roleOf r.asStr = r := by cases r <;> rfl

theorem parseStall_entries (s : Stall) : parseStall (ofEntries (s.entries f)) = s.recorded f := by
  have distinct : ((s.entries f).map Prod.fst).Nodup := by simp [Stall.entries]
  rw [parseStall, txt_ofEntries distinct "unit" rfl, txt_ofEntries distinct "cgroup" rfl,
    txt_ofEntries distinct "resource" rfl, txt_ofEntries distinct "type" rfl,
    pct_ofEntries distinct "pressure_pct" rfl, pct_ofEntries distinct "peak_pct" rfl,
    num_ofEntries distinct "delta_usec" rfl, resourceOf_display, kind_display]
  rfl

def Warning.entries (w : Warning) : List (String × Json) :=
  [("source", .str w.source.toList), ("severity", .str w.severity.display.toList),
    ("transient", .bool w.transient), ("message", .str w.message.toList)]

theorem Warning.fields_read (w : Warning) : FieldsRead f w.fields w.entries := by
  apply FieldsRead.field rfl (reads_jsonStr f _)
  apply FieldsRead.field rfl (reads_bare (by cases w.severity <;> rfl))
  apply FieldsRead.field rfl (reads_bool _)
  exact .field rfl (reads_jsonStr f _) .nil

theorem Warning.reads (w : Warning) : Reads f (record w.fields) (ofEntries w.entries) :=
  reads_record (w.fields_read f)

theorem Warning.shaped (w : Warning) : ∀ e ∈ w.fields, Shaped e := by
  simp only [fields, List.forall_mem_cons]
  exact ⟨shaped_escaper rfl jsonStr_escaper _, shaped_bare rfl (by cases w.severity <;> rfl),
    shaped_boolText rfl _, shaped_escaper rfl jsonStr_escaper _, List.forall_mem_nil _⟩

theorem Warning.decided (w : Warning) : Decided f (record w.fields) := .inl ⟨_, Warning.reads f w⟩

theorem parseWarning_entries (w : Warning) : parseWarning (ofEntries w.entries) = w := by
  have distinct : (w.entries.map Prod.fst).Nodup := by simp [Warning.entries]
  have transient : (ofEntries w.entries).get "transient".toList = some (.bool w.transient) :=
    get_ofEntries distinct "transient"
  rw [parseWarning, txt_ofEntries distinct "source" rfl, txt_ofEntries distinct "severity" rfl,
    txt_ofEntries distinct "message" rfl, transient, severityOf_display]
  rfl

def Cause.entries (c : Cause) : List (String × Json) :=
  [("unit", .str c.unit.toList), ("cgroup", .str c.cgroup.toList),
    ("read_bytes", .num (F64.ofNat f c.readBytes.toNat)),
    ("write_bytes", .num (F64.ofNat f c.writeBytes.toNat)),
    ("discard_bytes", .num (F64.ofNat f c.discardBytes.toNat)),
    ("pressure_pct", .num (F64.recorded f 2 c.pressurePct)), ("role", .str c.role.asStr.toList)]

theorem Cause.fields_read {c : Cause} (finite : c.pressurePct.isFinite = true) :
    FieldsRead f c.fields (c.entries f) := by
  apply FieldsRead.field rfl (reads_jsonStr f _)
  apply FieldsRead.field rfl (reads_jsonStr f _)
  apply FieldsRead.field rfl (reads_decimal f _)
  apply FieldsRead.field rfl (reads_decimal f _)
  apply FieldsRead.field rfl (reads_decimal f _)
  apply FieldsRead.field rfl (reads_format f 2 finite)
  exact .field rfl (reads_bare (by cases c.role <;> rfl)) .nil

theorem Cause.reads {c : Cause} (finite : c.pressurePct.isFinite = true) :
    Reads f (record c.fields) (ofEntries (c.entries f)) :=
  reads_record (Cause.fields_read f finite)

theorem Cause.shaped (c : Cause) : ∀ e ∈ c.fields, Shaped e := by
  simp only [fields, List.forall_mem_cons]
  exact ⟨shaped_escaper rfl jsonStr_escaper _, shaped_escaper rfl jsonStr_escaper _,
    shaped_decimal rfl _, shaped_decimal rfl _, shaped_decimal rfl _, shaped_format rfl 2 _,
    shaped_bare rfl (by cases c.role <;> rfl), List.forall_mem_nil _⟩

theorem Cause.refuses {c : Cause} (odd : c.pressurePct.isFinite = false) :
    Refuses f (record c.fields) :=
  record_refuses (shaped_decided c.shaped f)
    ⟨("pressure_pct", F64.format 2 c.pressurePct), by simp [fields], refuses_format f 2 odd⟩

theorem Cause.decided (c : Cause) : Decided f (record c.fields) := by
  cases finite : c.pressurePct.isFinite with
  | true => exact .inl ⟨_, Cause.reads f finite⟩
  | false => exact .inr (Cause.refuses f finite)

def Culprit.entries (c : Culprit) : List (String × Json) :=
  [("pid", .num (F64.ofNat f c.pid.toNat)), ("comm", .str c.comm.toList),
    ("blocked_pct", .num (F64.recorded f 1 c.blockedPct)),
    ("bytes", .num (F64.ofNat f c.bytes.toNat)), ("role", .str c.role.asStr.toList)]

theorem Culprit.reads {c : Culprit} (finite : c.blockedPct.isFinite = true) :
    Reads f (record c.fields) (ofEntries (c.entries f)) := by
  apply reads_record
  apply FieldsRead.field rfl (reads_decimal f _)
  apply FieldsRead.field rfl (reads_jstr f _)
  apply FieldsRead.field rfl (reads_format f 1 finite)
  apply FieldsRead.field rfl (reads_decimal f _)
  exact .field rfl (reads_bare (by cases c.role <;> rfl)) .nil

theorem Culprit.shaped (c : Culprit) : ∀ e ∈ c.fields, Shaped e := by
  simp only [fields, List.forall_mem_cons]
  exact ⟨shaped_decimal rfl _, shaped_escaper rfl jstr_escaper _, shaped_format rfl 1 _,
    shaped_decimal rfl _, shaped_bare rfl (by cases c.role <;> rfl), List.forall_mem_nil _⟩

theorem Culprit.refuses {c : Culprit} (odd : c.blockedPct.isFinite = false) :
    Refuses f (record c.fields) :=
  record_refuses (shaped_decided c.shaped f)
    ⟨("blocked_pct", F64.format 1 c.blockedPct), by simp [fields], refuses_format f 1 odd⟩

theorem Culprit.decided (c : Culprit) : Decided f (record c.fields) := by
  cases finite : c.blockedPct.isFinite with
  | true => exact .inl ⟨_, Culprit.reads f finite⟩
  | false => exact .inr (Culprit.refuses f finite)

theorem parseCulprit_entries (c : Culprit) :
    parseCulprit (ofEntries (c.entries f)) = c.recorded f := by
  have distinct : ((c.entries f).map Prod.fst).Nodup := by simp [Culprit.entries]
  have small := c.pid.toNat_lt
  have pid : num (ofEntries (c.entries f)) "pid" = c.pid.toUInt64 := by
    have read : num (ofEntries (c.entries f)) "pid" = recordedCount f c.pid.toUInt64.toNat :=
      num_ofEntries distinct "pid" rfl
    rw [read, recordedCount_exact f (by rw [UInt32.toNat_toUInt64]; omega), UInt64.ofNat_toNat]
  rw [parseCulprit, pid, txt_ofEntries distinct "comm" rfl, txt_ofEntries distinct "role" rfl,
    pct_ofEntries distinct "blocked_pct" rfl, num_ofEntries distinct "bytes" rfl, roleOf_asStr,
    UInt32.toUInt32_toUInt64]
  rfl

theorem Report.shaped (r : Report) : ∀ e ∈ r.fields, Shaped e := by
  simp only [fields, List.forall_mem_cons]
  exact ⟨shaped_decimal rfl _,
    shaped_map rfl (fun s : Stall => shaped_record s.shaped) Stall.decided _,
    shaped_map rfl (fun c : Cause => shaped_record c.shaped) Cause.decided _,
    shaped_map rfl (fun w : Warning => shaped_record w.shaped) Warning.decided _, List.forall_mem_nil _⟩

namespace Incident

def entries (i : Incident) : List (String × Json) :=
  [("at_unix", .num (F64.ofNat f i.atUnix.toNat)),
    ("woke_on", .arr (i.wokeOn.map fun w => .str w.toList)),
    ("culprits", .arr (i.culprits.map fun c => ofEntries (c.entries f))),
    ("window_usec", .num (F64.ofNat f i.windowUsec.toNat)),
    ("stalls", .arr (i.stalls.map fun s => ofEntries (s.entries f))),
    ("causes", .arr (i.causes.map fun c => ofEntries (c.entries f))),
    ("warnings", .arr (i.warnings.map fun w => ofEntries w.entries))]

theorem reads {i : Incident} (finite : i.finite = true) :
    Reads f i.toJsonl (ofEntries (i.entries f)) := by
  simp only [Incident.finite, Bool.and_eq_true, List.all_eq_true] at finite
  obtain ⟨⟨stalls, causes⟩, culprits⟩ := finite
  rw [toJsonl_eq]
  apply reads_record
  apply FieldsRead.field rfl (reads_decimal f _)
  apply FieldsRead.field rfl (reads_map fun w _ => reads_jstr f w.toList)
  apply FieldsRead.field rfl (reads_map fun c member => Culprit.reads f (culprits c member))
  apply FieldsRead.field rfl (reads_decimal f _)
  apply FieldsRead.field rfl (reads_map fun s member => Stall.reads f (stalls s member))
  apply FieldsRead.field rfl (reads_map fun c member => Cause.reads f (causes c member))
  exact .field rfl (reads_map fun w _ => Warning.reads f w) .nil

theorem rebuild_entries (i : Incident) : rebuild (ofEntries (i.entries f)) = i.recorded f := by
  have distinct : ((i.entries f).map Prod.fst).Nodup := by simp [entries]
  rw [rebuild, num_ofEntries distinct "at_unix" rfl, num_ofEntries distinct "window_usec" rfl,
    each_ofEntries distinct "stalls" rfl, each_ofEntries distinct "warnings" rfl,
    each_ofEntries distinct "culprits" rfl]
  simp only [parseStall_entries, parseWarning_entries, parseCulprit_entries, List.map_id']
  rfl

theorem parseIncident_toJsonl {i : Incident} (finite : i.finite = true) :
    parseIncident f i.toJsonl = .ok (some (i.recorded f)) := by
  rw [parseIncident, parse_reads (reads f finite)]
  simp only [rebuild_entries]

theorem fields_shaped (i : Incident) : ∀ e ∈ i.fields ++ i.toReport.fields, Shaped e := by
  have word : ∀ (f : Rounding) (w : String), Decided f (jstr w.toList) := fun f w =>
    .inl ⟨_, reads_jstr f w.toList⟩
  rw [List.forall_mem_append]
  refine ⟨?_, i.toReport.shaped⟩
  simp only [fields, List.forall_mem_cons]
  exact ⟨shaped_decimal rfl _, shaped_map rfl (fun w : String => jstr_escaper.printed w.toList) word _,
    shaped_map rfl (fun c : Culprit => shaped_record c.shaped) Culprit.decided _, List.forall_mem_nil _⟩

theorem refuses {i : Incident} (odd : i.finite = false) : Refuses f i.toJsonl := by
  rw [toJsonl_eq]
  apply record_refuses (shaped_decided i.fields_shaped f)
  simp only [Incident.finite, Bool.and_eq_false_iff] at odd
  rcases odd with (odd | odd) | odd
  · exact ⟨("stalls", list (i.stalls.map (record ·.fields))), by simp [Report.fields, toReport],
      map_refuses (Stall.decided f) (fun _ => Stall.refuses f) odd⟩
  · exact ⟨("causes", list (i.causes.map (record ·.fields))), by simp [Report.fields, toReport],
      map_refuses (Cause.decided f) (fun _ => Cause.refuses f) odd⟩
  · exact ⟨("culprits", list (i.culprits.map (record ·.fields))), by simp [fields],
      map_refuses (Culprit.decided f) (fun _ => Culprit.refuses f) odd⟩

/-- Without a number in the place of every percentage the line is no record. -/
theorem parseIncident_odd {i : Incident} (odd : i.finite = false) :
    parseIncident f i.toJsonl = .ok none := by
  obtain ⟨e, failed⟩ := parse_refuses (refuses f odd)
  rw [parseIncident, failed]

/- No string and no number brings a control character. -/
theorem toJsonl_printed (i : Incident) : Printed i.toJsonl := by
  rw [toJsonl_eq]
  exact shaped_record i.fields_shaped

theorem toJsonl_oneLine (i : Incident) : OneLine i.toJsonl := i.toJsonl_printed.oneLine

theorem toJsonl_last (i : Incident) : i.toJsonl.getLast? = some '}' := by
  rw [toJsonl_eq, record, ← List.cons_append, List.getLast?_concat]

/-- Every count is exact as a float. -/
structure Exact (i : Incident) : Prop where
  atUnix : i.atUnix.toNat < 2 ^ 53
  windowUsec : i.windowUsec.toNat < 2 ^ 53
  deltaUsec : ∀ s ∈ i.stalls, s.deltaUsec.toNat < 2 ^ 53
  bytes : ∀ c ∈ i.culprits, c.bytes.toNat < 2 ^ 53

theorem round_trip {i : Incident} (exact : i.Exact) (finite : i.finite = true) :
    '\n' ∉ i.toJsonl ∧ ∃ back, parseIncident f i.toJsonl = .ok (some back) ∧
      back.atUnix = i.atUnix ∧ back.windowUsec = i.windowUsec ∧
      back.stalls = i.stalls.map (fun s => { s with
        pressurePct := F64.recorded f 2 s.pressurePct, peakPct := F64.recorded f 2 s.peakPct }) ∧
      back.warnings = i.warnings ∧
      back.culprits = i.culprits.map (fun c => { c with
        blockedPct := F64.recorded f 1 c.blockedPct }) := by
  have count : ∀ {n : UInt64}, n.toNat < 2 ^ 53 → recordedCount f n.toNat = n := by
    intro n small
    rw [recordedCount_exact f small, UInt64.ofNat_toNat]
  refine ⟨i.toJsonl_oneLine, i.recorded f, parseIncident_toJsonl f finite, count exact.atUnix,
    count exact.windowUsec, ?_, rfl, ?_⟩
  · apply List.map_congr_left
    intro s member
    rw [Stall.recorded, count (exact.deltaUsec s member)]
  · apply List.map_congr_left
    intro c member
    rw [Culprit.recorded, count (exact.bytes c member)]

/-- One of everything, with names that need every kind of escape. -/
def mixed : Incident where
  atUnix := 1700000000
  windowUsec := 500000
  wokeOn := ["io", "\x7d\x7b"]
  stalls := [⟨"a\"b\\\n.service", "/é\t", .memory, .some, 12345,
      .div .exact (.whole 201) (.whole 16), .finite true 1⟩,
    ⟨"", "/", .io, .full, 0, .whole 0, .whole 0⟩]
  warnings := [⟨"thermal", .critical, true, "Throttled.\r\n\u2028"⟩, ⟨"btrfs", .note, false, ""⟩]
  culprits := [⟨4294967295, "dd\x01", .div .exact (.whole 1) (.whole 3), 9007199254740991, .victim⟩]
  causes := [⟨"u", "/u", 1, 2, 3, .whole 50, .cause⟩]

theorem round_trip_mixed : '\n' ∉ mixed.toJsonl ∧
    ∃ back, parseIncident .exact mixed.toJsonl = .ok (some back) ∧
      back.atUnix = mixed.atUnix ∧ back.windowUsec = mixed.windowUsec ∧
      back.stalls = mixed.stalls.map (fun s => { s with
        pressurePct := F64.recorded .exact 2 s.pressurePct
        peakPct := F64.recorded .exact 2 s.peakPct }) ∧
      back.warnings = mixed.warnings ∧
      back.culprits = mixed.culprits.map (fun c => { c with
        blockedPct := F64.recorded .exact 1 c.blockedPct }) :=
  round_trip .exact ⟨by decide, by decide, by decide, by decide⟩ rfl

end Incident

end Stallwatch
