import Stallwatch.Report.Pretty
import Stallwatch.Varlink.Interface

/-! The replies with a report beside the interface that is served: every one has a field that
is not declared, and only that one. -/
namespace Stallwatch.Varlink

open Json

/-- What both methods are declared to give. -/
def reported : Struct :=
  [("window_usec".toList, .int), ("stalls".toList, .array (.named "Stall".toList)),
    ("warnings".toList, .array (.named "Warning".toList))]

def declaredStall : Struct :=
  [("unit".toList, .string), ("cgroup".toList, .string), ("resource".toList, .string), ("type".toList, .string),
    ("delta_usec".toList, .int), ("pressure_pct".toList, .float), ("peak_pct".toList, .float)]

def declaredWarning : Struct :=
  [("source".toList, .string), ("severity".toList, .string), ("transient".toList, .bool),
    ("message".toList, .string)]

def declared : Interface where
  name := interface.toList
  types := [("Stall".toList, declaredStall), ("Warning".toList, declaredWarning)]
  methods := [("GetStalls".toList, [("window_ms".toList, .optional .int)], reported),
    ("GetHistory".toList, [("seconds".toList, .int)], reported)]
  errors := [("NoHistory".toList, [("seconds".toList, .int)]), ("NoPressureStallInformation".toList, [])]

set_option maxRecDepth 20000 in
/- The literal is taken apart before it is read. -/
theorem description_read : Interface.parse interfaceDescription.toList = some declared := by
  refine (congrArg Interface.parse (String.toList_ofList : (String.ofList _).toList = _)).trans ?_
  decide +kernel

/-- The parameters of the reply, as they are viewed, are what the description has the method give. -/
def ConformsAs (view : Json → Json) (f : Rounding) (method : String) (reply : List Char) : Prop :=
  ∃ i signature j params, Interface.parse interfaceDescription.toList = some i ∧
    i.methods.lookup method.toList = some signature ∧ Json.parse f reply = .ok j ∧
      j.get "parameters".toList = some params ∧ HasFields i.types signature.2 (view params)

abbrev Conforms : Rounding → String → List Char → Prop := ConformsAs id

section Records

variable {f : Rounding} {fields : List (String × List Char)}

theorem fields_decided (decided : FieldsDecided f fields) :
    (∃ entries, FieldsRead f fields entries) ∨ ∃ e ∈ fields, Refuses f e.2 := by
  induction fields with
  | nil => exact .inl ⟨[], .nil⟩
  | cons field fields ih =>
    obtain ⟨⟨plain, first⟩, others⟩ := List.forall_mem_cons.mp decided
    rcases first with ⟨j, read⟩ | refused
    · rcases ih others with ⟨entries, reads⟩ | ⟨e, member, refused⟩
      · exact .inl ⟨(field.1, j) :: entries, .cons ⟨plain, rfl, read⟩ reads⟩
      · exact .inr ⟨e, List.mem_cons_of_mem _ member, refused⟩
    · exact .inr ⟨field, List.mem_cons_self, refused⟩

theorem fieldsRead_names {entries : List (String × Json)} (reads : FieldsRead f fields entries) :
    entries.map Prod.fst = fields.map Prod.fst := by
  induction reads with
  | nil => rfl
  | cons first _ ih => rw [List.map_cons, List.map_cons, first.same, ih]

/- Where such a text is read at all, the value has the names of the fields. -/
theorem record_parsed (decided : FieldsDecided f fields) {j : Json} (parsed : parse f (record fields) = .ok j) :
    ∃ entries, FieldsRead f fields entries ∧ j = ofEntries entries := by
  rcases fields_decided decided with ⟨entries, reads⟩ | refused
  · exact ⟨entries, reads, Outcome.ok.inj (parsed.symm.trans (parse_reads (reads_record reads)))⟩
  · obtain ⟨e, failed⟩ := parse_refuses (record_refuses decided refused)
    rw [failed] at parsed
    contradiction

end Records

section Typed

variable {types : List (List Char × Struct)} {fields : Struct} {entries : List (String × Json)}

/-- Entries under the names of the fields, in their order, each of its type. -/
abbrev Typed (types : List (List Char × Struct)) : Struct → List (String × Json) → Prop :=
  List.Forall₂ fun field entry => field.1 = entry.1.toList ∧ HasType types field.2 entry.2

theorem typed_names (typed : Typed types fields entries) :
    fields.map Prod.fst = entries.map fun e => e.1.toList := by
  induction typed with
  | nil => rfl
  | cons first _ ih => rw [List.map_cons, List.map_cons, first.1, ih]

theorem typed_lookup (distinct : (entries.map Prod.fst).Nodup) (typed : Typed types fields entries) :
    ∀ field ∈ fields, ∀ j, entries.lookup (String.ofList field.1) = some j → HasType types field.2 j := by
  induction typed with
  | nil => nofun
  | @cons field entry fields entries first others ih =>
    obtain ⟨name, value⟩ := entry
    obtain ⟨named, holds⟩ := first
    rw [List.map_cons, List.nodup_cons] at distinct
    rw [List.forall_mem_cons, named, String.ofList_toList, List.lookup_cons_self]
    refine ⟨fun j here => Option.some.inj here ▸ holds, fun other member j found => ?_⟩
    have differs : (String.ofList other.1 == name) = false := by
      rw [beq_eq_false_iff_ne]
      rintro rfl
      have listed : other.1 ∈ entries.map fun e => e.1.toList := typed_names others ▸ List.mem_map_of_mem member
      obtain ⟨e, among, same⟩ := List.mem_map.mp listed
      exact distinct.1 (List.mem_map.mpr ⟨e, among, by rw [← same, String.ofList_toList]⟩)
    rw [List.lookup_cons, differs] at found
    exact ih distinct.2 other member j found

theorem hasFields_entries {m : List (List Char × Json)} (same : ∀ k, m.lookup k = entries.lookup (String.ofList k))
    (distinct : (entries.map Prod.fst).Nodup) (typed : Typed types fields entries) :
    HasFields types fields (.obj m) := by
  refine ⟨m, rfl, fun k => ?_, fun field member j found => ?_⟩
  · rw [same, List.lookup_isSome_iff, typed_names typed, List.mem_map]
    refine exists_congr fun e => and_congr_right fun _ => ?_
    rw [beq_iff_eq]
    exact ⟨fun named => by rw [← named, String.toList_ofList], fun named => by rw [← named, String.ofList_toList]⟩
  · exact typed_lookup distinct typed field member j (same field.1 ▸ found)

theorem lookup_entries (distinct : (entries.map Prod.fst).Nodup) (k : List Char) :
    (insertAll [] entries).lookup k = entries.lookup (String.ofList k) := by
  have got := get_ofEntries distinct (String.ofList k)
  rwa [String.toList_ofList] at got

theorem hasType_entries {name : List Char} (known : types.lookup name = some fields)
    (distinct : (entries.map Prod.fst).Nodup) (typed : Typed types fields entries) :
    HasType types (.named name) (ofEntries entries) := by
  obtain ⟨m, same, keys, values⟩ := hasFields_entries (lookup_entries distinct) distinct typed
  cases same
  exact .named known keys values

end Typed

/- Whatever the numbers are. -/
theorem stall_typed (f : Rounding) (s : Stall) :
    HasType declared.types (.named "Stall".toList) (ofEntries (s.entries f)) := by
  refine @hasType_entries _ declaredStall _ _ (by decide) (by simp [Stall.entries]) ?_
  exact .cons ⟨rfl, .string⟩ (.cons ⟨rfl, .string⟩ (.cons ⟨rfl, .string⟩ (.cons ⟨rfl, .string⟩
    (.cons ⟨rfl, .int⟩ (.cons ⟨rfl, .float⟩ (.cons ⟨rfl, .float⟩ .nil))))))

theorem warning_typed (w : Warning) :
    HasType declared.types (.named "Warning".toList) (ofEntries w.entries) := by
  refine @hasType_entries _ declaredWarning _ _ (by decide) (by simp [Warning.entries]) ?_
  exact .cons ⟨rfl, .string⟩ (.cons ⟨rfl, .string⟩ (.cons ⟨rfl, .bool⟩ (.cons ⟨rfl, .string⟩ .nil)))

section Replies

variable {f : Rounding} {r : Report}

theorem report_decided (f : Rounding) (r : Report) : Decided f r.toJsonCompact := by
  have shaped := shaped_decided r.shaped f
  rcases fields_decided shaped with ⟨entries, reads⟩ | refused
  · exact .inl ⟨_, reads_record reads⟩
  · exact .inr (record_refuses shaped refused)

/- What the parameters of a reply are, if it is read at all. -/
theorem params_read {j params : Json} (parsed : Json.parse f (replyReport r) = .ok j)
    (got : j.get "parameters".toList = some params) :
    ∃ entries, FieldsRead f r.fields entries ∧ params = ofEntries entries := by
  have outer : FieldsDecided f [("parameters", r.toJsonCompact)] := by
    simp only [FieldsDecided, List.forall_mem_singleton]
    exact ⟨rfl, report_decided f r⟩
  obtain ⟨entries, reads, rfl⟩ := record_parsed outer parsed
  have inner : FieldsDecided f r.fields := shaped_decided r.shaped f
  cases reads with
  | @cons _ entry _ _ read others =>
    cases others
    obtain ⟨name, j⟩ := entry
    cases read.same
    rw [get_ofEntries (by simp), List.lookup_cons_self] at got
    cases got
    exact record_parsed inner (parse_reads read.read)

theorem causes_present {j params : Json} (parsed : Json.parse f (replyReport r) = .ok j)
    (got : j.get "parameters".toList = some params) : (params.get "causes".toList).isSome = true := by
  obtain ⟨entries, reads, rfl⟩ := params_read parsed got
  have names : entries.map Prod.fst = ["window_usec", "stalls", "causes", "warnings"] := fieldsRead_names reads
  have listed : "causes" ∈ entries.map Prod.fst := by simp [names]
  rw [get_ofEntries (by simp [names]), List.lookup_isSome_iff]
  obtain ⟨e, member, same⟩ := List.mem_map.mp listed
  exact ⟨e, member, by simp [same]⟩

/- In any reply. -/
theorem not_conforms {method : String} {signature : Struct × Struct}
    (known : declared.methods.lookup method.toList = some signature) (gives : signature.2 = reported) :
    ¬Conforms f method (replyReport r) := by
  rintro ⟨i, found, j, params, served, looked, parsed, got, m, rfl, keys, _⟩
  cases Option.some.inj (served.symm.trans description_read)
  cases Option.some.inj (looked.symm.trans known)
  have undeclared := (keys "causes".toList).mp (causes_present parsed got)
  rw [gives] at undeclared
  exact absurd undeclared (by decide)

/-- The parameters without one of their fields. -/
def without (k : String) : Json → Json
  | .obj m => .obj (m.filter (·.1 ≠ k.toList))
  | j => j

theorem report_typed (f : Rounding) (r : Report) :
    HasFields declared.types reported (without "causes" (ofEntries (r.entries f))) := by
  have distinct : ((r.entries f).map Prod.fst).Nodup := by simp [Report.entries]
  refine @hasFields_entries _ _ [("window_usec", .num (F64.ofNat f r.windowUsec.toNat)),
    ("stalls", .arr (r.stalls.map fun s => ofEntries (s.entries f))),
    ("warnings", .arr (r.warnings.map fun w => ofEntries w.entries))] _ (fun k => ?_) (by simp) ?_
  · by_cases causes : k = "causes".toList
    · subst causes
      have gone : ((insertAll [] (r.entries f)).filter (·.1 ≠ "causes".toList)).lookup "causes".toList = none := by
        rw [List.lookup_eq_none_iff]
        intro e member
        have other := of_decide_eq_true (List.mem_filter.mp member).2
        simpa using Ne.symm other
      rw [gone]
      rfl
    · have miss : (String.ofList k == "causes") = false := by
        rw [beq_eq_false_iff_ne]
        intro same
        exact causes (by rw [← same, String.toList_ofList])
      rw [lookup_other causes, lookup_entries distinct, Report.entries]
      simp only [List.lookup_cons, miss]
  · refine .cons ⟨rfl, .int⟩ (.cons ⟨rfl, .array ?_⟩ (.cons ⟨rfl, .array ?_⟩ .nil))
    · simp only [List.forall_mem_map]
      exact fun s _ => stall_typed f s
    · simp only [List.forall_mem_map]
      exact fun w _ => warning_typed w

theorem conforms_without {method : String} {signature : Struct × Struct} (finite : r.finite = true)
    (known : declared.methods.lookup method.toList = some signature) (gives : signature.2 = reported) :
    ConformsAs (without "causes") f method (replyReport r) := by
  have fields : FieldsRead f [("parameters", r.toJsonCompact)] [("parameters", ofEntries (r.entries f))] :=
    .field rfl (r.reads_compact f finite) .nil
  refine ⟨declared, signature, _, ofEntries (r.entries f), description_read, known,
    parse_reads (reads_record fields), ?_, gives ▸ report_typed f r⟩
  rw [get_ofEntries (by simp)]
  exact List.lookup_cons_self

/-- No reply with a report has just the declared fields, because of the causes. Where its
numbers can be read, it has them but for the causes, and the elements are as declared. -/
theorem reply_differs (f : Rounding) (r : Report) :
    (¬Conforms f "GetStalls" (replyReport r) ∧ ¬Conforms f "GetHistory" (replyReport r)) ∧
      (r.finite = true → ConformsAs (without "causes") f "GetStalls" (replyReport r) ∧
        ConformsAs (without "causes") f "GetHistory" (replyReport r)) :=
  ⟨⟨not_conforms rfl rfl, not_conforms rfl rfl⟩,
    fun finite => ⟨conforms_without finite rfl rfl, conforms_without finite rfl rfl⟩⟩

end Replies

theorem reply_differs_varied : ConformsAs (without "causes") .exact "GetStalls" (replyReport Report.varied) ∧
    ConformsAs (without "causes") .exact "GetHistory" (replyReport Report.varied) :=
  (reply_differs .exact Report.varied).2 rfl

/-- A second in which nothing happened. -/
theorem not_reply_conforms :
    replyReport ⟨1000000, [], [], []⟩ = ("\x7b\"parameters\":\x7b\"window_usec\":1000000,\"stalls\":[]," ++
      "\"causes\":[],\"warnings\":[]\x7d\x7d").toList ∧
    ¬Conforms .exact "GetStalls" (replyReport ⟨1000000, [], [], []⟩) ∧
    ¬Conforms .exact "GetHistory" (replyReport ⟨1000000, [], [], []⟩) :=
  ⟨by decide +kernel, not_conforms rfl rfl, not_conforms rfl rfl⟩

end Stallwatch.Varlink
