import Mathlib.Data.List.DropRight
import Mathlib.Data.List.Nodup
import Stallwatch.Json.Strings

/-! Which texts the reader reads, and as what: strings behind any escapes, numbers, and
lists and objects of texts that are read. -/
namespace Stallwatch.Json

open Utf8 Text

/-- What may follow a value: nothing a number could go on with. -/
def Stops (rest : List UInt8) : Prop := ∀ c ∈ rest.head?, isNumberByte c = false

/-- A text that a value can start with. -/
def Starts (text : List Char) : Prop :=
  ∃ c cs, text = c :: cs ∧ c.toNat < 0x80 ∧ c ∉ [' ', '\t', '\n', '\r', ']']

/-- The text is read as `j`. -/
structure Reads (f : Rounding) (text : List Char) (j : Json) : Prop where
  head : Starts text
  value : ∀ fuel rest, 3 * (bytes text).length + 1 ≤ fuel → Stops rest →
    Json.value f fuel (bytes text ++ rest) = .ok (j, rest)

theorem skipWs_char {c : Char} (ascii : c.toNat < 0x80) (solid : c ∉ [' ', '\t', '\n', '\r'])
    (rest : List UInt8) : skipWs (UInt8.ofNat c.toNat :: rest) = UInt8.ofNat c.toNat :: rest := by
  rw [skipWs, List.dropWhile_cons_of_neg]
  simpa [asChar_ascii ascii] using solid

theorem reads_string {f : Rounding} {cs s : List Char} (quotes : Quotes ('"' :: cs) s) :
    Reads f ('"' :: cs) (str s) := by
  refine ⟨⟨'"', cs, rfl, by decide, by decide⟩, ?_⟩
  intro fuel rest enough _
  obtain ⟨fuel, rfl⟩ := Nat.exists_eq_add_of_le' (by omega : 1 ≤ fuel)
  have read := quotes rest
  rw [bytes_ascii (by decide), List.cons_append] at read ⊢
  rw [Json.value, skipWs_char (by decide) (by decide)]
  change (string (UInt8.ofNat '"'.toNat :: (bytes cs ++ rest)) >>= fun r => pure (str r.1, r.2)) = _
  rw [read]
  rfl

theorem Escaper.reads {write : List Char → List Char} (escaper : Escaper write) (f : Rounding)
    (s : List Char) : Reads f (write s) (str s) := by
  have quotes := escaper.quotes s
  obtain ⟨short, _, rfl⟩ := escaper
  exact reads_string quotes

theorem reads_jsonStr (f : Rounding) (s : List Char) : Reads f (jsonStr s) (str s) :=
  jsonStr_escaper.reads f s

theorem reads_jstr (f : Rounding) (s : List Char) : Reads f (jstr s) (str s) :=
  jstr_escaper.reads f s

theorem reads_bare {f : Rounding} {w : String} (plain : jstr w.toList = bare w) :
    Reads f (bare w) (str w.toList) :=
  reads_string (bare_quotes plain)

theorem reads_bool {f : Rounding} (b : Bool) :
    Reads f (boolText b) (bool b) := by
  cases b with
  | true =>
    refine ⟨⟨'t', _, rfl, by decide, by decide⟩, ?_⟩
    intro fuel rest enough _
    obtain ⟨fuel, rfl⟩ := Nat.exists_eq_add_of_le' (by omega : 1 ≤ fuel)
    rfl
  | false =>
    refine ⟨⟨'f', _, rfl, by decide, by decide⟩, ?_⟩
    intro fuel rest enough _
    obtain ⟨fuel, rfl⟩ := Nat.exists_eq_add_of_le' (by omega : 1 ≤ fuel)
    rfl

/-- The characters the number loop takes. -/
def isNumberChar (c : Char) : Bool := c.isDigit || c ∈ ['.', 'e', 'E', '+', '-']

theorem number_ascii {c : Char} (h : isNumberChar c = true) : c.toNat < 0x80 := by
  simp only [isNumberChar, Bool.or_eq_true, decide_eq_true_eq, List.mem_cons, List.not_mem_nil,
    or_false] at h
  rcases h with digit | rfl | rfl | rfl | rfl | rfl
  · exact digit_ascii digit
  all_goals decide

theorem number_scan {cs : List Char} (all : cs.all isNumberChar = true) {rest : List UInt8}
    (stops : Stops rest) : (bytes cs ++ rest).takeWhile isNumberByte = bytes cs := by
  have inside : ∀ b ∈ bytes cs, isNumberByte b = true := by
    intro b hb
    obtain ⟨c, hc, hb⟩ := List.mem_flatMap.mp hb
    have number := List.all_eq_true.mp all c hc
    have ascii := number_ascii number
    rw [encode_ascii ascii, List.mem_singleton] at hb
    rw [hb, isNumberByte, asChar_ascii ascii]
    exact number
  rw [List.takeWhile_append_of_pos inside]
  cases rest with
  | nil => simp
  | cons b rest => simp [stops b rfl]

theorem drop_taken (b : List UInt8) :
    b.drop (b.takeWhile isNumberByte).length = b.dropWhile isNumberByte := by
  have cut : (b.takeWhile isNumberByte ++ b.dropWhile isNumberByte).drop
      (b.takeWhile isNumberByte).length = b.dropWhile isNumberByte := List.drop_left
  rwa [List.takeWhile_append_dropWhile] at cut

/- The loop would take the sign too. -/
theorem number_eq (f : Rounding) (b : List UInt8) :
    number f b =
      (match (fromUtf8 (b.takeWhile isNumberByte)).bind (F64.parse f) with
      | none => .err "bad number"
      | some n => .ok (num n, b.dropWhile isNumberByte)) := by
  unfold number
  by_cases minus : b.head?.map asChar = some '-'
  · obtain ⟨c, here, sign⟩ := Option.map_eq_some_iff.mp minus
    obtain ⟨b, rfl⟩ := List.head?_eq_some_iff.mp here
    have taken : isNumberByte c = true := by
      rw [isNumberByte, sign]
      rfl
    have behind := drop_taken b
    rw [if_pos minus, List.takeWhile_cons_of_pos taken, List.dropWhile_cons_of_pos taken, ← behind,
      ← List.drop_succ_cons (a := c), Nat.add_comm]
    rfl
  · have behind := drop_taken b
    rw [if_neg minus, ← behind]
    dsimp only
    rw [List.length_nil, Nat.zero_add]
    rfl

theorem number_read {f : Rounding} {t : List Char} {n : F64} (all : t.all isNumberChar = true)
    (parsed : F64.parse f t = some n) {rest : List UInt8} (stops : Stops rest) :
    number f (bytes t ++ rest) = .ok (num n, rest) := by
  have scan := number_scan all stops
  have left := drop_taken (bytes t ++ rest)
  rw [scan, List.drop_left] at left
  rw [number_eq, scan, ← left, fromUtf8_bytes, Option.bind_some, parsed]

theorem reads_number {f : Rounding} {t : List Char} {n : F64} (all : t.all isNumberChar = true)
    (parsed : F64.parse f t = some n) : Reads f t (num n) := by
  cases t with
  | nil => contradiction
  | cons c cs =>
    have start := all
    rw [List.all_cons, Bool.and_eq_true] at start
    have differs : ∀ d, isNumberChar d = false → c ≠ d := by
      rintro d other rfl
      rw [start.1] at other
      contradiction
    have ascii := number_ascii start.1
    have solid : c ∉ [' ', '\t', '\n', '\r', ']'] := by
      simp [differs ' ' (by decide), differs '\t' (by decide), differs '\n' (by decide),
        differs '\r' (by decide), differs ']' (by decide)]
    refine ⟨⟨c, cs, rfl, ascii, solid⟩, ?_⟩
    intro fuel rest enough stops
    obtain ⟨fuel, rfl⟩ := Nat.exists_eq_add_of_le' (by omega : 1 ≤ fuel)
    have read := number_read all parsed stops
    rw [bytes_ascii ascii, List.cons_append] at read ⊢
    rw [Json.value, skipWs_char ascii (fun h => solid (by simp at h ⊢; tauto))]
    dsimp only
    rw [asChar_ascii ascii]
    split
    · exact absurd rfl (differs '{' (by decide))
    · exact absurd rfl (differs '[' (by decide))
    · exact absurd rfl (differs '"' (by decide))
    · exact absurd rfl (differs 't' (by decide))
    · exact absurd rfl (differs 'f' (by decide))
    · exact absurd rfl (differs 'n' (by decide))
    · exact read

theorem number_digits {cs : List Char} (digits : cs.all Char.isDigit = true) :
    cs.all isNumberChar = true := by
  rw [List.all_eq_true] at digits ⊢
  intro c member
  simp [isNumberChar, digits c member]

theorem reads_decimal (f : Rounding) (n : ℕ) : Reads f (decimal n) (num (F64.ofNat f n)) :=
  reads_number (number_digits (decimal_all n)) (F64.parse_decimal f n)

theorem number_places (digits n : ℕ) : (F64.places digits n).all isNumberChar = true := by
  unfold F64.places
  split
  · rfl
  · rw [List.all_cons, number_digits (F64.padded_all _ _)]
    rfl

theorem number_format (digits : ℕ) {x : F64} (finite : x.isFinite = true) :
    (F64.format digits x).all isNumberChar = true := by
  cases x with
  | nan => contradiction
  | infinite negative => contradiction
  | finite negative q =>
    have whole := number_digits (decimal_all (F64.roundHalfEven (q * 10 ^ digits) / 10 ^ digits))
    have places := number_places digits (F64.roundHalfEven (q * 10 ^ digits))
    cases negative with
    | false =>
      rw [F64.format, List.all_append, List.all_append, whole, places]
      rfl
    | true =>
      rw [F64.format, List.all_append, List.all_append, whole, places]
      rfl

theorem reads_format (f : Rounding) (digits : ℕ) {x : F64} (finite : x.isFinite = true) :
    Reads f (F64.format digits x) (num (F64.recorded f digits x)) :=
  reads_number (number_format digits finite) (F64.parse_format f digits finite)

theorem stops_char {c : Char} (ascii : c.toNat < 0x80) (other : isNumberChar c = false)
    (rest : List UInt8) : Stops (UInt8.ofNat c.toNat :: rest) := by
  rintro _ ⟨rfl⟩
  rw [isNumberByte, asChar_ascii ascii]
  exact other

theorem head_char {c : Char} (ascii : c.toNat < 0x80) (rest : List UInt8) :
    (UInt8.ofNat c.toNat :: rest).head?.map asChar = some c := by
  rw [List.head?_cons, Option.map_some, asChar_ascii ascii]

theorem tail_char {c : Char} (ascii : c.toNat < 0x80) (u : List Char) : (bytes (c :: u)).tail = bytes u := by
  rw [bytes_ascii ascii, List.tail_cons]

theorem join_cons (t u : List Char) (ts : List (List Char)) :
    join (t :: u :: ts) = t ++ ',' :: join (u :: ts) := rfl

theorem join_append (t u : List Char) (ts us : List (List Char)) :
    join (t :: ts ++ u :: us) = join (t :: ts) ++ ',' :: join (u :: us) := by
  induction ts generalizing t with
  | nil => rfl
  | cons v ts ih =>
    have rest := ih v
    rw [List.cons_append] at rest ⊢
    rw [List.cons_append, join_cons, rest, join_cons, List.append_assoc]
    rfl

theorem join_concat (t : List Char) {ts : List (List Char)} (some : ts ≠ []) :
    join (t :: ts) = t ++ ',' :: join ts := by
  cases ts with
  | nil => contradiction
  | cons u ts => rfl

theorem join_bytes (t u : List Char) (ts : List (List Char)) (close : List Char) :
    bytes (join (t :: u :: ts) ++ close) =
      bytes t ++ UInt8.ofNat ','.toNat :: bytes (join (u :: ts) ++ close) := by
  rw [join_cons, List.append_assoc, bytes_append, List.cons_append, bytes_ascii (by decide)]

theorem blank_ascii {c : Char} (blank : isBlank c = true) : c.toNat < 0x80 := by
  simp only [isBlank, List.mem_cons, List.not_mem_nil, or_false, decide_eq_true_eq] at blank
  rcases blank with rfl | rfl | rfl | rfl <;> decide

theorem skipWs_blank {w : List Char} (blank : Blank w) (b : List UInt8) :
    skipWs (bytes w ++ b) = skipWs b := by
  induction w with
  | nil => rfl
  | cons c w ih =>
    rw [Blank, List.all_cons, Bool.and_eq_true] at blank
    have ascii := blank_ascii blank.1
    rw [bytes_ascii ascii, List.cons_append, skipWs, List.dropWhile_cons_of_pos]
    · exact ih blank.2
    · rw [asChar_ascii ascii]
      exact blank.1

theorem skipWs_skipWs (b : List UInt8) : skipWs (skipWs b) = skipWs b := List.dropWhile_idempotent _ _

theorem value_skip (f : Rounding) (fuel : ℕ) (b : List UInt8) :
    value f fuel (skipWs b) = value f fuel b := by
  cases fuel with
  | zero => rfl
  | succ fuel => rw [value, value, skipWs_skipWs]

theorem elements_skip (f : Rounding) (fuel : ℕ) (v : List Json) (b : List UInt8) :
    elements f fuel v (skipWs b) = elements f fuel v b := by
  cases fuel with
  | zero => rfl
  | succ fuel => rw [elements, elements, value_skip]

theorem members_skip (f : Rounding) (fuel : ℕ) (m : List (List Char × Json)) (b : List UInt8) :
    members f fuel m (skipWs b) = members f fuel m b := by
  cases fuel with
  | zero => rfl
  | succ fuel => rw [members, members, skipWs_skipWs]

theorem stops_blank {w : List Char} (blank : Blank w) {rest : List UInt8} (stops : Stops rest) :
    Stops (bytes w ++ rest) := by
  cases w with
  | nil => exact stops
  | cons c w =>
    rw [Blank, List.all_cons, Bool.and_eq_true] at blank
    have ascii := blank_ascii blank.1
    have other : isNumberChar c = false := by
      have here := blank.1
      simp only [isBlank, List.mem_cons, List.not_mem_nil, or_false, decide_eq_true_eq] at here
      rcases here with rfl | rfl | rfl | rfl <;> decide
    rw [bytes_ascii ascii]
    exact stops_char ascii other _

/-- The text is read as `j`, with blanks before and after it. -/
def Padded (f : Rounding) (text : List Char) (j : Json) : Prop :=
  ∃ w core w', Blank w ∧ Blank w' ∧ text = w ++ (core ++ w') ∧ Reads f core j

theorem Reads.padded {f : Rounding} {text : List Char} {j : Json} (read : Reads f text j) :
    Padded f text j :=
  ⟨[], text, [], rfl, rfl, by simp, read⟩

theorem Padded.value {f : Rounding} {text : List Char} {j : Json} (padded : Padded f text j) :
    ∃ w', Blank w' ∧ ∀ fuel rest, 3 * (bytes text).length + 1 ≤ fuel → Stops rest →
      Json.value f fuel (bytes text ++ rest) = .ok (j, bytes w' ++ rest) := by
  obtain ⟨w, core, w', before, after, rfl, read⟩ := padded
  refine ⟨w', after, fun fuel rest enough stops => ?_⟩
  simp only [bytes_append, List.length_append, List.append_assoc] at enough ⊢
  rw [← value_skip, skipWs_blank before, value_skip]
  exact read.value fuel _ (by omega) (stops_blank after stops)

/-- After its blanks the text goes on with something other than `close`. -/
def Opens (close : Char) (text : List Char) : Prop :=
  ∃ w c cs, text = w ++ c :: cs ∧ Blank w ∧ c.toNat < 0x80 ∧ c ∉ [' ', '\t', '\n', '\r', close]

theorem Starts.opens {text : List Char} (head : Starts text) : Opens ']' text := by
  obtain ⟨c, cs, rfl, ascii, solid⟩ := head
  exact ⟨[], c, cs, rfl, rfl, ascii, solid⟩

theorem Padded.opens {f : Rounding} {text : List Char} {j : Json} (padded : Padded f text j) :
    Opens ']' text := by
  obtain ⟨w, core, w', before, _, rfl, read⟩ := padded
  obtain ⟨c, cs, rfl, ascii, solid⟩ := read.head
  exact ⟨w, c, cs ++ w', rfl, before, ascii, solid⟩

theorem Opens.skip {close : Char} {text : List Char} (opens : Opens close text)
    (ts : List (List Char)) (rest : List UInt8) :
    (skipWs (bytes (join (text :: ts) ++ [close]) ++ rest)).head?.map asChar ≠ some close := by
  obtain ⟨w, c, cs, rfl, blank, ascii, solid⟩ := opens
  obtain ⟨more, start⟩ : ∃ more, join ((w ++ c :: cs) :: ts) = w ++ c :: more := by
    cases ts with
    | nil => exact ⟨cs, rfl⟩
    | cons u ts => exact ⟨cs ++ ',' :: join (u :: ts), by simp [join_cons]⟩
  have other : c ∉ [' ', '\t', '\n', '\r'] := fun h => solid (by simp at h ⊢; tauto)
  rw [start, List.append_assoc, bytes_append, List.append_assoc, skipWs_blank blank, List.cons_append,
    bytes_ascii ascii, List.cons_append, skipWs_char ascii other, head_char ascii]
  rintro ⟨rfl⟩
  simp at solid

/- Along the elements: one is read, then the loop stands behind its comma. -/
theorem elements_read {f : Rounding} {t : List Char} {ts : List (List Char)} {js : List Json}
    (reads : List.Forall₂ (Padded f) (t :: ts) js) :
    ∀ fuel v rest, 3 * (bytes (join (t :: ts) ++ [']'])).length + 2 ≤ fuel →
      elements f fuel v (bytes (join (t :: ts) ++ [']']) ++ rest) = .ok (arr (v ++ js), rest) := by
  induction ts generalizing t js with
  | nil =>
    obtain ⟨j, js, read, none, rfl⟩ := List.forall₂_cons_left_iff.mp reads
    cases none
    intro fuel v rest enough
    obtain ⟨fuel, rfl⟩ := Nat.exists_eq_add_of_le' (by omega : 1 ≤ fuel)
    obtain ⟨w, blank, read⟩ := read.value
    have stops : Stops (bytes [']'] ++ rest) := stops_char (c := ']') (by decide) (by decide) rest
    simp only [join, bytes_append, List.append_assoc, List.length_append] at enough ⊢
    rw [elements, read fuel _ (by omega) stops, Outcome.ok_bind]
    dsimp only
    rw [skipWs_blank blank]
    rfl
  | cons u ts ih =>
    obtain ⟨j, js, read, others, rfl⟩ := List.forall₂_cons_left_iff.mp reads
    intro fuel v rest enough
    obtain ⟨fuel, rfl⟩ := Nat.exists_eq_add_of_le' (by omega : 1 ≤ fuel)
    obtain ⟨w, blank, read⟩ := read.value
    simp only [join_bytes, List.append_assoc, List.cons_append, List.length_append,
      List.length_cons] at enough ⊢
    have stops := stops_char (c := ',') (by decide) (by decide) (bytes (join (u :: ts) ++ [']']) ++ rest)
    rw [elements, read fuel _ (by omega) stops, Outcome.ok_bind]
    dsimp only
    rw [skipWs_blank blank, skipWs_char (by decide) (by decide), head_char (by decide)]
    dsimp only [List.tail_cons]
    rw [ih others fuel (v ++ [j]) rest (by omega), List.append_assoc]
    rfl

theorem value_bracket (f : Rounding) (fuel : ℕ) (b : List UInt8) :
    value f (fuel + 1) (UInt8.ofNat '['.toNat :: b) = array f fuel b := rfl

theorem value_brace (f : Rounding) (fuel : ℕ) (b : List UInt8) :
    value f (fuel + 1) (UInt8.ofNat '{'.toNat :: b) = object f fuel b := rfl

theorem list_length (texts : List (List Char)) :
    (bytes (list texts)).length = (bytes (join texts ++ [']'])).length + 1 := by
  rw [list, bytes_ascii (by decide), List.length_cons]

theorem list_opens {f : Rounding} {t : List Char} (opens : Opens ']' t) (ts : List (List Char))
    (fuel : ℕ) (rest : List UInt8) :
    value f (fuel + 2) (bytes (list (t :: ts)) ++ rest) =
      elements f fuel [] (bytes (join (t :: ts) ++ [']']) ++ rest) := by
  have filled := opens.skip ts rest
  rw [list, bytes_ascii (by decide), List.cons_append, value_bracket, array, if_neg filled,
    elements_skip]

theorem reads_padded {f : Rounding} {texts : List (List Char)} {js : List Json}
    (some : texts ≠ []) (reads : List.Forall₂ (Padded f) texts js) : Reads f (list texts) (arr js) := by
  refine ⟨⟨'[', _, rfl, by decide, by decide⟩, ?_⟩
  intro fuel rest enough _
  rw [list_length] at enough
  obtain ⟨fuel, rfl⟩ := Nat.exists_eq_add_of_le' (by omega : 2 ≤ fuel)
  cases reads with
  | nil => contradiction
  | cons first others =>
    rw [list_opens first.opens]
    exact elements_read (.cons first others) fuel [] rest (by omega)

theorem reads_emptyArray {f : Rounding} {w : List Char} (blank : Blank w) :
    Reads f ('[' :: (w ++ [']'])) (arr []) := by
  refine ⟨⟨'[', _, rfl, by decide, by decide⟩, ?_⟩
  intro fuel rest enough _
  rw [bytes_ascii (by decide), List.length_cons] at enough
  obtain ⟨fuel, rfl⟩ := Nat.exists_eq_add_of_le' (by omega : 2 ≤ fuel)
  rw [bytes_ascii (by decide), List.cons_append, value_bracket, bytes_append, List.append_assoc, array,
    skipWs_blank blank]
  rfl

theorem reads_list {f : Rounding} {texts : List (List Char)} {js : List Json}
    (reads : List.Forall₂ (Reads f) texts js) : Reads f (list texts) (arr js) := by
  cases reads with
  | nil => exact reads_emptyArray rfl
  | cons first others =>
    exact reads_padded (List.cons_ne_nil _ _) (.cons first.padded (others.imp fun _ _ => Reads.padded))

theorem reads_each {α : Type} {f : Rounding} {xs : List α} {write : α → List Char} {value : α → Json}
    (reads : ∀ x ∈ xs, Reads f (write x) (value x)) :
    List.Forall₂ (Reads f) (xs.map write) (xs.map value) := by
  rw [List.forall₂_map_left_iff, List.forall₂_map_right_iff, List.forall₂_same]
  exact reads

theorem reads_map {α : Type} {f : Rounding} {xs : List α} {write : α → List Char} {value : α → Json}
    (reads : ∀ x ∈ xs, Reads f (write x) (value x)) :
    Reads f (list (xs.map write)) (arr (xs.map value)) :=
  reads_list (reads_each reads)

/-- The text of the field is read as the value of the entry, under one plain name. -/
structure FieldRead (f : Rounding) (field : String × List Char) (entry : String × Json) : Prop where
  plain : jstr field.1.toList = bare field.1
  same : entry.1 = field.1
  read : Reads f field.2 entry.2

abbrev FieldsRead (f : Rounding) : List (String × List Char) → List (String × Json) → Prop :=
  List.Forall₂ (FieldRead f)

theorem FieldsRead.field {f : Rounding} {name : String} {text : List Char} {j : Json}
    {fields : List (String × List Char)} {entries : List (String × Json)}
    (plain : jstr name.toList = bare name) (read : Reads f text j)
    (others : FieldsRead f fields entries) :
    FieldsRead f ((name, text) :: fields) ((name, j) :: entries) :=
  .cons ⟨plain, rfl, read⟩ others

def insertAll (m : List (List Char × Json)) (entries : List (String × Json)) :
    List (List Char × Json) :=
  entries.foldl (fun m e => insert e.1.toList e.2 m) m

def ofEntries (entries : List (String × Json)) : Json := obj (insertAll [] entries)

theorem ofMembers_entries (entries : List (String × Json)) :
    ofMembers (entries.map fun e => (e.1.toList, e.2)) = ofEntries entries := by
  rw [ofMembers, List.foldl_map]
  rfl

/-- The text is read as a member: a name and a value, with blanks around both. -/
def MemberRead (f : Rounding) (text : List Char) (e : List Char × Json) : Prop :=
  ∃ w k w' t, Blank w ∧ Blank w' ∧ text = w ++ ('"' :: k ++ (w' ++ ':' :: t)) ∧
    Quotes ('"' :: k) e.1 ∧ Padded f t e.2

/- The loop takes a member: its name, and then the value of its text. -/
theorem member_value {f : Rounding} {fuel : ℕ} {m : List (List Char × Json)}
    {w k w' name : List Char} (before : Blank w) (after : Blank w') (quotes : Quotes ('"' :: k) name)
    (t : List Char) (rest : List UInt8) :
    members f (fuel + 1) m (bytes (w ++ ('"' :: k ++ (w' ++ ':' :: t))) ++ rest) =
      (value f fuel (bytes t ++ rest) >>= fun r =>
        match (skipWs r.2).head?.map asChar with
        | some ',' => members f fuel (insert name r.1 m) (skipWs r.2).tail
        | some '}' => .ok (obj (insert name r.1 m), (skipWs r.2).tail)
        | _ => .err "expected ',' or '\x7d'") := by
  have key := quotes (bytes (w' ++ ':' :: t) ++ rest)
  rw [bytes_append w, bytes_append ('"' :: k), List.append_assoc, List.append_assoc, members,
    skipWs_blank before]
  rw [bytes_ascii (by decide), List.cons_append] at key ⊢
  rw [skipWs_char (by decide) (by decide), head_char (by decide), if_pos rfl, key]
  simp only [Outcome.ok_bind]
  rw [bytes_append, List.append_assoc, skipWs_blank after, bytes_ascii (by decide), List.cons_append,
    skipWs_char (by decide) (by decide), head_char (by decide), if_pos rfl, List.tail_cons]
  rfl

theorem MemberRead.read {f : Rounding} {text : List Char} {e : List Char × Json}
    (read : MemberRead f text e) {fuel : ℕ} {m : List (List Char × Json)} {rest : List UInt8}
    (stops : Stops rest) (enough : 3 * (bytes text).length ≤ fuel) :
    members f (fuel + 1) m (bytes text ++ rest) =
      (match (skipWs rest).head?.map asChar with
      | some ',' => members f fuel (insert e.1 e.2 m) (skipWs rest).tail
      | some '}' => .ok (obj (insert e.1 e.2 m), (skipWs rest).tail)
      | _ => .err "expected ',' or '\x7d'") := by
  obtain ⟨w, k, w', t, before, after, rfl, quotes, padded⟩ := read
  obtain ⟨w'', blank, value⟩ := padded.value
  have fits : 3 * (bytes t).length + 1 ≤ fuel := by
    rw [bytes_append, bytes_append, bytes_append, bytes_ascii (by decide) t] at enough
    simp only [List.length_append, List.length_cons] at enough
    omega
  rw [member_value before after quotes, value fuel rest fits stops, Outcome.ok_bind]
  dsimp only
  rw [skipWs_blank blank]

theorem MemberRead.opens {f : Rounding} {text : List Char} {e : List Char × Json}
    (read : MemberRead f text e) : Opens '}' text := by
  obtain ⟨w, k, w', t, before, _, rfl, _⟩ := read
  exact ⟨w, '"', k ++ (w' ++ ':' :: t), rfl, before, by decide, by decide⟩

theorem members_read {f : Rounding} {t : List Char} {ts : List (List Char)}
    {es : List (List Char × Json)} (reads : List.Forall₂ (MemberRead f) (t :: ts) es) :
    ∀ fuel m rest, 3 * (bytes (join (t :: ts) ++ ['}'])).length + 2 ≤ fuel →
      members f fuel m (bytes (join (t :: ts) ++ ['}']) ++ rest) =
        .ok (obj (es.foldl (fun m e => insert e.1 e.2 m) m), rest) := by
  induction ts generalizing t es with
  | nil =>
    obtain ⟨e, es, read, none, rfl⟩ := List.forall₂_cons_left_iff.mp reads
    cases none
    intro fuel m rest enough
    obtain ⟨fuel, rfl⟩ := Nat.exists_eq_add_of_le' (by omega : 1 ≤ fuel)
    have stops : Stops (bytes ['}'] ++ rest) := stops_char (c := '}') (by decide) (by decide) rest
    simp only [join, bytes_append, List.append_assoc, List.length_append] at enough ⊢
    rw [read.read stops (by omega), List.foldl_cons, List.foldl_nil]
    rfl
  | cons u ts ih =>
    obtain ⟨e, es, read, others, rfl⟩ := List.forall₂_cons_left_iff.mp reads
    intro fuel m rest enough
    obtain ⟨fuel, rfl⟩ := Nat.exists_eq_add_of_le' (by omega : 1 ≤ fuel)
    simp only [join_bytes, List.append_assoc, List.cons_append, List.length_append,
      List.length_cons] at enough ⊢
    have stops := stops_char (c := ',') (by decide) (by decide) (bytes (join (u :: ts) ++ ['}']) ++ rest)
    rw [read.read stops (by omega), skipWs_char (by decide) (by decide), head_char (by decide)]
    dsimp only [List.tail_cons]
    rw [ih others fuel _ rest (by omega), List.foldl_cons]
    rfl

/-- The text of an object whose members have these texts. -/
def braced (texts : List (List Char)) : List Char := '{' :: (join texts ++ ['}'])

theorem braced_length (texts : List (List Char)) :
    (bytes (braced texts)).length = (bytes (join texts ++ ['}'])).length + 1 := by
  rw [braced, bytes_ascii (by decide), List.length_cons]

theorem braced_opens {f : Rounding} {t : List Char} (opens : Opens '}' t) (ts : List (List Char))
    (fuel : ℕ) (rest : List UInt8) :
    value f (fuel + 2) (bytes (braced (t :: ts)) ++ rest) =
      members f fuel [] (bytes (join (t :: ts) ++ ['}']) ++ rest) := by
  have filled := opens.skip ts rest
  rw [braced, bytes_ascii (by decide), List.cons_append, value_brace, object, if_neg filled,
    members_skip]

theorem reads_braced {f : Rounding} {texts : List (List Char)} {es : List (List Char × Json)}
    (some : texts ≠ []) (reads : List.Forall₂ (MemberRead f) texts es) :
    Reads f (braced texts) (ofMembers es) := by
  refine ⟨⟨'{', _, rfl, by decide, by decide⟩, ?_⟩
  intro fuel rest enough _
  rw [braced_length] at enough
  obtain ⟨fuel, rfl⟩ := Nat.exists_eq_add_of_le' (by omega : 2 ≤ fuel)
  cases reads with
  | nil => contradiction
  | cons first others =>
    rw [braced_opens first.opens]
    exact members_read (.cons first others) fuel [] rest (by omega)

theorem reads_emptyObject {f : Rounding} {w : List Char} (blank : Blank w) :
    Reads f ('{' :: (w ++ ['}'])) (obj []) := by
  refine ⟨⟨'{', _, rfl, by decide, by decide⟩, ?_⟩
  intro fuel rest enough _
  rw [bytes_ascii (by decide), List.length_cons] at enough
  obtain ⟨fuel, rfl⟩ := Nat.exists_eq_add_of_le' (by omega : 2 ≤ fuel)
  rw [bytes_ascii (by decide), List.cons_append, value_brace, bytes_append, List.append_assoc, object,
    skipWs_blank blank]
  rfl

theorem member_eq (field : String × List Char) :
    member field = [] ++ ('"' :: (field.1.toList ++ ['"']) ++ ([] ++ ':' :: field.2)) := rfl

theorem FieldRead.member {f : Rounding} {field : String × List Char} {entry : String × Json}
    (read : FieldRead f field entry) : MemberRead f (Json.member field) (entry.1.toList, entry.2) :=
  ⟨[], _, [], field.2, rfl, rfl, member_eq field, by rw [read.same]; exact bare_quotes read.plain,
    read.read.padded⟩

theorem reads_record {f : Rounding} {fields : List (String × List Char)}
    {entries : List (String × Json)} (reads : FieldsRead f fields entries) :
    Reads f (record fields) (ofEntries entries) := by
  cases reads with
  | nil => exact reads_emptyObject rfl
  | @cons field entry fields entries first others =>
    rw [← ofMembers_entries]
    have each : List.Forall₂ (MemberRead f) ((field :: fields).map Json.member)
        ((entry :: entries).map fun e => (e.1.toList, e.2)) :=
      .cons first.member (List.forall₂_map_left_iff.mpr
        (List.forall₂_map_right_iff.mpr (others.imp fun _ _ => FieldRead.member)))
    exact reads_braced (List.cons_ne_nil _ _) each

theorem lookup_other {k k' : List Char} (other : k ≠ k') (m : List (List Char × Json)) :
    (m.filter (·.1 ≠ k')).lookup k = m.lookup k := by
  induction m with
  | nil => rfl
  | cons e m ih =>
    by_cases here : e.1 = k'
    · rw [List.filter_cons_of_neg (by simpa using here), ih, List.lookup_cons]
      have miss : (k == e.1) = false := by simpa [here] using other
      rw [miss]
    · rw [List.filter_cons_of_pos (by simpa using here), List.lookup_cons, List.lookup_cons, ih]

theorem lookup_inserted {es : List (List Char × Json)} (distinct : (es.map Prod.fst).Nodup)
    (k : List Char) (m : List (List Char × Json)) :
    (es.foldl (fun m e => insert e.1 e.2 m) m).lookup k = (es.lookup k).or (m.lookup k) := by
  induction es generalizing m with
  | nil => rfl
  | cons e es ih =>
    rw [List.map_cons, List.nodup_cons] at distinct
    rw [List.foldl_cons, ih distinct.2, insert, List.lookup_cons, List.lookup_cons]
    by_cases here : k = e.1
    · subst here
      have absent : es.lookup e.1 = none := by
        rw [List.lookup_eq_none_iff]
        intro entry member
        simpa using fun h : e.1 = entry.1 => distinct.1 (h ▸ List.mem_map_of_mem member)
      simp [absent]
    · have miss : (k == e.1) = false := by simpa using here
      rw [miss]
      simp only [lookup_other here]

/-- What an object holds under a name, when no name is used twice. -/
theorem get_ofMembers {es : List (List Char × Json)} (distinct : (es.map Prod.fst).Nodup)
    (k : List Char) : (ofMembers es).get k = es.lookup k := by
  rw [ofMembers, get, lookup_inserted distinct]
  simp

theorem lookup_toList (entries : List (String × Json)) (k : String) :
    (entries.map fun e => (e.1.toList, e.2)).lookup k.toList = entries.lookup k := by
  induction entries with
  | nil => rfl
  | cons e entries ih =>
    have same : (k.toList == e.1.toList) = (k == e.1) := by
      rw [Bool.eq_iff_iff, beq_iff_eq, beq_iff_eq, String.toList_inj]
    rw [List.map_cons, List.lookup_cons, List.lookup_cons, ih, same]

theorem get_ofEntries {entries : List (String × Json)} (distinct : (entries.map Prod.fst).Nodup)
    (k : String) : (ofEntries entries).get k.toList = entries.lookup k := by
  have names : ((entries.map fun e => (e.1.toList, e.2)).map Prod.fst).Nodup := by
    have split : (entries.map fun e => (e.1.toList, e.2)).map Prod.fst =
        (entries.map Prod.fst).map String.toList := by simp
    rw [split]
    exact List.Nodup.map (fun _ _ => String.toList_inj.mp) distinct
  rw [← ofMembers_entries, get_ofMembers names, lookup_toList]

/-- A whole text. -/
theorem parse_padded {f : Rounding} {text : List Char} {j : Json} (padded : Padded f text j) :
    parse f text = .ok j := by
  obtain ⟨w, blank, read⟩ := padded.value
  have value := read (3 * (bytes text).length + 1) [] le_rfl (by simp [Stops])
  have done := skipWs_blank blank []
  rw [List.append_nil] at value done
  rw [List.append_nil] at value
  rw [parse, value, Outcome.ok_bind]
  dsimp only
  rw [done]
  rfl

theorem parse_reads {f : Rounding} {text : List Char} {j : Json} (reads : Reads f text j) :
    parse f text = .ok j :=
  parse_padded reads.padded

end Stallwatch.Json
