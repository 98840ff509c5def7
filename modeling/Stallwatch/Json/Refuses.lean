import Stallwatch.Json.OneLine
import Stallwatch.Json.Total

/-! Texts with a word in the place of a value, such as an infinite or undefined number is
written as. The reader takes none of them, however deep the word stands. -/
namespace Stallwatch.Json

open Utf8 Text

/-- No value is read from the text. -/
structure Refuses (f : Rounding) (text : List Char) : Prop where
  head : Starts text
  value : ∀ fuel rest r, 3 * (bytes text).length + 1 ≤ fuel →
    Json.value f fuel (bytes text ++ rest) ≠ .ok r

/-- The reader decides the text by itself, whatever follows. -/
def Decided (f : Rounding) (text : List Char) : Prop := (∃ j, Reads f text j) ∨ Refuses f text

theorem Decided.head {f : Rounding} {text : List Char} (decided : Decided f text) : Starts text := by
  rcases decided with ⟨j, read⟩ | refused
  · exact read.head
  · exact refused.head

theorem Refuses.contradicts {f : Rounding} {text : List Char} {j : Json} (refused : Refuses f text)
    (read : Reads f text j) : False :=
  refused.value _ [] _ le_rfl (read.value _ [] le_rfl (by simp [Stops]))

theorem refuses_format (f : Rounding) (digits : ℕ) {x : F64} (odd : x.isFinite = false) :
    Refuses f (F64.format digits x) := by
  cases x with
  | finite negative q => contradiction
  | nan =>
    refine ⟨⟨'N', _, rfl, by decide, by decide⟩, ?_⟩
    intro fuel rest r enough
    obtain ⟨fuel, rfl⟩ := Nat.exists_eq_add_of_le' (by omega : 1 ≤ fuel)
    exact nofun
  | infinite negative =>
    cases negative with
    | false =>
      refine ⟨⟨'i', _, rfl, by decide, by decide⟩, ?_⟩
      intro fuel rest r enough
      obtain ⟨fuel, rfl⟩ := Nat.exists_eq_add_of_le' (by omega : 1 ≤ fuel)
      exact nofun
    | true =>
      refine ⟨⟨'-', _, rfl, by decide, by decide⟩, ?_⟩
      intro fuel rest r enough
      obtain ⟨fuel, rfl⟩ := Nat.exists_eq_add_of_le' (by omega : 1 ≤ fuel)
      exact nofun

theorem decided_format (f : Rounding) (digits : ℕ) (x : F64) : Decided f (F64.format digits x) := by
  cases finite : x.isFinite with
  | true => exact .inl ⟨_, reads_format f digits finite⟩
  | false => exact .inr (refuses_format f digits finite)

theorem bind_refused {α β : Type} {x : Outcome String α} {next : α → Outcome String β} {b : β}
    (refused : ∀ a, x ≠ .ok a) : (x >>= next) ≠ .ok b := by
  intro h
  obtain ⟨a, first, _⟩ := Outcome.bind_eq_ok.mp h
  exact refused a first

/- The elements in front are read, up to the first that is not. -/
theorem elements_refuse {f : Rounding} {t : List Char} {ts : List (List Char)}
    (decided : ∀ u ∈ t :: ts, Decided f u) (refused : ∃ u ∈ t :: ts, Refuses f u) :
    ∀ fuel v rest r, 3 * (bytes (join (t :: ts) ++ [']'])).length + 2 ≤ fuel →
      elements f fuel v (bytes (join (t :: ts) ++ [']']) ++ rest) ≠ .ok r := by
  induction ts generalizing t with
  | nil =>
    obtain ⟨u, member, odd⟩ := refused
    cases List.mem_singleton.mp member
    intro fuel v rest r enough
    obtain ⟨fuel, rfl⟩ := Nat.exists_eq_add_of_le' (by omega : 1 ≤ fuel)
    simp only [join, bytes_append, List.append_assoc, List.length_append] at enough ⊢
    exact bind_refused fun a => odd.value fuel _ a (by omega)
  | cons u ts ih =>
    intro fuel v rest r enough
    obtain ⟨fuel, rfl⟩ := Nat.exists_eq_add_of_le' (by omega : 1 ≤ fuel)
    simp only [join_bytes, List.append_assoc, List.cons_append, List.length_append,
      List.length_cons] at enough ⊢
    rcases decided t (by simp) with ⟨j, read⟩ | odd
    · have inside : ∃ w ∈ u :: ts, Refuses f w := by
        obtain ⟨w, member, odd⟩ := refused
        rcases List.mem_cons.mp member with rfl | member
        · exact (odd.contradicts read).elim
        · exact ⟨w, member, odd⟩
      have stops := stops_char (c := ',') (by decide) (by decide)
        (bytes (join (u :: ts) ++ [']']) ++ rest)
      rw [elements, read.value fuel _ (by omega) stops, Outcome.ok_bind]
      dsimp only
      rw [skipWs_char (by decide) (by decide), head_char (by decide)]
      dsimp only [List.tail_cons]
      exact ih (fun w member => decided w (by simp [member])) inside fuel (v ++ [j]) rest r (by omega)
    · exact bind_refused fun a => odd.value fuel _ a (by omega)

theorem list_refuses {f : Rounding} {texts : List (List Char)}
    (decided : ∀ u ∈ texts, Decided f u) (refused : ∃ u ∈ texts, Refuses f u) :
    Refuses f (list texts) := by
  refine ⟨⟨'[', _, rfl, by decide, by decide⟩, ?_⟩
  intro fuel rest r enough
  rw [list_length] at enough
  obtain ⟨fuel, rfl⟩ := Nat.exists_eq_add_of_le' (by omega : 2 ≤ fuel)
  cases texts with
  | nil => simp at refused
  | cons t ts =>
    rw [list_opens (decided t (by simp)).head.opens]
    exact elements_refuse decided refused fuel [] rest r (by omega)

theorem list_decided {f : Rounding} {texts : List (List Char)} (decided : ∀ u ∈ texts, Decided f u) :
    Decided f (list texts) := by
  by_cases refused : ∃ u ∈ texts, Refuses f u
  · exact .inr (list_refuses decided refused)
  · have each : ∀ u ∈ texts, ∃ j, Reads f u j := by
      intro u member
      exact (decided u member).resolve_right fun odd => refused ⟨u, member, odd⟩
    have values : ∃ js, List.Forall₂ (Reads f) texts js := by
      clear decided refused
      induction texts with
      | nil => exact ⟨[], .nil⟩
      | cons t ts ih =>
        obtain ⟨j, read⟩ := each t (by simp)
        obtain ⟨js, reads⟩ := ih fun u member => each u (by simp [member])
        exact ⟨j :: js, .cons read reads⟩
    obtain ⟨js, reads⟩ := values
    exact .inl ⟨_, reads_list reads⟩

theorem map_decided {f : Rounding} {α : Type} {write : α → List Char}
    (each : ∀ x, Decided f (write x)) (xs : List α) : Decided f (list (xs.map write)) := by
  apply list_decided
  simp only [List.forall_mem_map]
  exact fun x _ => each x

theorem map_refuses {f : Rounding} {α : Type} {write : α → List Char} {good : α → Bool}
    (each : ∀ x, Decided f (write x)) (refused : ∀ x, good x = false → Refuses f (write x))
    {xs : List α} (odd : xs.all good = false) : Refuses f (list (xs.map write)) := by
  obtain ⟨x, member, odd⟩ := List.all_eq_false.mp odd
  apply list_refuses
  · simp only [List.forall_mem_map]
    exact fun x _ => each x
  · exact ⟨_, List.mem_map_of_mem member, refused x (by simpa using odd)⟩

/-- Fields under plain names whose texts the reader decides. -/
def FieldsDecided (f : Rounding) (fields : List (String × List Char)) : Prop :=
  ∀ e ∈ fields, jstr e.1.toList = bare e.1 ∧ Decided f e.2

/-- A field under a plain name, whose text is on one line and is decided. -/
structure Shaped (field : String × List Char) : Prop where
  plain : jstr field.1.toList = bare field.1
  printed : Printed field.2
  decided : ∀ f, Decided f field.2

section Shapes

variable {name : String} (plain : jstr name.toList = bare name)

include plain

theorem shaped_escaper {write : List Char → List Char} (escaper : Escaper write) (s : List Char) :
    Shaped (name, write s) :=
  ⟨plain, escaper.printed s, fun f => .inl ⟨_, escaper.reads f s⟩⟩

theorem shaped_bare {w : String} (word : jstr w.toList = bare w) : Shaped (name, bare w) :=
  ⟨plain, printed_bare word, fun _ => .inl ⟨_, reads_bare word⟩⟩

theorem shaped_boolText (b : Bool) : Shaped (name, boolText b) :=
  ⟨plain, printed_boolText b, fun _ => .inl ⟨_, reads_bool b⟩⟩

theorem shaped_decimal (n : ℕ) : Shaped (name, decimal n) :=
  ⟨plain, printed_decimal n, fun f => .inl ⟨_, reads_decimal f n⟩⟩

theorem shaped_format (digits : ℕ) (x : F64) : Shaped (name, F64.format digits x) :=
  ⟨plain, printed_format digits x, fun f => decided_format f digits x⟩

theorem shaped_map {α : Type} {write : α → List Char} (printed : ∀ x, Printed (write x))
    (decided : ∀ f x, Decided f (write x)) (xs : List α) : Shaped (name, list (xs.map write)) :=
  ⟨plain, printed_list printed xs, fun f => map_decided (decided f) xs⟩

end Shapes

theorem shaped_decided {fields : List (String × List Char)} (shaped : ∀ e ∈ fields, Shaped e)
    (f : Rounding) : FieldsDecided f fields :=
  fun e member => ⟨(shaped e member).plain, (shaped e member).decided f⟩

theorem shaped_record {fields : List (String × List Char)} (shaped : ∀ e ∈ fields, Shaped e) :
    Printed (record fields) :=
  printed_record (fun e member => (shaped e member).plain) fun e member => (shaped e member).printed

theorem member_bytes (entry : String × List Char) :
    bytes (member entry) = bytes (bare entry.1) ++ UInt8.ofNat ':'.toNat :: bytes entry.2 := by
  rw [member, bytes_append, bytes_ascii (by decide)]

theorem member_refuses {f : Rounding} {field : String × List Char}
    (plain : jstr field.1.toList = bare field.1) (refused : Refuses f field.2) {fuel : ℕ}
    (enough : 3 * (bytes field.2).length + 1 ≤ fuel) (m : List (List Char × Json)) (rest : List UInt8)
    (r : Json × List UInt8) : members f (fuel + 1) m (bytes (member field) ++ rest) ≠ .ok r := by
  rw [member_eq, member_value rfl rfl (bare_quotes plain)]
  exact bind_refused fun a => refused.value fuel _ a enough

theorem members_refuse {f : Rounding} {field : String × List Char} {fields : List (String × List Char)}
    (decided : FieldsDecided f (field :: fields)) (refused : ∃ e ∈ field :: fields, Refuses f e.2) :
    ∀ fuel m rest r, 3 * (bytes (join ((field :: fields).map member) ++ ['}'])).length + 2 ≤ fuel →
      members f fuel m (bytes (join ((field :: fields).map member) ++ ['}']) ++ rest) ≠ .ok r := by
  induction fields generalizing field with
  | nil =>
    obtain ⟨e, inside, odd⟩ := refused
    cases List.mem_singleton.mp inside
    intro fuel m rest r enough
    obtain ⟨fuel, rfl⟩ := Nat.exists_eq_add_of_le' (by omega : 1 ≤ fuel)
    have size := congrArg List.length (member_bytes field)
    simp only [List.map_cons, List.map_nil, join, bytes_append, List.append_assoc, List.length_append,
      List.length_cons] at enough size ⊢
    exact member_refuses (decided field (by simp)).1 odd (by omega) m _ r
  | cons next fields ih =>
    obtain ⟨⟨plain, first⟩, others⟩ := List.forall_mem_cons.mp decided
    intro fuel m rest r enough
    obtain ⟨fuel, rfl⟩ := Nat.exists_eq_add_of_le' (by omega : 1 ≤ fuel)
    have whole := join_bytes (member field) (member next) (fields.map member) ['}']
    rw [← List.map_cons, ← List.map_cons] at whole
    have size := congrArg List.length (member_bytes field)
    simp only [List.length_append, List.length_cons] at size
    simp only [whole, List.append_assoc, List.cons_append, List.length_append,
      List.length_cons] at enough ⊢
    rcases first with ⟨j, read⟩ | odd
    · have inside : ∃ e ∈ next :: fields, Refuses f e.2 := by
        obtain ⟨e, inside, odd⟩ := refused
        rcases List.mem_cons.mp inside with rfl | inside
        · exact (odd.contradicts read).elim
        · exact ⟨e, inside, odd⟩
      have stops := stops_char (c := ',') (by decide) (by decide)
        (bytes (join ((next :: fields).map member) ++ ['}']) ++ rest)
      have first : FieldRead f field (field.1, j) := ⟨plain, rfl, read⟩
      rw [first.member.read stops (by rw [member_bytes]; simp; omega),
        skipWs_char (by decide) (by decide), head_char (by decide)]
      dsimp only [List.tail_cons]
      exact ih others inside fuel _ rest r (by omega)
    · exact member_refuses plain odd (by omega) m _ r

theorem record_refuses {f : Rounding} {fields : List (String × List Char)}
    (decided : FieldsDecided f fields) (refused : ∃ e ∈ fields, Refuses f e.2) :
    Refuses f (record fields) := by
  refine ⟨⟨'{', _, rfl, by decide, by decide⟩, ?_⟩
  intro fuel rest r enough
  rw [record, ← braced, braced_length] at enough
  obtain ⟨fuel, rfl⟩ := Nat.exists_eq_add_of_le' (by omega : 2 ≤ fuel)
  cases fields with
  | nil => simp at refused
  | cons field fields =>
    have opens : Opens '}' (member field) := ⟨[], '"', _, rfl, rfl, by decide, by decide⟩
    rw [record, ← braced, List.map_cons, braced_opens opens]
    exact members_refuse decided refused fuel [] rest r (by omega)

/- A whole text that is refused is an error: the reader does not panic. -/
theorem parse_refuses {f : Rounding} {text : List Char} (refused : Refuses f text) :
    ∃ e, parse f text = .err e := by
  have total := parse_total f text
  cases result : parse f text with
  | err e => exact ⟨e, rfl⟩
  | panic => contradiction
  | ok j =>
    obtain ⟨r, first, _⟩ := Outcome.bind_eq_ok.mp result
    have absent := refused.value (3 * (bytes text).length + 1) [] r le_rfl
    rw [List.append_nil] at absent
    contradiction

end Stallwatch.Json
