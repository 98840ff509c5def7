import Stallwatch.Json.Reads

/-! What the program writes has no control character in it, whatever the strings hold: no
newline that ends a line, and no NUL that ends a frame. -/
namespace Stallwatch.Json

open Text

abbrev OneLine (text : List Char) : Prop := '\n' ∉ text

abbrev Printed (text : List Char) : Prop := text.all (fun c => 0x20 ≤ c.toNat) = true

theorem Printed.without {text : List Char} (printed : Printed text) {c : Char}
    (control : c.toNat < 0x20) : c ∉ text := by
  intro member
  have plain := List.all_eq_true.mp printed c member
  rw [decide_eq_true_eq] at plain
  omega

theorem Printed.oneLine {text : List Char} (printed : Printed text) : OneLine text :=
  printed.without (by decide)

theorem Printed.cons {c : Char} {text : List Char} (plain : Unescaped c) (rest : Printed text) :
    Printed (c :: text) := by
  rw [Printed, List.all_cons, rest, Bool.and_true, decide_eq_true_eq]
  exact plain

theorem Printed.append {text rest : List Char} (first : Printed text) (second : Printed rest) :
    Printed (text ++ rest) := by
  rw [Printed, List.all_append, first, second, Bool.and_true]

theorem printed_number {text : List Char} (all : text.all isNumberChar = true) : Printed text := by
  rw [Printed, List.all_eq_true] at *
  intro c member
  have number := all c member
  simp only [isNumberChar, Bool.or_eq_true, decide_eq_true_eq, List.mem_cons, List.not_mem_nil,
    or_false] at number
  rcases number with digit | rfl | rfl | rfl | rfl | rfl
  · simp only [Char.isDigit, Bool.and_eq_true, decide_eq_true_eq, ge_iff_le,
      UInt32.le_iff_toNat_le] at digit
    have low : 48 ≤ c.toNat := digit.1
    rw [decide_eq_true_eq]
    omega
  all_goals decide

theorem printed_decimal (n : ℕ) : Printed (decimal n) :=
  printed_number (number_digits (decimal_all n))

theorem printed_format (digits : ℕ) (x : F64) : Printed (F64.format digits x) := by
  cases x with
  | nan => rfl
  | infinite negative => cases negative <;> rfl
  | finite negative q => exact printed_number (number_format digits rfl)

theorem Spells.printed {p : List Char} {c : Char} (piece : Spells p c) : Printed p := by
  cases piece with
  | raw _ _ plain => exact Printed.cons plain rfl
  | @short e c known =>
    unfold shortEscape at known
    split at known <;> first | rfl | contradiction
  | @unicode digits c _ point =>
    have plain : Printed digits := by
      rw [Printed, List.all_eq_true]
      intro d member
      rw [decide_eq_true_eq]
      exact (hex_plain (List.all_eq_true.mp point.1 d member)).2.2
    exact (plain.cons (by decide)).cons (by decide)

theorem printed_spelled {t s : List Char} (spelled : Spelled Spells t s) : Printed t := by
  induction spelled with
  | nil => rfl
  | cons piece _ ih => exact (Spells.printed piece).append ih

/- An escaper lets no control character through. -/
theorem Escaper.printed {write : List Char → List Char} (escaper : Escaper write) (s : List Char) :
    Printed (write s) := by
  obtain ⟨body, same, spelled⟩ := escaper.quoted s
  rw [same]
  exact ((printed_spelled spelled).append rfl).cons (by decide)

theorem printed_bare {w : String} (plain : jstr w.toList = bare w) : Printed (bare w) :=
  plain ▸ jstr_escaper.printed w.toList

theorem printed_boolText (b : Bool) : Printed (boolText b) := by cases b <;> rfl

theorem printed_join {texts : List (List Char)} (each : ∀ t ∈ texts, Printed t) :
    Printed (join texts) := by
  induction texts with
  | nil => rfl
  | cons t ts ih =>
    have rest := ih fun u member => each u (by simp [member])
    cases ts with
    | nil => exact each t (by simp)
    | cons u ts => exact (each t (by simp)).append (rest.cons (by decide))

theorem printed_list {α : Type} {write : α → List Char} (each : ∀ x, Printed (write x))
    (xs : List α) : Printed (list (xs.map write)) := by
  have inside : Printed (join (xs.map write)) := by
    apply printed_join
    simp only [List.forall_mem_map]
    exact fun x _ => each x
  exact (inside.append rfl).cons (by decide)

/- A plain name is its own escaped text. -/
theorem printed_record {fields : List (String × List Char)}
    (plain : ∀ e ∈ fields, jstr e.1.toList = bare e.1) (each : ∀ e ∈ fields, Printed e.2) :
    Printed (record fields) := by
  have inside : Printed (join (fields.map member)) := by
    apply printed_join
    simp only [List.forall_mem_map]
    intro e member
    exact (printed_bare (plain e member)).append ((each e member).cons (by decide))
  exact (inside.append rfl).cons (by decide)

end Stallwatch.Json
