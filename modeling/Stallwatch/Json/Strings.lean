import Stallwatch.Json.Grammar
import Stallwatch.Json.Write

/-! How the reader reads strings: the pieces of one, and the texts the escapers write. -/
namespace Stallwatch.Json

open Utf8 Text

theorem bytes_ascii {c : Char} (ascii : c.toNat < 0x80) (cs : List Char) :
    bytes (c :: cs) = UInt8.ofNat c.toNat :: bytes cs := by
  rw [bytes_cons, encode_ascii ascii, List.singleton_append]

/- The first byte tells how many there are. -/
theorem utf8Len_encode {c : Char} {first : UInt8} {tail : List UInt8}
    (h : String.utf8EncodeChar c = first :: tail) : utf8Len first = tail.length + 1 := by
  have range := char_range c
  simp only [String.utf8EncodeChar, Char.toNat_val] at h
  split at h
  · cases h
    simp only [utf8Len, UInt8.toNat_ofNat']
    rw [if_pos (by omega)]
    rfl
  · split at h
    · cases h
      simp only [utf8Len, UInt8.toNat_ofNat']
      rw [if_neg (by omega), if_pos (by omega)]
      rfl
    · split at h
      · cases h
        simp only [utf8Len, UInt8.toNat_ofNat']
        rw [if_neg (by omega), if_neg (by omega), if_pos (by omega)]
        rfl
      · cases h
        simp only [utf8Len, UInt8.toNat_ofNat']
        rw [if_neg (by omega), if_neg (by omega), if_neg (by omega)]
        rfl

/- Any other character stands for itself. -/
theorem piece_plain {c : Char} (quote : c ≠ '"') (backslash : c ≠ '\\') (rest : List UInt8) :
    piece (String.utf8EncodeChar c ++ rest) = .ok (some [c], rest) := by
  obtain ⟨first, tail, he⟩ := List.exists_cons_of_ne_nil (encode_ne_nil c)
  have whole : fromUtf8 (first :: tail) = some [c] := by
    have decoded := fromUtf8_bytes [c]
    rwa [bytes_cons, bytes_nil, List.append_nil, he] at decoded
  have special : asChar first ≠ '"' ∧ asChar first ≠ '\\' := by
    by_cases ascii : c.toNat < 0x80
    · rw [encode_ascii ascii, List.cons.injEq] at he
      rw [← he.1, asChar_ascii ascii]
      exact ⟨quote, backslash⟩
    · obtain ⟨lead, tail', he', _, low, _⟩ := encode_wide (not_lt.mp ascii)
      rw [he', List.cons.injEq] at he
      rw [← asChar_toNat, he.1] at low
      constructor
      · intro h
        rw [h] at low
        exact absurd low (by decide)
      · intro h
        rw [h] at low
        exact absurd low (by decide)
  have length := utf8Len_encode he
  rw [he, List.cons_append, piece]
  split
  · exact absurd ‹_› special.1
  · exact absurd ‹_› special.2
  · have taken : (first :: (tail ++ rest)).take (utf8Len first) = first :: tail := by
      rw [length, List.take_succ_cons, List.take_left]
    have dropped : (first :: (tail ++ rest)).drop (utf8Len first) = rest := by
      rw [length, List.drop_succ_cons, List.drop_left]
    rw [taken, dropped, whole, if_neg]
    rw [length, List.length_cons, List.length_append]
    omega

/-- The code point of a `\u` escape, from the radix parser. -/
def codePoint (digits : List Char) (c : Char) : Prop := ∃ n, parseHex 32 digits = some n ∧ fromU32 n = some c

/-- The text is read as one character of a string. -/
def PieceRead (p : List Char) (c : Char) : Prop :=
  ∀ rest, piece (bytes p ++ rest) = .ok (some [c], rest)

theorem bytes_length_ascii {cs : List Char} (ascii : ∀ c ∈ cs, c.toNat < 0x80) :
    (bytes cs).length = cs.length := by
  induction cs with
  | nil => rfl
  | cons c cs ih =>
    obtain ⟨first, rest⟩ := List.forall_mem_cons.mp ascii
    rw [bytes_ascii first, List.length_cons, List.length_cons, ih rest]

theorem piece_unicode {digits : List Char} {c : Char} (four : digits.length = 4)
    (point : codePoint digits c) : PieceRead ('\\' :: 'u' :: digits) c := by
  obtain ⟨n, value, valid⟩ := point
  have length : (bytes digits).length = 4 := (bytes_length_ascii (parseHex_ascii value)).trans four
  intro rest
  have taken : (bytes digits ++ rest).take 4 = bytes digits := by
    rw [← length, List.take_left]
  have dropped : (bytes digits ++ rest).drop 4 = rest := by
    rw [← length, List.drop_left]
  have read : unicode (bytes digits ++ rest) = .ok (c, rest) := by
    have long : ¬ (bytes digits ++ rest).length < 4 := by
      rw [List.length_append, length]
      omega
    rw [unicode, if_neg long, taken, fromUtf8_bytes, Option.bind_some, value]
    simp only [valid, dropped]
  change (escape (117 :: (bytes digits ++ rest)) >>= fun r => pure (some [r.1], r.2)) = _
  change (unicode (bytes digits ++ rest) >>= fun r => pure (some [r.1], r.2)) = _
  rw [read]
  rfl

theorem piece_short {e c : Char} (short : shortEscape e = some c) : PieceRead ['\\', e] c := by
  intro rest
  unfold shortEscape at short
  split at short <;> cases short <;> rfl

theorem piece_loose {p : List Char} {c : Char} (piece : Piece (fun _ => True) codePoint p c) :
    PieceRead p c := by
  cases piece with
  | raw quote backslash _ =>
    intro rest
    rw [bytes_cons, bytes_nil, List.append_nil]
    exact piece_plain quote backslash rest
  | short short => exact piece_short short
  | unicode four point => exact piece_unicode four point

theorem hex_plain {c : Char} (hex : isHex c = true) : c ≠ '"' ∧ c ≠ '\\' ∧ Unescaped c := by
  obtain ⟨n, digit⟩ := Option.isSome_iff_exists.mp hex
  have range := hexDigit_range digit
  refine ⟨?_, ?_, ?_⟩
  · rintro rfl
    exact absurd range (by decide)
  · rintro rfl
    exact absurd range (by decide)
  · omega

theorem hex4_digits : ∀ n < 0x20, (hex4 n).length = 4 ∧ (hex4 n).all isHex = true ∧
    parseHex 32 (hex4 n) = some n := by
  decide

theorem hex4_point {c : Char} (control : c.toNat < 0x20) : codePoint (hex4 c.toNat) c := by
  have inside : c.toNat.isValidChar := .inl (by omega)
  exact ⟨c.toNat, (hex4_digits c.toNat control).2.2, by rw [fromU32, if_pos inside, Char.ofNat_toNat]⟩

/-- A table of short escapes of the grammar, with an entry for every character that must
not stand for itself. -/
structure Escapes (short : List (Char × List Char)) : Prop where
  known : ∀ entry ∈ short, ∃ e, entry.2 = ['\\', e] ∧ shortEscape e = some entry.1
  quote : (short.lookup '"').isSome = true
  backslash : (short.lookup '\\').isSome = true

/-- The strict pieces of a string, with what they stand for. -/
abbrev Spells : List Char → Char → Prop :=
  Piece Unescaped fun digits c => digits.all isHex = true ∧ codePoint digits c

theorem escapeChar_spells {short : List (Char × List Char)} (escapes : Escapes short) (c : Char) :
    Spells (escapeChar short c) c := by
  unfold escapeChar
  split
  · rename_i escaped known
    obtain ⟨before, after, rfl, _⟩ := List.lookup_eq_some_iff.mp known
    obtain ⟨e, rfl, short⟩ := escapes.known (c, escaped) (by simp)
    exact .short short
  · rename_i unknown
    split
    · rename_i control
      obtain ⟨four, hex, _⟩ := hex4_digits c.toNat control
      exact .unicode four ⟨hex, hex4_point control⟩
    · rename_i plain
      apply Piece.raw
      · rintro rfl
        simpa [unknown] using escapes.quote
      · rintro rfl
        simpa [unknown] using escapes.backslash
      · exact not_lt.mp plain

/-- The writer is an escaper with such a table. -/
def Escaper (write : List Char → List Char) : Prop :=
  ∃ short, Escapes short ∧ write = quoteWith short

theorem jsonStr_escaper : Escaper jsonStr := by
  refine ⟨_, ⟨?_, rfl, rfl⟩, rfl⟩
  simp only [List.forall_mem_cons]
  exact ⟨⟨_, rfl, rfl⟩, ⟨_, rfl, rfl⟩, ⟨_, rfl, rfl⟩, ⟨_, rfl, rfl⟩, ⟨_, rfl, rfl⟩, List.forall_mem_nil _⟩

theorem jstr_escaper : Escaper jstr := by
  refine ⟨_, ⟨?_, rfl, rfl⟩, rfl⟩
  simp only [List.forall_mem_cons]
  exact ⟨⟨_, rfl, rfl⟩, ⟨_, rfl, rfl⟩, ⟨_, rfl, rfl⟩, List.forall_mem_nil _⟩

theorem Escaper.quoted {write : List Char → List Char} (escaper : Escaper write) (s : List Char) :
    Quoted Spells (write s) s := by
  obtain ⟨short, escapes, rfl⟩ := escaper
  exact ⟨_, rfl, spelled_flatMap (escapeChar_spells escapes) s⟩

/-- The text, with its quotes, is read as the string `s`. -/
def Quotes (text s : List Char) : Prop := ∀ rest, string (bytes text ++ rest) = .ok (s, rest)

/- The loop takes one turn for each character. -/
theorem stringFrom_spelled {t s : List Char} (spelled : Spelled PieceRead t s) :
    ∀ fuel acc rest, s.length < fuel →
      stringFrom fuel acc (bytes (t ++ ['"']) ++ rest) = .ok (acc ++ s, rest) := by
  induction spelled with
  | nil =>
    intro fuel acc rest enough
    obtain ⟨fuel, rfl⟩ := Nat.exists_eq_add_of_le' (by omega : 1 ≤ fuel)
    simp only [List.append_nil]
    rfl
  | @cons p t s c read _ ih =>
    intro fuel acc rest enough
    obtain ⟨fuel, rfl⟩ := Nat.exists_eq_add_of_le' (by omega : 1 ≤ fuel)
    simp only [List.length_cons] at enough
    rw [List.append_assoc, bytes_append, List.append_assoc, stringFrom, read]
    simp only [Outcome.ok_bind]
    rw [ih fuel (acc ++ [c]) rest (by omega), List.append_assoc]
    rfl

theorem spelled_length {t s : List Char} (spelled : Spelled PieceRead t s) :
    s.length ≤ (bytes t).length := by
  induction spelled with
  | nil => simp
  | @cons p t s c read _ ih =>
    have filled : 1 ≤ (bytes p).length := by
      have first := read []
      cases h : bytes p with
      | nil => simp [h, piece] at first
      | cons b bs => simp
    rw [bytes_append, List.length_append, List.length_cons]
    omega

theorem quotes_quoted {t s : List Char} (quoted : Quoted PieceRead t s) : Quotes t s := by
  obtain ⟨body, rfl, spelled⟩ := quoted
  have fits := spelled_length spelled
  intro rest
  have read := stringFrom_spelled spelled (bytes ('"' :: (body ++ ['"'])) ++ rest).length [] rest
    (by rw [bytes_ascii (by decide)]; simp; omega)
  rw [string, bytes_ascii (by decide)] at *
  exact read

theorem Quoted.quotes {t s : List Char} (quoted : Quoted (Piece (fun _ => True) codePoint) t s) :
    Quotes t s :=
  quotes_quoted (quoted.mono fun _ _ => piece_loose)

theorem Escaper.quotes {write : List Char → List Char} (escaper : Escaper write) (s : List Char) :
    Quotes (write s) s :=
  ((escaper.quoted s).mono (Piece.mono (fun _ _ => trivial) fun _ _ => And.right)).quotes

theorem bare_quotes {w : String} (plain : jstr w.toList = bare w) : Quotes (bare w) w.toList :=
  plain ▸ jstr_escaper.quotes w.toList

end Stallwatch.Json
