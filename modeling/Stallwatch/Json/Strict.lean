import Stallwatch.Json.Sound

/-! Where the reader's language is larger than that of RFC 8259: in how a number, an escape
and a raw character of a string may be spelled, and nowhere else. -/
namespace Stallwatch.Json

open Text

/-- Where a scan of the characters stands. -/
inductive Mode where
  | outside | number | inside | escaped

def startsNumber (c : Char) : Bool := c.isDigit || c ∈ ['+', '-', '.']

/-- Outside of strings every run of the characters of a number, from its first on, is a
number of RFC 8259; inside of them four hexadecimal digits follow each `\u`, and no control
character stands for itself. -/
def Strict : Mode → List Char → Prop
  | _, [] => True
  | .outside, c :: cs =>
    if c = '"' then Strict .inside cs
    else if startsNumber c then IsNumber (c :: cs.takeWhile isNumberChar) ∧ Strict .number cs
    else Strict .outside cs
  | .number, c :: cs =>
    if isNumberChar c then Strict .number cs
    else if c = '"' then Strict .inside cs
    else Strict .outside cs
  | .inside, c :: cs =>
    if c = '"' then Strict .outside cs
    else if c = '\\' then Strict .escaped cs
    else Unescaped c ∧ Strict .inside cs
  | .escaped, c :: cs =>
    (c = 'u' → (cs.take 4).all isHex = true) ∧ Strict .inside cs

/-- No number goes on into the rest. -/
def Ended (rest : List Char) : Prop := ∀ c ∈ rest.head?, isNumberChar c = false

theorem startsNumber_char {c : Char} (start : startsNumber c = true) : isNumberChar c = true := by
  simp only [startsNumber, isNumberChar, Bool.or_eq_true, decide_eq_true_eq, List.mem_cons,
    List.not_mem_nil, or_false] at start ⊢
  tauto

@[simp] theorem strict_nil (mode : Mode) : Strict mode [] := by cases mode <;> trivial

theorem strict_plain {c : Char} (quote : c ≠ '"') (start : startsNumber c = false) (cs : List Char) :
    Strict .outside (c :: cs) ↔ Strict .outside cs := by
  rw [Strict, if_neg quote, if_neg (by simp [start])]

theorem strict_plains {t : List Char} (plain : ∀ c ∈ t, c ≠ '"' ∧ startsNumber c = false)
    (rest : List Char) : Strict .outside (t ++ rest) ↔ Strict .outside rest := by
  induction t with
  | nil => rfl
  | cons c t ih =>
    obtain ⟨first, others⟩ := List.forall_mem_cons.mp plain
    rw [List.cons_append, strict_plain first.1 first.2, ih others]

theorem strict_blank {w : List Char} (blank : Blank w) (rest : List Char) :
    Strict .outside (w ++ rest) ↔ Strict .outside rest := by
  apply strict_plains
  intro c member
  have inside := List.all_eq_true.mp blank c member
  simp only [isBlank, decide_eq_true_eq, List.mem_cons, List.not_mem_nil, or_false] at inside
  rcases inside with rfl | rfl | rfl | rfl <;> decide

theorem strict_ended {rest : List Char} (ended : Ended rest) :
    Strict .number rest ↔ Strict .outside rest := by
  cases rest with
  | nil => simp
  | cons c rest =>
    have stop : isNumberChar c = false := ended c rfl
    have start : startsNumber c = false := by
      by_contra start
      rw [startsNumber_char (by simpa using start)] at stop
      contradiction
    rw [Strict, Strict, if_neg (by simp [stop])]
    simp [start]

theorem strict_run {t rest : List Char} (all : t.all isNumberChar = true) (ended : Ended rest) :
    Strict .number (t ++ rest) ↔ Strict .outside rest := by
  induction t with
  | nil => exact strict_ended ended
  | cons c t ih =>
    rw [List.all_cons, Bool.and_eq_true] at all
    rw [List.cons_append, Strict, if_pos all.1, ih all.2]

/-- A token that a scan takes for a number. -/
structure Token (t : List Char) : Prop where
  all : t.all isNumberChar = true
  starts : ∃ c cs, t = c :: cs ∧ startsNumber c = true

theorem strict_token {t rest : List Char} (token : Token t) (ended : Ended rest) :
    Strict .outside (t ++ rest) ↔ IsNumber t ∧ Strict .outside rest := by
  obtain ⟨all, c, cs, rfl, start⟩ := token
  rw [List.all_cons, Bool.and_eq_true] at all
  have quote : c ≠ '"' := by
    rintro rfl
    contradiction
  have run : (cs ++ rest).takeWhile isNumberChar = cs := by
    rw [List.takeWhile_append_of_pos (List.all_eq_true.mp all.2)]
    cases rest with
    | nil => simp
    | cons d rest => simp [ended d rfl]
  rw [List.cons_append, Strict, if_neg quote, if_pos start, run, strict_run all.2 ended]

theorem digits_token {c : Char} {cs : List Char} (digit : c.isDigit = true)
    (all : cs.all isNumberChar = true) : Token (c :: cs) := by
  refine ⟨?_, c, cs, rfl, ?_⟩
  · rw [List.all_cons, all, isNumberChar, digit]
    rfl
  · rw [startsNumber, digit]
    rfl

/- An exponent does not make a number alone. -/
theorem loose_token {f : Rounding} {t : List Char} {n : F64} (number : (loose f).number t n) :
    Token t := by
  obtain ⟨all, parsed⟩ := number
  cases t with
  | nil => contradiction
  | cons c cs =>
    refine ⟨all, c, cs, rfl, ?_⟩
    rw [List.all_cons, Bool.and_eq_true] at all
    have first := all.1
    simp only [isNumberChar, Bool.or_eq_true, decide_eq_true_eq, List.mem_cons, List.not_mem_nil,
      or_false] at first
    rcases first with digit | rfl | rfl | rfl | rfl | rfl
    · rw [startsNumber, digit]
      rfl
    · rfl
    · contradiction
    · contradiction
    · rfl
    · rfl

theorem isNumber_token {t : List Char} (number : IsNumber t) : Token t := by
  obtain ⟨sign, int, frac, exp, signed, whole, part, power, rfl⟩ := number
  have run : ∀ {ds}, Digits ds → ds.all isNumberChar = true := fun digits => number_digits digits.2
  have fracs : frac.all isNumberChar = true := by
    cases part with
    | none => rfl
    | some digits => rw [List.all_cons, run digits]; rfl
  have exps : exp.all isNumberChar = true := by
    cases power with
    | none => rfl
    | some letter sign digits =>
      rw [List.all_cons, List.all_append, run digits]
      simp only [List.mem_cons, List.not_mem_nil, or_false] at sign
      rcases letter with rfl | rfl <;> rcases sign with rfl | rfl | rfl <;> rfl
  have unsigned : Token (int ++ (frac ++ exp)) := by
    cases whole with
    | zero => exact digits_token rfl (by simp [fracs, exps])
    | digits digit _ others => exact digits_token digit (by simp [number_digits others, fracs, exps])
  simp only [List.mem_cons, List.not_mem_nil, or_false] at signed
  rcases signed with rfl | rfl
  · exact unsigned
  · exact ⟨unsigned.all, '-', _, rfl, rfl⟩

abbrev StrictPiece : List Char → Char → Prop :=
  Piece Unescaped fun digits _ => digits.all isHex = true

theorem strict_inside {c : Char} (quote : c ≠ '"') (backslash : c ≠ '\\') (cs : List Char) :
    Strict .inside (c :: cs) ↔ Unescaped c ∧ Strict .inside cs := by
  rw [Strict, if_neg quote, if_neg backslash]

theorem strict_hex {digits : List Char} (hex : digits.all isHex = true) (rest : List Char) :
    Strict .inside (digits ++ rest) ↔ Strict .inside rest := by
  induction digits with
  | nil => rfl
  | cons d ds ih =>
    rw [List.all_cons, Bool.and_eq_true] at hex
    obtain ⟨quote, backslash, plain⟩ := hex_plain hex.1
    rw [List.cons_append, strict_inside quote backslash, ih hex.2, and_iff_right plain]

/- Of a piece that is spelled in any way the scan asks for what the grammar asks. -/
theorem strict_piece {raw : Char → Prop} {hex : List Char → Char → Prop} {p : List Char} {c : Char}
    (piece : Piece raw hex p c) (rest : List Char) :
    Strict .inside (p ++ rest) ↔ StrictPiece p c ∧ Strict .inside rest := by
  cases piece with
  | raw quote backslash _ =>
    rw [List.singleton_append, strict_inside quote backslash]
    refine and_congr_left fun _ => ⟨.raw quote backslash, ?_⟩
    rintro (⟨_, _, plain⟩)
    exact plain
  | @short e c known =>
    have other : e ≠ 'u' := by
      rintro rfl
      contradiction
    have opened : Strict .inside ('\\' :: e :: rest) ↔ Strict .inside rest := by
      rw [Strict, if_neg (by decide), if_pos rfl, Strict, and_iff_right fun same => absurd same other]
    exact opened.trans (and_iff_right (.short known)).symm
  | @unicode digits c four _ =>
    have taken : (digits ++ rest).take 4 = digits := by rw [← four, List.take_left]
    have opened : Strict .inside ('\\' :: 'u' :: (digits ++ rest)) ↔
        digits.all isHex = true ∧ Strict .inside (digits ++ rest) := by
      rw [Strict, if_neg (by decide), if_pos rfl, Strict, taken, forall_prop_of_true rfl]
    refine opened.trans ⟨?_, ?_⟩
    · rintro ⟨hex, inside⟩
      exact ⟨.unicode four hex, (strict_hex hex rest).mp inside⟩
    · rintro ⟨piece, inside⟩
      cases piece with
      | short _ => contradiction
      | unicode _ hex => exact ⟨hex, (strict_hex hex rest).mpr inside⟩

theorem strict_spelled {raw : Char → Prop} {hex : List Char → Char → Prop} {t s : List Char}
    (spelled : Spelled (Piece raw hex) t s) {rest : List Char}
    (strict : Strict .inside (t ++ '"' :: rest)) : Spelled StrictPiece t s ∧ Strict .outside rest := by
  induction spelled with
  | nil => exact ⟨.nil, strict⟩
  | cons piece _ ih =>
    rw [List.append_assoc, strict_piece piece] at strict
    obtain ⟨others, outside⟩ := ih strict.2
    exact ⟨.cons strict.1 others, outside⟩

theorem spelled_strict {t s : List Char} (spelled : Spelled StrictPiece t s) {rest : List Char}
    (outside : Strict .outside rest) : Strict .inside (t ++ '"' :: rest) := by
  induction spelled with
  | nil => exact outside
  | cons piece _ ih =>
    rw [List.append_assoc, strict_piece piece]
    exact ⟨piece, ih⟩

theorem strict_quoted {raw : Char → Prop} {hex : List Char → Char → Prop} {t s : List Char}
    (quoted : Quoted (Piece raw hex) t s) {rest : List Char} (strict : Strict .outside (t ++ rest)) :
    Quoted StrictPiece t s ∧ Strict .outside rest := by
  obtain ⟨body, rfl, spelled⟩ := quoted
  rw [List.cons_append, List.append_assoc, Strict, if_pos rfl] at strict
  obtain ⟨spelled, outside⟩ := strict_spelled spelled strict
  exact ⟨⟨body, rfl, spelled⟩, outside⟩

theorem quoted_strict {t s : List Char} (quoted : Quoted StrictPiece t s) {rest : List Char}
    (outside : Strict .outside rest) : Strict .outside (t ++ rest) := by
  obtain ⟨body, rfl, spelled⟩ := quoted
  rw [List.cons_append, List.append_assoc, Strict, if_pos rfl]
  exact spelled_strict spelled outside

theorem ended_char {c : Char} (other : isNumberChar c = false) (rest : List Char) :
    Ended (c :: rest) := by
  rintro d ⟨rfl⟩
  exact other

theorem ended_blank {w rest : List Char} (blank : Blank w) (ended : Ended rest) :
    Ended (w ++ rest) := by
  cases w with
  | nil => exact ended
  | cons c w =>
    apply ended_char
    rw [Blank, List.all_cons, Bool.and_eq_true] at blank
    have first := blank.1
    simp only [isBlank, decide_eq_true_eq, List.mem_cons, List.not_mem_nil, or_false] at first
    rcases first with rfl | rfl | rfl | rfl <;> rfl

/- Brackets, braces, commas and colons are plain to the scan. -/
theorem strict_enclosed {c d : Char} (opens : c = '[' ∨ c = '{') (t rest : List Char) :
    Strict .outside (c :: (t ++ [d]) ++ rest) ↔ Strict .outside (t ++ d :: rest) := by
  rw [List.cons_append, List.append_assoc]
  rcases opens with rfl | rfl
  · exact strict_plain (by decide) rfl _
  · exact strict_plain (by decide) rfl _

theorem strict_close {d : Char} (closes : d = ']' ∨ d = '}') (rest : List Char) :
    Strict .outside (d :: rest) ↔ Strict .outside rest := by
  rcases closes with rfl | rfl
  · exact strict_plain (by decide) rfl _
  · exact strict_plain (by decide) rfl _

theorem strict_empty {c d : Char} (opens : c = '[' ∨ c = '{') (closes : d = ']' ∨ d = '}')
    {w : List Char} (blank : Blank w) (rest : List Char) :
    Strict .outside (c :: (w ++ [d]) ++ rest) ↔ Strict .outside rest := by
  rw [strict_enclosed opens, strict_blank blank, strict_close closes]

theorem strict_comma (rest : List Char) : Strict .outside (',' :: rest) ↔ Strict .outside rest :=
  strict_plain (by decide) rfl rest

theorem strict_colon {w : List Char} (blank : Blank w) (t rest : List Char) :
    Strict .outside (w ++ ':' :: t ++ rest) ↔ Strict .outside (t ++ rest) := by
  rw [List.append_assoc, strict_blank blank, List.cons_append, strict_plain (by decide) rfl]

theorem ended_close {d : Char} (closes : d = ']' ∨ d = '}') (rest : List Char) : Ended (d :: rest) := by
  rcases closes with rfl | rfl
  · exact ended_char rfl rest
  · exact ended_char rfl rest

/- The scan of a text the reader takes finds the tokens of its derivation. -/
theorem strict_derives {f : Rounding} {n : Nonterminal} {t : List Char} {m : Meaning n}
    (h : Derives (loose f) n t m) : ∀ rest, Ended rest → Strict .outside (t ++ rest) →
      Derives rfc n t m ∧ Strict .outside rest := by
  induction h with
  | null => exact fun rest _ strict => ⟨.null, strict⟩
  | true => exact fun rest _ strict => ⟨.true, strict⟩
  | false => exact fun rest _ strict => ⟨.false, strict⟩
  | number number =>
    intro rest ended strict
    obtain ⟨number, outside⟩ := (strict_token (loose_token number) ended).mp strict
    exact ⟨.number number, outside⟩
  | string quoted =>
    intro rest _ strict
    obtain ⟨quoted, outside⟩ := strict_quoted quoted strict
    exact ⟨.string quoted, outside⟩
  | emptyArray blank =>
    intro rest _ strict
    exact ⟨.emptyArray blank, (strict_empty (.inl rfl) (.inl rfl) blank rest).mp strict⟩
  | array _ ih =>
    intro rest _ strict
    rw [strict_enclosed (.inl rfl)] at strict
    obtain ⟨elements, outside⟩ := ih _ (ended_close (.inl rfl) rest) strict
    exact ⟨.array elements, (strict_close (.inl rfl) rest).mp outside⟩
  | emptyObject blank =>
    intro rest _ strict
    exact ⟨.emptyObject blank, (strict_empty (.inr rfl) (.inr rfl) blank rest).mp strict⟩
  | object _ ih =>
    intro rest _ strict
    rw [strict_enclosed (.inr rfl)] at strict
    obtain ⟨members, outside⟩ := ih _ (ended_close (.inr rfl) rest) strict
    exact ⟨.object members, (strict_close (.inr rfl) rest).mp outside⟩
  | element before _ after ih =>
    intro rest ended strict
    rw [List.append_assoc, List.append_assoc, strict_blank before] at strict
    obtain ⟨value, outside⟩ := ih _ (ended_blank after ended) strict
    exact ⟨.element before value after, (strict_blank after rest).mp outside⟩
  | last _ ih =>
    intro rest ended strict
    obtain ⟨element, outside⟩ := ih rest ended strict
    exact ⟨.last element, outside⟩
  | more _ _ first others =>
    intro rest ended strict
    rw [List.append_assoc, List.cons_append] at strict
    obtain ⟨element, outside⟩ := first _ (ended_char rfl _) strict
    obtain ⟨elements, outside⟩ := others rest ended ((strict_comma _).mp outside)
    exact ⟨.more element elements, outside⟩
  | member before quoted after _ ih =>
    intro rest ended strict
    rw [List.append_assoc, List.append_assoc, strict_blank before] at strict
    obtain ⟨name, outside⟩ := strict_quoted quoted strict
    obtain ⟨value, outside⟩ := ih rest ended ((strict_colon after _ rest).mp outside)
    exact ⟨.member before name after value, outside⟩
  | lastMember _ ih =>
    intro rest ended strict
    obtain ⟨member, outside⟩ := ih rest ended strict
    exact ⟨.lastMember member, outside⟩
  | moreMembers _ _ first others =>
    intro rest ended strict
    rw [List.append_assoc, List.cons_append] at strict
    obtain ⟨member, outside⟩ := first _ (ended_char rfl _) strict
    obtain ⟨members, outside⟩ := others rest ended ((strict_comma _).mp outside)
    exact ⟨.moreMembers member members, outside⟩

/- The scan of a text of the grammar finds nothing to object to. -/
theorem rfc_strict {n : Nonterminal} {t : List Char} {m : Meaning n} (h : Derives rfc n t m) :
    ∀ rest, Ended rest → Strict .outside rest → Strict .outside (t ++ rest) := by
  induction h with
  | null => exact fun rest _ outside => outside
  | true => exact fun rest _ outside => outside
  | false => exact fun rest _ outside => outside
  | number number =>
    exact fun rest ended outside => (strict_token (isNumber_token number) ended).mpr ⟨number, outside⟩
  | string quoted => exact fun rest _ outside => quoted_strict quoted outside
  | emptyArray blank =>
    exact fun rest _ outside => (strict_empty (.inl rfl) (.inl rfl) blank rest).mpr outside
  | array _ ih =>
    intro rest _ outside
    rw [strict_enclosed (.inl rfl)]
    exact ih _ (ended_close (.inl rfl) rest) ((strict_close (.inl rfl) rest).mpr outside)
  | emptyObject blank =>
    exact fun rest _ outside => (strict_empty (.inr rfl) (.inr rfl) blank rest).mpr outside
  | object _ ih =>
    intro rest _ outside
    rw [strict_enclosed (.inr rfl)]
    exact ih _ (ended_close (.inr rfl) rest) ((strict_close (.inr rfl) rest).mpr outside)
  | element before _ after ih =>
    intro rest ended outside
    rw [List.append_assoc, List.append_assoc, strict_blank before]
    exact ih _ (ended_blank after ended) ((strict_blank after rest).mpr outside)
  | last _ ih => exact ih
  | more _ _ first others =>
    intro rest ended outside
    rw [List.append_assoc, List.cons_append]
    exact first _ (ended_char rfl _) ((strict_comma _).mpr (others rest ended outside))
  | member before quoted after _ ih =>
    intro rest ended outside
    rw [List.append_assoc, List.append_assoc, strict_blank before]
    exact quoted_strict quoted ((strict_colon after _ rest).mpr (ih rest ended outside))
  | lastMember _ ih => exact ih
  | moreMembers _ _ first others =>
    intro rest ended outside
    rw [List.append_assoc, List.cons_append]
    exact first _ (ended_char rfl _) ((strict_comma _).mpr (others rest ended outside))

theorem isText_strict {t : List Char} (text : IsText rfc t) : Strict .outside t := by
  obtain ⟨j, derived⟩ := text
  have strict := rfc_strict derived [] nofun (strict_nil _)
  rwa [List.append_nil] at strict

/-- The reader keeps to RFC 8259 on the texts without a token of its own, and on no others
of those that it takes. -/
theorem strict_iff (f : Rounding) (t : List Char) :
    ((∃ j, parse f t = .ok j) → IsText rfc t) ↔ (IsText (loose f) t → Strict .outside t) := by
  constructor
  · rintro keeps ⟨j, derived⟩
    exact isText_strict (keeps ⟨j, parse_derives derived⟩)
  · rintro strict ⟨j, read⟩
    have derived := derives_parse read
    have scanned := strict ⟨j, derived⟩
    rw [← List.append_nil t] at scanned
    exact ⟨j, (strict_derives derived [] nofun scanned).1⟩

theorem not_isNumber : ¬ IsNumber ['0', '1'] := by
  rintro ⟨sign, int, frac, exp, signed, whole, part, power, same⟩
  simp only [List.mem_cons, List.not_mem_nil, or_false] at signed
  rcases signed with rfl | rfl
  · cases whole with
    | zero =>
      cases part with
      | none =>
        cases power with
        | none => simp at same
        | some letter _ _ => rcases letter with rfl | rfl <;> simp at same
      | some _ => simp at same
    | digits _ lead _ => exact lead (List.cons.inj same).1.symm
  · simp at same

/-- The reader takes the text, and it is not one of RFC 8259. -/
def Lenient (f : Rounding) (t : List Char) : Prop := (∃ j, parse f t = .ok j) ∧ ¬ IsText rfc t

/- A zero too many, a raw newline, and a sign among the digits of an escape. -/
theorem not_strict : Lenient .exact ['0', '1'] ∧ Lenient .exact ['"', '\n', '"'] ∧
    Lenient .exact ['"', '\\', 'u', '+', '0', '4', '1', '"'] := by
  refine ⟨⟨⟨_, rfl⟩, ?_⟩, ⟨⟨_, rfl⟩, ?_⟩, ⟨⟨_, rfl⟩, ?_⟩⟩
  · intro text
    have strict := isText_strict text
    exact not_isNumber strict.1
  · intro text
    have strict := isText_strict text
    exact absurd strict.1 (by decide)
  · intro text
    have strict := isText_strict text
    exact absurd (strict.1 rfl) (by decide)

end Stallwatch.Json
