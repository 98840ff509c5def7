import Stallwatch.Filter.Grammar
import Stallwatch.Filter.Items

/-! When the lexer cuts a character in two. A torn character is one whose first byte,
cast to a character, continues a word while one of its later bytes does not. -/
namespace Stallwatch.Filter

open Text Utf8

theorem isWordByte_ascii {b : UInt8} {c : Char} (h : asChar b = c) :
    isWordByte b = (isAlphanumeric c || c == '_' || c == '.' || c == '-') := by
  rw [← h]
  rfl

theorem torn_wide {d : Char} (torn : isTorn d = true) : 0x80 ≤ d.toNat := by
  by_contra narrow
  have one := encode_ascii (not_le.mp narrow)
  cases word : isWordByte (UInt8.ofNat d.toNat) with
  | true => simp [isTorn, isWordChar, one, word] at torn
  | false => simp [isTorn, one, word] at torn

theorem torn_alphabetic {d : Char} (torn : isTorn d = true) : isAlphabetic (lead d) = true := by
  obtain ⟨b, tail, he⟩ := List.exists_cons_of_ne_nil (encode_ne_nil d)
  have wide := lead_wide (torn_wide torn)
  have first : asChar b = lead d := by simp [lead, he]
  simp only [isTorn, he, List.head?_cons, Option.any_some, Bool.and_eq_true] at torn
  have word := torn.2
  rw [isWordByte_ascii first] at word
  have other : ∀ c : Char, c.toNat < 0x80 → (lead d == c) = false := by
    intro c ascii
    rw [beq_eq_false_iff_ne]
    rintro rfl
    omega
  simp only [other '_' (by decide), other '.' (by decide), other '-' (by decide), Bool.or_false,
    isAlphanumeric] at word
  have digit : (lead d).isDigit = false := by
    rw [← Bool.not_eq_true]
    intro digit
    have range := isDigit_range digit
    omega
  simp only [digit, Bool.or_false, Bool.or_eq_true, beq_iff_eq, Bool.and_eq_true,
    decide_eq_true_eq] at word
  rcases word with (((word | high) | high) | high) | high
  · exact word
  · omega
  · omega
  · omega
  · omega

theorem twoOp_wide (c : Char) {d : Char} (wide : 0x80 ≤ d.toNat) : twoOp [c, d] = none := by
  cases h : twoOp [c, d] with
  | none => rfl
  | some op =>
    obtain ⟨x, y, same, _, narrow⟩ := twoOp_eq_some h
    cases same
    omega

theorem suffixScale_wide (rest : List Char) {d : Char} (wide : 0x80 ≤ d.toNat) (post : List Char) :
    suffixScale (rest ++ d :: post) = suffixScale rest := by
  have same : ∀ entry ∈ suffixTable,
      entry.1.isPrefixOf (rest ++ d :: post) = entry.1.isPrefixOf rest := by
    intro entry member
    have absent : d ∉ entry.1 := fun h => absurd (suffixTable_ascii entry member d h) (by omega)
    rw [Bool.eq_iff_iff, List.isPrefixOf_iff_prefix, List.isPrefixOf_iff_prefix]
    constructor
    · intro h
      have here : rest ++ [d] <+: rest ++ d :: post := ⟨post, by simp⟩
      rcases List.prefix_or_prefix_of_prefix h here with short | long
      · rcases List.prefix_concat_iff.mp short with last | short
        · rw [last] at absent
          simp at absent
        · exact short
      · exact absurd (long.subset (by simp)) absent
    · exact fun h => h.trans (List.prefix_append _ _)
  apply List.foldl_ext
  intro best entry member
  rw [same entry member]

theorem head_append (P : Char → Prop) (rest : List Char) {d : Char} (post : List Char) (wide : P d) :
    (∀ e ∈ (rest ++ d :: post).head?, P e) ↔ ∀ e ∈ rest.head?, P e := by
  cases rest with
  | nil => simpa using wide
  | cons x rest => simp

section
variable {f : Rounding} {used rest : List Char} {piece : Option (List Char × Kind)} {d : Char}
  (torn : isTorn d = true) (q : List Char)
include torn

theorem torn_word : isWordChar d = false := by
  simp only [isTorn, Bool.and_eq_true, Bool.not_eq_true'] at torn
  exact torn.1

/- A torn character behind a piece only matters to a word that reaches it. -/
theorem Item.extend (h : Item f used piece rest) :
    Item f used piece (rest ++ d :: q) ∨
      rest = [] ∧ ∃ c cs, used = c :: cs ∧ (isAlphabetic (lead c) = true ∨ lead c = '_') ∧
        used.all isWordChar = true := by
  have wide := torn_wide torn
  cases h with
  | space space ascii => exact .inl (.space space ascii)
  | quotation quote absent => exact .inl (.quotation quote absent)
  | two found => exact .inl (.two found)
  | one found other =>
    exact .inl (.one found ((head_append _ rest q (twoOp_wide _ wide)).mpr other))
  | lParen => exact .inl .lParen
  | rParen => exact .inl .rParen
  | number digit all stop number suffix =>
    left
    apply Item.number digit all ((head_append _ rest q (number_wide d wide)).mpr stop) number
    rw [suffixScale_wide rest wide, suffix]
  | scaled digit all stop number suffix =>
    left
    apply Item.scaled digit all _ number
    · rw [← List.append_assoc, suffixScale_wide _ wide, suffix]
    · rw [← List.append_assoc]
      exact (head_append _ _ q (number_wide d wide)).mpr stop
  | word start all stop =>
    cases rest with
    | nil => exact .inr ⟨rfl, _, _, rfl, start, all⟩
    | cons x rest => exact .inl (.word start all (by simpa using stop))

/- Nor does it matter to the piece that it is left out. -/
theorem Item.restrict (h : Item f used piece (rest ++ d :: q)) : Item f used piece rest := by
  have wide := torn_wide torn
  cases h with
  | space space ascii => exact .space space ascii
  | quotation quote absent => exact .quotation quote absent
  | two found => exact .two found
  | one found other => exact .one found ((head_append _ rest q (twoOp_wide _ wide)).mp other)
  | lParen => exact .lParen
  | rParen => exact .rParen
  | number digit all stop number suffix =>
    rw [suffixScale_wide rest wide] at suffix
    exact .number digit all ((head_append _ rest q (number_wide d wide)).mp stop) number suffix
  | scaled digit all stop number suffix =>
    rw [← List.append_assoc] at stop suffix
    rw [suffixScale_wide _ wide] at suffix
    exact .scaled digit all ((head_append _ _ q (number_wide d wide)).mp stop) number suffix
  | word start all stop =>
    apply Item.word start all
    intro e he
    cases rest with
    | nil => contradiction
    | cons x rest => exact stop e he

/- The slice that would be the word ends inside the torn character. -/
theorem munch_torn (i : ℕ) {c : Char} {cs : List Char}
    (start : isAlphabetic (lead c) = true ∨ lead c = '_') (all : (c :: cs).all isWordChar = true) :
    munch f i c (cs ++ d :: q) = .panic := by
  have stop := torn_word torn
  have after := (split_while (c :: cs) (d :: q) all (by simpa using stop)).2
  rw [List.cons_append] at after
  rw [munch_word f i start, after]
  exact if_pos torn

theorem scan_torn {p : List Char} (lexical : Lexical f p) (total : ℕ) :
    scan f total (p ++ d :: q) = .panic := by
  induction lexical with
  | nil =>
    have stop := torn_word torn
    have first : ((d :: q).dropWhile isWordChar).head?.any isTorn = true := by simp [stop, torn]
    rw [List.nil_append, scan_cons, munch_word f _ (.inl (torn_alphabetic torn)), if_pos first]
    rfl
  | @item used piece rest item _ ih =>
    rw [List.append_assoc]
    rcases item.extend torn q with longer | ⟨rfl, c, cs, rfl, start, all⟩
    · rw [scan_item longer, ih]
      rfl
    · rw [List.cons_append, List.nil_append, scan_cons, munch_torn torn q _ start all]
      rfl

end

/- Only a word can panic. -/
theorem munch_panic_start {f : Rounding} {i : ℕ} {c : Char} {post : List Char}
    (h : munch f i c post = .panic) : isAlphabetic (lead c) = true ∨ lead c = '_' := by
  unfold munch at h
  split at h
  · contradiction
  split at h
  · split at h
    · contradiction
    · contradiction
  split at h
  · contradiction
  · contradiction
  split at h
  · contradiction
  split at h
  · contradiction
  split at h
  · dsimp only at h
    split at h
    · contradiction
    · split at h
      · contradiction
      · contradiction
  split at h
  · assumption
  · contradiction

theorem munch_panic {f : Rounding} {i : ℕ} {c : Char} {post : List Char}
    (h : munch f i c post = .panic) :
    ∃ pre d q, c :: post = pre ++ d :: q ∧ isTorn d = true ∧ Lexical f pre := by
  have start := munch_panic_start h
  rw [munch_word f i start] at h
  split at h
  · rename_i torn
    have parts := List.takeWhile_append_dropWhile (p := isWordChar) (l := c :: post)
    cases after : (c :: post).dropWhile isWordChar with
    | nil => simp [after] at torn
    | cons d q =>
      rw [after] at parts torn
      refine ⟨_, d, q, parts.symm, torn, ?_⟩
      by_cases word : isWordChar c = true
      · have all := List.all_takeWhile (p := isWordChar) (l := post)
        rw [List.takeWhile_cons_of_pos word, ← List.append_nil (c :: _)]
        exact .item (.word start (by simp [word]) (by simp)) .nil
      · rw [List.takeWhile_cons_of_neg word]
        exact .nil
  · contradiction

theorem scan_panic {f : Rounding} {total : ℕ} {cs : List Char} (h : scan f total cs = .panic) :
    ∃ pre d q, cs = pre ++ d :: q ∧ isTorn d = true ∧ Lexical f pre := by
  induction cs using suffixInduction with
  | nil => simp at h
  | cons c post ih =>
    rw [scan_cons, Outcome.bind_eq_panic] at h
    rcases h with h | ⟨⟨token, rest⟩, turn, h⟩
    · exact munch_panic h
    · rw [Outcome.bind_eq_panic] at h
      rcases h with h | ⟨tail, _, h⟩
      · obtain ⟨pre, d, q, rfl, torn, lexical⟩ := ih rest (munch_rest turn) h
        obtain ⟨used, piece, whole, _, item⟩ := munch_item turn
        refine ⟨used ++ pre, d, q, ?_, torn, .item (item.restrict torn q) lexical⟩
        rw [whole, List.append_assoc]
      · contradiction

/-- Compiling never panics exactly when no torn character comes right after whole tokens. -/
theorem parse_safe_iff (f : Rounding) (input : List Char) :
    Filter.parse f input ≠ .panic ↔
      ∀ pre d q, input = pre ++ d :: q → isTorn d = true → ¬ Lexical f pre := by
  have lexer : Filter.parse f input = .panic ↔ lex f input = .panic := by
    unfold Filter.parse
    simp only [Outcome.bind_eq_panic, Outcome.pure_eq]
    constructor
    · rintro (h | ⟨tokens, _, h | ⟨root, _, h⟩⟩)
      · exact h
      · exact absurd h (parseTokens_sound tokens).1
      · contradiction
    · exact .inl
  rw [ne_eq, lexer, lex_eq]
  constructor
  · rintro safe pre d q rfl torn lexical
    exact safe (scan_torn torn q lexical _)
  · intro clean panics
    obtain ⟨pre, d, q, split, torn, lexical⟩ := scan_panic panics
    exact clean pre d q split torn lexical

/-- The bytes of `é` are `Ã` and `©` to the lexer, so the word ends between them. -/
theorem parse_accent : Filter.parse Rounding.exact ['é'] = .panic := by
  rfl

end Stallwatch.Filter
