import Stallwatch.Filter.Scan

/-! The lexical grammar: the pieces a text is made of. A turn of the scanner takes one of
them off the front, so the lexer is the scan over the whole text. -/
namespace Stallwatch.Filter

open Text Utf8

/-- A piece at the front of a text: its characters, the token it makes, and what follows. -/
inductive Item (f : Rounding) : List Char → Option (List Char × Kind) → List Char → Prop
  | space {c rest} : isWhitespace c = true → c.toNat < 0x80 → Item f [c] none rest
  | quotation {q body rest} : q = '"' ∨ q = '\'' → q ∉ body →
      Item f (q :: (body ++ [q])) (some (body, .str)) rest
  | two {c d op rest} : twoOp [c, d] = some op → Item f [c, d] (some ([c, d], .op op)) rest
  | one {c op rest} : oneOp c = some op → (∀ d ∈ rest.head?, twoOp [c, d] = none) →
      Item f [c] (some ([c], .op op)) rest
  | lParen {rest} : Item f ['('] (some (['('], .lParen)) rest
  | rParen {rest} : Item f [')'] (some ([')'], .rParen)) rest
  | number {c cs n rest} : c.isDigit = true → cs.all isNumberChar = true →
      (∀ d ∈ rest.head?, isNumberChar d = false) → F64.parse f (c :: cs) = some n →
      suffixScale rest = none → Item f (c :: cs) (some (c :: cs, .num n)) rest
  | scaled {c cs n suffix scale rest} : c.isDigit = true → cs.all isNumberChar = true →
      (∀ d ∈ (suffix ++ rest).head?, isNumberChar d = false) → F64.parse f (c :: cs) = some n →
      suffixScale (suffix ++ rest) = some (scale, suffix.length) →
      Item f (c :: (cs ++ suffix))
        (some (c :: (cs ++ suffix), .num (F64.mul f n (.finite false scale)))) rest
  | word {c cs rest} : isAlphabetic (lead c) = true ∨ lead c = '_' →
      (c :: cs).all isWordChar = true →
      (∀ d ∈ rest.head?, isWordChar d = false ∧ isTorn d = false) →
      Item f (c :: cs) (some (c :: cs, .word)) rest

/-- The token of a piece that starts at byte `i`. -/
def tokenAt (i : ℕ) (piece : List Char × Kind) : Token := ⟨piece.1, piece.2, i⟩

theorem split_while {p : Char → Bool} (used rest : List Char) (all : used.all p = true)
    (stop : ∀ d ∈ rest.head?, p d = false) :
    (used ++ rest).takeWhile p = used ∧ (used ++ rest).dropWhile p = rest := by
  rw [List.takeWhile_append_of_pos (List.all_eq_true.mp all),
    List.dropWhile_append_of_pos (List.all_eq_true.mp all)]
  cases rest with
  | nil => simp
  | cons d rest => simp [stop d rfl]

theorem head_dropWhile {p : Char → Bool} (cs : List Char) :
    ∀ d ∈ (cs.dropWhile p).head?, p d = false := by
  intro d hd
  have head := List.head?_dropWhile_not p cs
  rw [Option.mem_def.mp hd] at head
  exact head

theorem word_lead {c : Char} (h : isAlphabetic (lead c) ∨ lead c = '_') (clean : isTorn c = false) :
    isWordChar c = true := by
  obtain ⟨b, tail, he⟩ := List.exists_cons_of_ne_nil (encode_ne_nil c)
  have first : lead c = asChar b := by simp [lead, he]
  have word : isWordByte b = true := by
    rw [first] at h
    rcases h with h | h
    · simp [isWordByte, isAlphanumeric, h]
    · simp [isWordByte, h]
  simpa [isTorn, he, word] using clean


/- A quotation ends at the next quote of its kind. -/
theorem quotation_item (f : Rounding) {c q : Char} {post rest : List Char}
    (quote : lead c = '"' ∨ lead c = '\'') (whole : post.dropWhile (· ≠ c) = q :: rest) :
    ∃ used, c :: post = used ++ rest ∧
      Item f used (some (post.takeWhile (· ≠ c), .str)) rest := by
  have same : q = c := by
    have head := head_dropWhile (p := fun x => decide (x ≠ c)) post q (by rw [whole]; rfl)
    simpa using head
  subst same
  have parts := List.takeWhile_append_dropWhile (p := (· ≠ q)) (l := post)
  rw [whole] at parts
  have kind : q = '"' ∨ q = '\'' := quote.imp (lead_eq · (by decide)) (lead_eq · (by decide))
  have absent : q ∉ post.takeWhile (· ≠ q) := by
    intro h
    simpa using List.mem_takeWhile_imp h
  refine ⟨_, ?_, .quotation kind absent⟩
  simpa using parts.symm

/- The digit is the first character of the number. -/
theorem number_front {c : Char} (digit : (lead c).isDigit = true) (post : List Char) :
    c.isDigit = true ∧ (c :: post).takeWhile isNumberChar = c :: post.takeWhile isNumberChar ∧
      (c :: post).dropWhile isNumberChar = post.dropWhile isNumberChar := by
  have range := isDigit_range digit
  have ascii : c.toNat < 0x80 := by
    by_contra wide
    have high := lead_wide (not_lt.mp wide)
    omega
  rw [lead_ascii ascii] at digit
  have first : isNumberChar c = true := by simp [isNumberChar, digit]
  exact ⟨digit, List.takeWhile_cons_of_pos first, List.dropWhile_cons_of_pos first⟩

theorem numeral_item (f : Rounding) {c : Char} {post : List Char} {n : F64} (digit : (lead c).isDigit = true)
    (number : F64.parse f ((c :: post).takeWhile isNumberChar) = some n)
    (suffix : suffixScale ((c :: post).dropWhile isNumberChar) = none) :
    Item f ((c :: post).takeWhile isNumberChar) (some ((c :: post).takeWhile isNumberChar, .num n))
      ((c :: post).dropWhile isNumberChar) := by
  obtain ⟨digit, taken, left⟩ := number_front digit post
  rw [taken] at number ⊢
  rw [left] at suffix ⊢
  exact .number digit (List.all_takeWhile (p := isNumberChar)) (head_dropWhile post) number suffix

/- The suffix is taken from what the digits leave. -/
theorem scaled_item (f : Rounding) {c : Char} {post : List Char} {n : F64} {scale : ℚ≥0} {len : ℕ}
    (digit : (lead c).isDigit = true) (number : F64.parse f ((c :: post).takeWhile isNumberChar) = some n)
    (suffix : suffixScale ((c :: post).dropWhile isNumberChar) = some (scale, len)) :
    Item f ((c :: post).takeWhile isNumberChar ++ ((c :: post).dropWhile isNumberChar).take len)
      (some ((c :: post).takeWhile isNumberChar ++ ((c :: post).dropWhile isNumberChar).take len,
        .num (F64.mul f n (.finite false scale))))
      (((c :: post).dropWhile isNumberChar).drop len) := by
  obtain ⟨digit, taken, left⟩ := number_front digit post
  have width := (suffixScale_length suffix).1
  rw [taken] at number ⊢
  rw [left] at suffix width ⊢
  refine .scaled digit (List.all_takeWhile (p := isNumberChar)) ?_ number ?_
  · rw [List.take_append_drop]
    exact head_dropWhile post
  · rw [List.take_append_drop, width, suffix]

/- A word that is not torn off starts with a character of words. -/
theorem word_item (f : Rounding) {c : Char} {post : List Char}
    (start : isAlphabetic (lead c) = true ∨ lead c = '_')
    (clean : ¬ ((c :: post).dropWhile isWordChar).head?.any isTorn = true) :
    Item f ((c :: post).takeWhile isWordChar) (some ((c :: post).takeWhile isWordChar, .word))
      ((c :: post).dropWhile isWordChar) := by
  have first : isWordChar c = true := by
    by_contra other
    rw [List.dropWhile_cons_of_neg other] at clean
    exact other (word_lead start (by simpa using clean))
  rw [List.dropWhile_cons_of_pos first] at clean ⊢
  rw [List.takeWhile_cons_of_pos first]
  have all := List.all_takeWhile (p := isWordChar) (l := post)
  refine .word start (by simp [first]) fun d hd => ?_
  rw [Option.mem_def.mp hd] at clean
  exact ⟨head_dropWhile post d hd, by simpa using clean⟩

theorem munch_item {f : Rounding} {i : ℕ} {c : Char} {post rest : List Char} {token : Option Token}
    (h : munch f i c post = .ok (token, rest)) :
    ∃ used piece, c :: post = used ++ rest ∧ token = piece.map (tokenAt i) ∧ Item f used piece rest := by
  unfold munch at h
  split at h
  · rename_i space
    cases h
    have ascii := lead_space space
    rw [lead_ascii ascii] at space
    exact ⟨[c], none, rfl, rfl, .space space ascii⟩
  split at h
  · rename_i quote
    split at h
    · contradiction
    · rename_i q after whole
      cases h
      obtain ⟨used, split, item⟩ := quotation_item f quote whole
      exact ⟨used, _, split, rfl, item⟩
  split at h
  · rename_i d op two
    cases h
    obtain ⟨x, head, found⟩ := Option.bind_eq_some_iff.mp two
    obtain ⟨op', found, same⟩ := Option.map_eq_some_iff.mp found
    cases same
    obtain ⟨after, rfl⟩ := List.head?_eq_some_iff.mp head
    exact ⟨[c, d], _, rfl, rfl, .two found⟩
  · rename_i op two one
    cases h
    have ascii := oneOp_lead one
    rw [lead_ascii ascii] at one
    refine ⟨[c], _, rfl, rfl, .one one ?_⟩
    intro d hd
    simpa [Option.mem_def.mp hd] using two
  split at h
  · rename_i paren
    cases h
    cases lead_eq paren (by decide)
    exact ⟨_, _, rfl, rfl, .lParen⟩
  split at h
  · rename_i paren
    cases h
    cases lead_eq paren (by decide)
    exact ⟨_, _, rfl, rfl, .rParen⟩
  split at h
  · rename_i digit
    have parts := List.takeWhile_append_dropWhile (p := isNumberChar) (l := c :: post)
    dsimp only at h
    split at h
    · contradiction
    rename_i n number
    split at h
    · rename_i scale len suffix
      cases h
      refine ⟨_, _, ?_, rfl, scaled_item f digit number suffix⟩
      rw [List.append_assoc, List.take_append_drop, parts]
    · rename_i suffix
      cases h
      exact ⟨_, _, parts.symm, rfl, numeral_item f digit number suffix⟩
  split at h
  · rename_i start
    dsimp only at h
    split at h
    · contradiction
    · rename_i clean
      cases h
      exact ⟨_, _, List.takeWhile_append_dropWhile.symm, rfl, word_item f start clean⟩
  · contradiction

theorem isAlpha_range {c : Char} (h : c.isAlpha = true) :
    65 ≤ c.toNat ∧ c.toNat ≤ 90 ∨ 97 ≤ c.toNat ∧ c.toNat ≤ 122 := by
  have letters : c.isAlpha = (decide ('A'.val ≤ c.val ∧ c.val ≤ 'Z'.val) ||
      (decide ('a'.val ≤ c.val) && decide (c.val ≤ 'z'.val))) := rfl
  simp only [letters, Bool.or_eq_true, Bool.and_eq_true, decide_eq_true_eq,
    UInt32.le_iff_toNat_le] at h
  exact h

theorem letter_range {c : Char} (h : isAlphabetic c = true ∨ c = '_') :
    65 ≤ c.toNat ∧ c.toNat ≤ 90 ∨ c.toNat = 95 ∨ 97 ≤ c.toNat ∧ c.toNat ≤ 122 ∨
      0xAA ≤ c.toNat ∧ c.toNat ≤ 0xFF := by
  simp only [isAlphabetic, Bool.or_eq_true, Bool.and_eq_true, decide_eq_true_eq, beq_iff_eq] at h
  rcases h with ((((((alpha | h) | h) | h) | h) | h) | h) | rfl
  · have range := isAlpha_range alpha
    omega
  · omega
  · omega
  · omega
  · omega
  · omega
  · omega
  · decide

/-- A character a number or a word can start with. -/
def isPlain (c : Char) : Bool := isAlphabetic c || c == '_' || c.isDigit

theorem plain_range {c : Char} (h : isPlain c = true) :
    48 ≤ c.toNat ∧ c.toNat ≤ 57 ∨ 65 ≤ c.toNat ∧ c.toNat ≤ 90 ∨ c.toNat = 95 ∨
      97 ≤ c.toNat ∧ c.toNat ≤ 122 ∨ 0xAA ≤ c.toNat ∧ c.toNat ≤ 0xFF := by
  simp only [isPlain, Bool.or_eq_true, beq_iff_eq] at h
  exact h.symm.imp isDigit_range letter_range

theorem munch_plain (f : Rounding) (i : ℕ) {c : Char} (plain : isPlain (lead c) = true)
    (post : List Char) :
    munch f i c post =
      if (lead c).isDigit then
        let digits := (c :: post).takeWhile isNumberChar
        let rest := (c :: post).dropWhile isNumberChar
        match F64.parse f digits with
        | none => .err (notANumber i digits)
        | some n =>
          match suffixScale rest with
          | some (scale, len) =>
            .ok (some ⟨digits ++ rest.take len, .num (F64.mul f n (.finite false scale)), i⟩,
              rest.drop len)
          | none => .ok (some ⟨digits, .num n, i⟩, rest)
      else
        let rest := (c :: post).dropWhile isWordChar
        if rest.head?.any isTorn then .panic
        else .ok (some ⟨(c :: post).takeWhile isWordChar, .word, i⟩, rest) := by
  have range := plain_range plain
  have differs : ∀ d : Char, d.toNat = 34 ∨ d.toNat = 39 ∨ d.toNat = 40 ∨ d.toNat = 41 ∨
      d.toNat = 33 ∨ d.toNat = 60 ∨ d.toNat = 61 ∨ d.toNat = 62 ∨ d.toNat = 126 → lead c ≠ d := by
    rintro d symbol rfl
    omega
  have space : isWhitespace (lead c) = false := by
    rw [← Bool.not_eq_true]
    intro h
    simp only [isWhitespace, Bool.or_eq_true, Bool.and_eq_true, decide_eq_true_eq, beq_iff_eq] at h
    omega
  have first : ∀ d : Char, d.toNat < 0x80 → lead c ≠ d → c ≠ d := by
    rintro d ascii other rfl
    exact other (lead_ascii ascii)
  have two : (post.head?.bind fun d => (twoOp [c, d]).map fun op => (d, op)) = none := by
    have none : ∀ d, twoOp [c, d] = none := by
      intro d
      simp [twoOp, first '=' (by decide) (differs '=' (by decide)),
        first '!' (by decide) (differs '!' (by decide)),
        first '>' (by decide) (differs '>' (by decide)),
        first '<' (by decide) (differs '<' (by decide))]
    simp [none]
  have one : oneOp (lead c) = none := by
    simp [oneOp, differs '>' (by decide), differs '<' (by decide), differs '~' (by decide),
      differs '=' (by decide)]
  unfold munch
  rw [space, two, one, if_neg (by decide), if_neg]
  · dsimp only
    rw [if_neg (differs '(' (by decide)), if_neg (differs ')' (by decide))]
    split
    · rfl
    · rename_i digit
      rw [if_pos]
      simpa [isPlain, digit] using plain
  · rintro (h | h)
    · exact differs '"' (by decide) h
    · exact differs '\'' (by decide) h

theorem munch_word (f : Rounding) (i : ℕ) {c : Char} (start : isAlphabetic (lead c) = true ∨ lead c = '_')
    (post : List Char) :
    munch f i c post =
      if ((c :: post).dropWhile isWordChar).head?.any isTorn then .panic
      else .ok (some ⟨(c :: post).takeWhile isWordChar, .word, i⟩, (c :: post).dropWhile isWordChar) := by
  have plain : isPlain (lead c) = true := by
    rcases start with h | h
    · simp [isPlain, h]
    · simp [isPlain, h]
  have letter : (lead c).isDigit = false := by
    rw [← Bool.not_eq_true]
    intro digit
    have digits := isDigit_range digit
    have letters := letter_range start
    omega
  rw [munch_plain f i plain, letter]
  rfl

theorem munch_symbol (f : Rounding) (i : ℕ) {c : Char} (symbol : c ∈ ['=', '!', '>', '<', '~', '(', ')'])
    (post : List Char) :
    munch f i c post =
      match post.head?.bind (fun d => (twoOp [c, d]).map fun op => (d, op)), oneOp c with
      | some (d, op), _ => .ok (some ⟨[c, d], .op op, i⟩, post.tail)
      | none, some op => .ok (some ⟨[c], .op op, i⟩, post)
      | none, none =>
        if c = '(' then .ok (some ⟨[c], .lParen, i⟩, post)
        else if c = ')' then .ok (some ⟨[c], .rParen, i⟩, post)
        else .err ⟨i, quoted "" [c] " cannot start a term"⟩ := by
  simp only [List.mem_cons, List.not_mem_nil, or_false] at symbol
  rcases symbol with rfl | rfl | rfl | rfl | rfl | rfl | rfl
  all_goals
    unfold munch
    rfl

theorem twoOp_first {c d : Char} {op : Op} (h : twoOp [c, d] = some op) :
    c ∈ ['=', '!', '>', '<', '~', '(', ')'] := by
  by_contra other
  simp only [List.mem_cons, List.not_mem_nil, or_false, not_or] at other
  simp [twoOp, other] at h

theorem oneOp_first {c : Char} {op : Op} (h : oneOp c = some op) :
    c ∈ ['=', '!', '>', '<', '~', '(', ')'] := by
  by_contra other
  simp only [List.mem_cons, List.not_mem_nil, or_false, not_or] at other
  simp [oneOp, other] at h

theorem number_item {c : Char} {cs rest : List Char} (digit : c.isDigit = true)
    (all : cs.all isNumberChar = true) (stop : ∀ d ∈ rest.head?, isNumberChar d = false) :
    lead c = c ∧ isPlain c = true ∧ (c :: (cs ++ rest)).takeWhile isNumberChar = c :: cs ∧
      (c :: (cs ++ rest)).dropWhile isNumberChar = rest := by
  have range := isDigit_range digit
  have whole : (c :: cs).all isNumberChar = true := by simp [isNumberChar, digit, all]
  exact ⟨lead_ascii (by omega), by simp [isPlain, digit], split_while (c :: cs) rest whole stop⟩

/- The converse: the scanner takes any such piece off the front. -/
theorem munch_of_item {f : Rounding} {c : Char} {cs rest : List Char}
    {piece : Option (List Char × Kind)} (h : Item f (c :: cs) piece rest) (i : ℕ) :
    munch f i c (cs ++ rest) = .ok (piece.map (tokenAt i), rest) := by
  cases h with
  | space space ascii =>
    unfold munch
    rw [lead_ascii ascii, if_pos space]
    rfl
  | quotation quote absent =>
    rename_i body
    have ascii : c.toNat < 0x80 ∧ isWhitespace c = false := by
      rcases quote with rfl | rfl
      · decide
      · decide
    have all : body.all (· ≠ c) = true := by
      rw [List.all_eq_true]
      intro x hx
      exact decide_eq_true (ne_of_mem_of_not_mem hx absent)
    obtain ⟨inside, after⟩ := split_while body (c :: rest) all (by simp)
    unfold munch
    rw [lead_ascii ascii.1, ascii.2, if_neg (by decide), if_pos quote, List.append_assoc,
      List.singleton_append, inside, after]
    rfl
  | two found =>
    rw [munch_symbol f i (twoOp_first found)]
    simp [found, tokenAt]
  | one found other =>
    have two : (rest.head?.bind fun d => (twoOp [c, d]).map fun op => (d, op)) = none := by
      cases rest with
      | nil => rfl
      | cons d rest => simp [other d rfl]
    rw [munch_symbol f i (oneOp_first found)]
    simp [two, found, tokenAt]
  | lParen =>
    rw [munch_symbol f i (by decide)]
    simp [twoOp, oneOp, tokenAt]
  | rParen =>
    rw [munch_symbol f i (by decide)]
    simp [twoOp, oneOp, tokenAt]
  | number digit all stop number suffix =>
    obtain ⟨same, plain, inside, after⟩ := number_item digit all stop
    rw [munch_plain f i (same.symm ▸ plain), same, if_pos digit]
    simp only [inside, after, number, suffix]
    rfl
  | scaled digit all stop number scaled =>
    rename_i cs n suffix scale
    obtain ⟨same, plain, inside, after⟩ := number_item digit all stop
    rw [List.append_assoc, munch_plain f i (same.symm ▸ plain), same, if_pos digit]
    simp only [inside, after, number, scaled]
    simp [tokenAt]
  | word start all stop =>
    obtain ⟨inside, after⟩ := split_while (c :: cs) rest all fun d hd => (stop d hd).1
    have whole : rest.head?.any isTorn = false := by
      cases rest with
      | nil => rfl
      | cons d rest => exact (stop d rfl).2
    rw [List.cons_append] at inside after
    rw [munch_word f i start]
    simp only [inside, after, whole]
    rfl

/- Every turn uses up the character it starts at. -/
theorem munch_rest {f : Rounding} {i : ℕ} {c : Char} {post rest : List Char} {token : Option Token}
    (h : munch f i c post = .ok (token, rest)) : rest <:+ post := by
  obtain ⟨used, piece, whole, _, item⟩ := munch_item h
  cases used with
  | nil => cases item
  | cons x used =>
    rw [List.cons_append, List.cons.injEq] at whole
    exact ⟨used, whole.2.symm⟩

/-- Induction along a scan, which goes from a text to the end of it. -/
@[elab_as_elim]
theorem suffixInduction {P : List Char → Prop} (cs : List Char) (nil : P [])
    (cons : ∀ c post, (∀ rest, rest <:+ post → P rest) → P (c :: post)) : P cs := by
  have all : ∀ rest, rest <:+ cs → P rest := by
    induction cs with
    | nil =>
      intro rest h
      rw [List.suffix_nil.mp h]
      exact nil
    | cons c post ih =>
      intro rest h
      rcases List.suffix_cons_iff.mp h with rfl | h
      · exact cons c post ih
      · exact ih rest h
  exact all cs List.suffix_rfl

/-- The tokens of the last part of an input of `total` bytes. -/
def scan (f : Rounding) (total : ℕ) : List Char → Outcome ParseError (List Token)
  | [] => .ok []
  | c :: post => do
    let (token, rest) ← munch f (total - (bytes (c :: post)).length) c post
    if rest.length ≤ post.length then do
      let tail ← scan f total rest
      return token.toList ++ tail
    else .panic
  termination_by cs => cs.length

@[simp] theorem scan_nil (f : Rounding) (total : ℕ) : scan f total [] = .ok [] := by
  rw [scan]

theorem scan_cons (f : Rounding) (total : ℕ) (c : Char) (post : List Char) :
    scan f total (c :: post) =
      munch f (total - (bytes (c :: post)).length) c post >>= fun turn =>
        scan f total turn.2 >>= fun tail => .ok (turn.1.toList ++ tail) := by
  rw [scan]
  cases turn : munch f (total - (bytes (c :: post)).length) c post with
  | ok result => simp [(munch_rest turn).length_le]
  | err e => rfl
  | panic => rfl

/- With more turns than bytes left, the loop over bytes is the scan over characters. -/
theorem lexFrom_eq (f : Rounding) {turns : ℕ} {pre rest : List Char}
    (enough : (bytes rest).length < turns) :
    lexFrom f (pre ++ rest) turns (bytes pre).length = scan f (bytes (pre ++ rest)).length rest := by
  induction turns generalizing pre rest with
  | zero => omega
  | succ turns ih =>
    cases rest with
    | nil => simp [lexFrom]
    | cons c post =>
      have pos := c.utf8Size_pos
      have size : (bytes (c :: post)).length = c.utf8Size + (bytes post).length := by simp
      have total : (bytes (pre ++ c :: post)).length =
          (bytes pre).length + (bytes (c :: post)).length := by simp
      have here : (bytes (pre ++ c :: post)).length - (bytes (c :: post)).length =
          (bytes pre).length := by omega
      rw [lexFrom, if_pos (by omega), step_eq, scan_cons, here]
      cases turn : munch f (bytes pre).length c post with
      | err e => rfl
      | panic => rfl
      | ok result =>
        obtain ⟨token, rest⟩ := result
        obtain ⟨used, rfl⟩ := munch_rest turn
        have whole : pre ++ c :: (used ++ rest) = (pre ++ c :: used) ++ rest := by simp
        have next : (bytes (pre ++ c :: (used ++ rest))).length - (bytes rest).length =
            (bytes (pre ++ c :: used)).length := by
          rw [whole, bytes_append, List.length_append, Nat.add_sub_cancel]
        simp only [Outcome.ok_bind, leave, next, Outcome.pure_eq]
        rw [whole, ih]
        rw [size, bytes_append, List.length_append] at enough
        omega

theorem lex_eq (f : Rounding) (input : List Char) :
    lex f input = scan f (bytes input).length input :=
  @lexFrom_eq f _ [] input (Nat.lt_succ_self _)

/- A piece contributes its token, whatever the rest of the text is. -/
theorem scan_item {f : Rounding} {used rest : List Char} {piece : Option (List Char × Kind)}
    (h : Item f used piece rest) (total : ℕ) :
    scan f total (used ++ rest) =
      scan f total rest >>= fun tail =>
        .ok ((piece.map (tokenAt (total - (bytes (used ++ rest)).length))).toList ++ tail) := by
  cases used with
  | nil => cases h
  | cons c cs => rw [List.cons_append, scan_cons, munch_of_item h, Outcome.ok_bind]

/-- Texts made of whole pieces. -/
inductive Lexical (f : Rounding) : List Char → Prop
  | nil : Lexical f []
  | item {used piece rest} : Item f used piece rest → Lexical f rest → Lexical f (used ++ rest)

theorem scan_of_lexical {f : Rounding} {cs : List Char} (h : Lexical f cs) (total : ℕ) :
    ∃ tokens, scan f total cs = .ok tokens := by
  induction h with
  | nil => exact ⟨[], scan_nil f total⟩
  | item item _ ih =>
    obtain ⟨tail, done⟩ := ih
    exact ⟨_, by rw [scan_item item, done, Outcome.ok_bind]⟩

theorem lexical_of_scan {f : Rounding} {total : ℕ} {cs : List Char} {tokens : List Token}
    (h : scan f total cs = .ok tokens) : Lexical f cs := by
  induction cs using suffixInduction generalizing tokens with
  | nil => exact .nil
  | cons c post ih =>
    rw [scan_cons, Outcome.bind_eq_ok] at h
    obtain ⟨⟨token, rest⟩, turn, h⟩ := h
    obtain ⟨tail, done, _⟩ := Outcome.bind_eq_ok.mp h
    obtain ⟨used, piece, whole, _, item⟩ := munch_item turn
    rw [whole]
    exact .item item (ih rest (munch_rest turn) done)

end Stallwatch.Filter
