import Stallwatch.Filter.Lexer

/-! The lexer on characters. A cursor between two characters stays between two
characters, so the byte loop is this one, with a panic where a word ends inside one. -/
namespace Stallwatch.Filter

open Text Utf8

/-- The first byte of a character, cast to a character. -/
def lead (c : Char) : Char := asChar ((String.utf8EncodeChar c).headD 0)

def isWordChar (c : Char) : Bool := (String.utf8EncodeChar c).all isWordByte

/-- Some leading bytes of the character look like a word, but not all of its bytes. -/
def isTorn (c : Char) : Bool :=
  !isWordChar c && (String.utf8EncodeChar c).head?.any isWordByte

def isNumberChar (c : Char) : Bool := c.isDigit || c == '.'

/-- One turn at a character: the token or none, and what is left of the text. -/
def munch (f : Rounding) (i : ℕ) (c : Char) (post : List Char) :
    Outcome ParseError (Option Token × List Char) :=
  if isWhitespace (lead c) then .ok (none, post)
  else if lead c = '"' ∨ lead c = '\'' then
    match post.dropWhile (· ≠ c) with
    | [] => .err ⟨i, "unterminated string"⟩
    | _ :: rest => .ok (some ⟨post.takeWhile (· ≠ c), .str, i⟩, rest)
  else
    match post.head?.bind (fun d => (twoOp [c, d]).map fun op => (d, op)), oneOp (lead c) with
    | some (d, op), _ => .ok (some ⟨[c, d], .op op, i⟩, post.tail)
    | none, some op => .ok (some ⟨[c], .op op, i⟩, post)
    | none, none =>
      if lead c = '(' then .ok (some ⟨[c], .lParen, i⟩, post)
      else if lead c = ')' then .ok (some ⟨[c], .rParen, i⟩, post)
      else if (lead c).isDigit then
        let digits := (c :: post).takeWhile isNumberChar
        let rest := (c :: post).dropWhile isNumberChar
        match F64.parse f digits with
        | none => .err (notANumber i digits)
        | some n =>
          match suffixScale rest with
          | some (scale, len) =>
            .ok (some ⟨digits ++ rest.take len, .num (F64.mul f n (.finite false scale)), i⟩,
              rest.drop len)
          | none => .ok (some ⟨digits, .num n, i⟩, rest)
      else if isAlphabetic (lead c) ∨ lead c = '_' then
        let rest := (c :: post).dropWhile isWordChar
        if rest.head?.any isTorn then .panic
        else .ok (some ⟨(c :: post).takeWhile isWordChar, .word, i⟩, rest)
      else .err ⟨i, quoted "" [lead c] " cannot start a term"⟩

theorem lead_ascii {c : Char} (h : c.toNat < 0x80) : lead c = c := by
  rw [lead, encode_ascii h]
  exact asChar_ascii h

theorem lead_wide {c : Char} (h : 0x80 ≤ c.toNat) :
    0xC2 ≤ (lead c).toNat ∧ (lead c).toNat ≤ 0xF4 := by
  obtain ⟨b, tail, he, _, low, high, _⟩ := encode_wide h
  rw [lead, he, List.headD_cons, asChar_toNat]
  exact ⟨low, high⟩

/- A first byte below 80 is the whole character. -/
theorem lead_eq {c d : Char} (h : lead c = d) (ascii : d.toNat < 0x80) : c = d := by
  by_cases narrow : c.toNat < 0x80
  · rw [← lead_ascii narrow, h]
  · have wide := lead_wide (not_lt.mp narrow)
    rw [h] at wide
    omega

theorem lead_is {c d : Char} (h : lead c = d) (ascii : d.toNat < 0x80) : c.toNat < 0x80 :=
  lead_eq h ascii ▸ ascii

theorem isNumberByte_eq : isNumberByte = fun b => isNumberChar (asChar b) := by
  funext b
  have point : (b == 0x2E) = (asChar b == '.') := by
    rw [Bool.eq_iff_iff, beq_iff_eq, beq_iff_eq]
    constructor
    · rintro rfl
      rfl
    · intro h
      apply UInt8.toNat_inj.mp
      rw [← asChar_toNat, h]
      rfl
  simp only [isNumberByte, isNumberChar, point]

theorem isDigit_range {c : Char} (h : c.isDigit = true) : 48 ≤ c.toNat ∧ c.toNat ≤ 57 := by
  simp only [Char.isDigit, Bool.and_eq_true, decide_eq_true_eq, ge_iff_le, UInt32.le_iff_toNat_le] at h
  exact h

theorem number_wide (c : Char) (h : 0x80 ≤ c.toNat) : isNumberChar c = false := by
  rw [← Bool.not_eq_true]
  intro number
  simp only [isNumberChar, Bool.or_eq_true, beq_iff_eq] at number
  rcases number with digit | rfl
  · have range := isDigit_range digit
    omega
  · exact absurd h (by decide)

theorem quote_wide {q : Char} (ascii : q.toNat < 0x80) (c : Char) (h : 0x80 ≤ c.toNat) :
    decide (c ≠ q) = true := by
  apply decide_eq_true
  rintro rfl
  omega

theorem byte_at (pre : List Char) (c : Char) (post : List Char) :
    (bytes (pre ++ c :: post))[(bytes pre).length]? = some ((String.utf8EncodeChar c).headD 0) := by
  obtain ⟨b, tail, he⟩ := List.exists_cons_of_ne_nil (encode_ne_nil c)
  simp [he]

theorem slice_used {ε : Type} (pre used rest : List Char) :
    slice (ε := ε) (pre ++ (used ++ rest)) (bytes pre).length ((bytes pre).length + (bytes used).length) =
      .ok used := by
  rw [← List.append_assoc]
  exact slice_bytes pre used rest

theorem twoOp_eq_some {two : List Char} {op : Op} (h : twoOp two = some op) :
    ∃ x y : Char, two = [x, y] ∧ x.toNat < 0x80 ∧ y.toNat < 0x80 := by
  unfold twoOp at h
  split at h
  · exact ⟨'=', '=', ‹_›, by decide, by decide⟩
  · split at h
    · exact ⟨'!', '=', ‹_›, by decide, by decide⟩
    · split at h
      · exact ⟨'>', '=', ‹_›, by decide, by decide⟩
      · split at h
        · exact ⟨'<', '=', ‹_›, by decide, by decide⟩
        · contradiction

theorem get_two {c d : Char} {op : Op} (pre post : List Char) (h : twoOp [c, d] = some op) :
    get? (pre ++ c :: d :: post) (bytes pre).length ((bytes pre).length + 2) = some [c, d] := by
  obtain ⟨x, y, hxy, hx, hy⟩ := twoOp_eq_some h
  cases hxy
  have two : (bytes [c, d]).length = 2 := by simp [encode_ascii hx, encode_ascii hy]
  have sliced := slice_used (ε := Empty) pre [c, d] post
  rw [two] at sliced
  simp only [List.cons_append, List.nil_append] at sliced
  simp only [get?, sliced]

theorem get_other (pre : List Char) (c : Char) (post : List Char)
    (h : ∀ d ∈ post.head?, twoOp [c, d] = none) :
    twoOp ((get? (pre ++ c :: post) (bytes pre).length ((bytes pre).length + 2)).getD []) = none := by
  cases got : twoOp ((get? (pre ++ c :: post) (bytes pre).length ((bytes pre).length + 2)).getD []) with
  | none => rfl
  | some op =>
    obtain ⟨x, y, hxy, _⟩ := twoOp_eq_some got
    rw [hxy] at got
    simp only [get?, slice, splitAtByte_bytes, Nat.le_add_right, if_true,
      Nat.add_sub_cancel_left] at hxy
    cases split : splitAtByte (c :: post) 2 with
    | none => simp [split] at hxy
    | some parts =>
      obtain ⟨part, rest⟩ := parts
      have whole := (splitAtByte_eq_some split).1
      simp only [split, Option.getD_some] at hxy
      rw [hxy] at whole
      cases whole
      have none := h y (by simp)
      rw [got] at none
      contradiction

theorem oneOp_lead {c : Char} {op : Op} (h : oneOp (lead c) = some op) : c.toNat < 0x80 := by
  by_contra wide
  have range := lead_wide (not_lt.mp wide)
  have differs : ∀ d : Char, d.toNat < 0x80 → lead c ≠ d := by
    rintro d ascii rfl
    omega
  simp [oneOp, differs '>' (by decide), differs '<' (by decide), differs '~' (by decide),
    differs '=' (by decide)] at h

theorem suffixTable_ascii : ∀ entry ∈ suffixTable, ∀ c ∈ entry.1, c.toNat < 0x80 := by
  have all : (suffixTable.all fun entry => entry.1.all fun c => c.toNat < 0x80) = true := rfl
  simpa only [List.all_eq_true, decide_eq_true_eq] using all

theorem suffixScale_length {s : List Char} {scale : ℚ≥0} {len : ℕ}
    (h : suffixScale s = some (scale, len)) :
    (s.take len).length = len ∧ ∀ c ∈ s.take len, c.toNat < 0x80 := by
  have general : ∀ (entries : List (List Char × ℚ≥0)) (best : Option (ℚ≥0 × ℕ)),
      (∀ entry ∈ entries, ∀ c ∈ entry.1, c.toNat < 0x80) →
      (∀ b ∈ best, (s.take b.2).length = b.2 ∧ ∀ c ∈ s.take b.2, c.toNat < 0x80) →
      ∀ b ∈ entries.foldl (fun best entry =>
        if entry.1.isPrefixOf s && best.all fun b => b.2 < entry.1.length then
          some (entry.2, entry.1.length)
        else best) best, (s.take b.2).length = b.2 ∧ ∀ c ∈ s.take b.2, c.toNat < 0x80 := by
    intro entries
    induction entries with
    | nil => exact fun _ _ h => h
    | cons entry entries ih =>
      intro best ascii inv
      apply ih
      · exact fun e he => ascii e (List.mem_cons_of_mem _ he)
      · dsimp only
        split
        · rename_i better
          rintro _ ⟨rfl⟩
          rw [Bool.and_eq_true, List.isPrefixOf_iff_prefix] at better
          obtain ⟨rest, rfl⟩ := better.1
          simpa using ascii entry List.mem_cons_self
        · exact inv
  exact general suffixTable none suffixTable_ascii (by simp) (scale, len) h

theorem bytes_ascii_length {cs : List Char} (ascii : ∀ c ∈ cs, c.toNat < 0x80) :
    (bytes cs).length = cs.length := by
  induction cs with
  | nil => rfl
  | cons c cs ih =>
    simp only [List.mem_cons, forall_eq_or_imp] at ascii
    simp [encode_ascii ascii.1, ih ascii.2]

/-- The index after a turn, when `rest` is left of the text. -/
def leave (input : List Char) (turn : Option Token × List Char) : Option Token × ℕ :=
  (turn.1, (bytes input).length - (bytes turn.2).length)

theorem leave_used (token : Option Token) (pre used rest : List Char) :
    leave (pre ++ (used ++ rest)) (token, rest) =
      (token, (bytes pre).length + (bytes used).length) := by
  simp [leave, ← Nat.add_assoc]

theorem quotation (pre : List Char) {q : Char} (ascii : q.toNat < 0x80) (post : List Char) :
    scanWhile (fun x => asChar x ≠ q) (bytes (pre ++ q :: post)) ((bytes pre).length + 1) =
      (bytes (pre ++ [q])).length + (bytes (post.takeWhile (· ≠ q))).length := by
  have shift : pre ++ q :: post = (pre ++ [q]) ++ post := by simp
  have length : (bytes pre).length + 1 = (bytes (pre ++ [q])).length := by simp [encode_ascii ascii]
  rw [shift, length, scanWhile_bytes, takeWhile_ascii (fun x => decide (x ≠ q)) true (quote_wide ascii)]

theorem number (pre cs : List Char) :
    scanWhile isNumberByte (bytes (pre ++ cs)) (bytes pre).length =
      (bytes pre).length + (bytes (cs.takeWhile isNumberChar)).length := by
  rw [scanWhile_bytes, isNumberByte_eq, takeWhile_ascii isNumberChar false number_wide]

theorem word_end (pre cs : List Char) (clean : (cs.dropWhile isWordChar).head?.any isTorn = false) :
    scanWhile isWordByte (bytes (pre ++ cs)) (bytes pre).length =
      (bytes pre).length + (bytes (cs.takeWhile isWordChar)).length := by
  have head := List.head?_dropWhile_not isWordChar cs
  rw [scanWhile_bytes, takeWhile_torn]
  change (bytes pre).length + (bytes (cs.takeWhile isWordChar) ++
    ((cs.dropWhile isWordChar).head?.elim [] fun c =>
      (String.utf8EncodeChar c).takeWhile isWordByte)).length = _
  cases rest : (cs.dropWhile isWordChar).head? with
  | none => simp
  | some d =>
    obtain ⟨b, tail, he⟩ := List.exists_cons_of_ne_nil (encode_ne_nil d)
    rw [rest] at clean head
    simp only [isTorn, he, Option.any_some, head, List.head?_cons] at clean
    have stop : isWordByte b = false := by simpa using clean
    simp [he, stop]

/- A word that ends inside a character is no slice of the input. -/
theorem word_torn {ε : Type} (pre cs : List Char)
    (torn : (cs.dropWhile isWordChar).head?.any isTorn = true) :
    slice (ε := ε) (pre ++ cs) (bytes pre).length
        (scanWhile isWordByte (bytes (pre ++ cs)) (bytes pre).length) = .panic := by
  have parts := List.takeWhile_append_dropWhile (p := isWordChar) (l := cs)
  have head := List.head?_dropWhile_not isWordChar cs
  rw [scanWhile_bytes, takeWhile_torn]
  change slice _ _ ((bytes pre).length + (bytes (cs.takeWhile isWordChar) ++
    ((cs.dropWhile isWordChar).head?.elim [] fun c =>
      (String.utf8EncodeChar c).takeWhile isWordByte)).length) = _
  rw [List.length_append]
  cases rest : cs.dropWhile isWordChar with
  | nil => simp [rest] at torn
  | cons d post =>
    rw [rest] at torn head
    obtain ⟨b, tail, he⟩ := List.exists_cons_of_ne_nil (encode_ne_nil d)
    simp only [List.head?_cons, isTorn, he, Option.any_some, Bool.and_eq_true] at torn head
    have short := takeWhile_short head
    rw [String.length_utf8EncodeChar] at short
    have inside := splitAtByte_inside (cs.takeWhile isWordChar) d post (by simp [he, torn.2]) short
    rw [← rest, parts] at inside
    exact slice_inside _ _ _ inside

theorem lead_space {c : Char} (h : isWhitespace (lead c) = true) : c.toNat < 0x80 := by
  by_contra wide
  have range := lead_wide (not_lt.mp wide)
  simp only [isWhitespace, Bool.or_eq_true, Bool.and_eq_true, decide_eq_true_eq, beq_iff_eq] at h
  omega

theorem leave_char (token : Option Token) (pre : List Char) {c : Char} (ascii : c.toNat < 0x80)
    (post : List Char) : leave (pre ++ c :: post) (token, post) = (token, (bytes pre).length + 1) := by
  have used := leave_used token pre [c] post
  simpa [encode_ascii ascii] using used

/- A quotation ends at the next quote, which is the head of what the scan leaves. -/
theorem step_quote {pre post : List Char} {q : Char} (ascii : q.toNat < 0x80) :
    (let j := scanWhile (fun x => asChar x ≠ q) (bytes (pre ++ q :: post)) ((bytes pre).length + 1)
      if (bytes (pre ++ q :: post)).length ≤ j then .err ⟨(bytes pre).length, "unterminated string"⟩
      else do
        let text ← slice (pre ++ q :: post) ((bytes pre).length + 1) j
        return (some ⟨text, .str, (bytes pre).length⟩, j + 1)) =
      (match post.dropWhile (· ≠ q) with
      | [] => .err ⟨(bytes pre).length, "unterminated string"⟩
      | _ :: rest => .ok (some ⟨post.takeWhile (· ≠ q), .str, (bytes pre).length⟩, rest)) >>=
        fun turn => (.ok (leave (pre ++ q :: post) turn) : Outcome ParseError _) := by
  have parts := List.takeWhile_append_dropWhile (p := (· ≠ q)) (l := post)
  have shift : pre ++ q :: post = (pre ++ [q]) ++ post := by simp
  have length : (bytes pre).length + 1 = (bytes (pre ++ [q])).length := by simp [encode_ascii ascii]
  have text := slice_used (ε := ParseError) (pre ++ [q]) (post.takeWhile (· ≠ q)) (post.dropWhile (· ≠ q))
  rw [parts, ← shift, ← length] at text
  simp only [quotation pre ascii, ← length]
  cases rest : post.dropWhile (· ≠ q) with
  | nil =>
    rw [rest, List.append_nil] at parts
    rw [if_pos, Outcome.err_bind]
    rw [length, parts, shift, bytes_append, List.length_append]
  | cons d rest' =>
    have head := List.head?_dropWhile_not (fun x => decide (x ≠ q)) post
    rw [rest] at head
    have same : d = q := by simpa using head
    subst same
    rw [rest] at parts
    have whole : pre ++ [d] ++ (post.takeWhile (· ≠ d) ++ [d] ++ rest') = pre ++ d :: post := by
      simpa using parts
    have used := leave_used (some ⟨post.takeWhile (· ≠ d), .str, (bytes pre).length⟩) (pre ++ [d])
      (post.takeWhile (· ≠ d) ++ [d]) rest'
    rw [whole, ← length] at used
    have size : (bytes [d]).length = 1 := by simp [encode_ascii ascii]
    rw [if_neg, text, Outcome.ok_bind, Outcome.ok_bind, used, bytes_append, List.length_append, size]
    · rfl
    · have total : (bytes (pre ++ d :: post)).length = (bytes pre).length + 1 +
          (bytes (post.takeWhile (· ≠ d))).length + (bytes (d :: rest')).length := by
        rw [length, ← whole]
        simp [Nat.add_assoc]
      rw [total, bytes_cons, List.length_append, String.length_utf8EncodeChar]
      have pos := d.utf8Size_pos
      omega

/- A number with its suffix is cut out whole, and the rest is left. -/
theorem scaled_used (pre cs : List Char) {scale : ℚ≥0} {len : ℕ}
    (suffix : suffixScale (cs.dropWhile isNumberChar) = some (scale, len)) (token : Option Token) :
    slice (ε := ParseError) (pre ++ cs) (bytes pre).length
        ((bytes pre).length + (bytes (cs.takeWhile isNumberChar)).length + len) =
      .ok (cs.takeWhile isNumberChar ++ (cs.dropWhile isNumberChar).take len) ∧
    leave (pre ++ cs) (token, (cs.dropWhile isNumberChar).drop len) =
      (token, (bytes pre).length + (bytes (cs.takeWhile isNumberChar)).length + len) := by
  have width := suffixScale_length suffix
  have whole : cs.takeWhile isNumberChar ++ (cs.dropWhile isNumberChar).take len ++
      (cs.dropWhile isNumberChar).drop len = cs := by
    rw [List.append_assoc, List.take_append_drop, List.takeWhile_append_dropWhile]
  have size : (bytes (cs.takeWhile isNumberChar ++ (cs.dropWhile isNumberChar).take len)).length =
      (bytes (cs.takeWhile isNumberChar)).length + len := by
    rw [bytes_append, List.length_append, bytes_ascii_length width.2, width.1]
  have scaled := slice_used (ε := ParseError) pre
    (cs.takeWhile isNumberChar ++ (cs.dropWhile isNumberChar).take len) ((cs.dropWhile isNumberChar).drop len)
  have used := leave_used token pre
    (cs.takeWhile isNumberChar ++ (cs.dropWhile isNumberChar).take len) ((cs.dropWhile isNumberChar).drop len)
  rw [whole, size, ← Nat.add_assoc] at scaled used
  exact ⟨scaled, used⟩

/- A number is its digits and, where one follows, a suffix. -/
theorem step_number (f : Rounding) (pre cs : List Char) :
    (do
      let digits ← slice (pre ++ cs) (bytes pre).length
        (scanWhile isNumberByte (bytes (pre ++ cs)) (bytes pre).length)
      match F64.parse f digits with
      | none => .err (notANumber (bytes pre).length digits)
      | some n => do
        let rest ← sliceFrom (pre ++ cs)
          (scanWhile isNumberByte (bytes (pre ++ cs)) (bytes pre).length)
        match suffixScale rest with
        | some (scale, len) => do
          let text ← slice (pre ++ cs) (bytes pre).length
            (scanWhile isNumberByte (bytes (pre ++ cs)) (bytes pre).length + len)
          return (some ⟨text, .num (F64.mul f n (.finite false scale)), (bytes pre).length⟩,
            scanWhile isNumberByte (bytes (pre ++ cs)) (bytes pre).length + len)
        | none => do
          let text ← slice (pre ++ cs) (bytes pre).length
            (scanWhile isNumberByte (bytes (pre ++ cs)) (bytes pre).length)
          return (some ⟨text, .num n, (bytes pre).length⟩,
            scanWhile isNumberByte (bytes (pre ++ cs)) (bytes pre).length)) =
      (match F64.parse f (cs.takeWhile isNumberChar) with
      | none => .err (notANumber (bytes pre).length (cs.takeWhile isNumberChar))
      | some n =>
        match suffixScale (cs.dropWhile isNumberChar) with
        | some (scale, len) =>
          .ok (some ⟨cs.takeWhile isNumberChar ++ (cs.dropWhile isNumberChar).take len,
            .num (F64.mul f n (.finite false scale)), (bytes pre).length⟩,
            (cs.dropWhile isNumberChar).drop len)
        | none => .ok (some ⟨cs.takeWhile isNumberChar, .num n, (bytes pre).length⟩,
            cs.dropWhile isNumberChar)) >>=
        fun turn => (.ok (leave (pre ++ cs) turn) : Outcome ParseError _) := by
  have parts := List.takeWhile_append_dropWhile (p := isNumberChar) (l := cs)
  have text := slice_used (ε := ParseError) pre (cs.takeWhile isNumberChar) (cs.dropWhile isNumberChar)
  have after := sliceFrom_bytes (ε := ParseError) (pre ++ cs.takeWhile isNumberChar)
    (cs.dropWhile isNumberChar)
  rw [parts] at text
  rw [List.append_assoc, parts, bytes_append, List.length_append] at after
  simp only [number, text, after, Outcome.ok_bind]
  cases F64.parse f (cs.takeWhile isNumberChar) with
  | none => rfl
  | some n =>
    dsimp only
    cases suffix : suffixScale (cs.dropWhile isNumberChar) with
    | none =>
      have used := leave_used (some ⟨cs.takeWhile isNumberChar, .num n, (bytes pre).length⟩) pre
        (cs.takeWhile isNumberChar) (cs.dropWhile isNumberChar)
      rw [parts] at used
      exact congrArg Outcome.ok used.symm
    | some found =>
      obtain ⟨scale, len⟩ := found
      obtain ⟨scaled, used⟩ := scaled_used pre cs suffix
        (some ⟨cs.takeWhile isNumberChar ++ (cs.dropWhile isNumberChar).take len,
          .num (F64.mul f n (.finite false scale)), (bytes pre).length⟩)
      simp only [scaled, Outcome.ok_bind]
      exact congrArg Outcome.ok used.symm

theorem step_word (pre cs : List Char) :
    (do
      let text ← slice (pre ++ cs) (bytes pre).length
        (scanWhile isWordByte (bytes (pre ++ cs)) (bytes pre).length)
      return (some ⟨text, .word, (bytes pre).length⟩,
        scanWhile isWordByte (bytes (pre ++ cs)) (bytes pre).length)) =
      (if (cs.dropWhile isWordChar).head?.any isTorn then .panic
        else .ok (some ⟨cs.takeWhile isWordChar, .word, (bytes pre).length⟩, cs.dropWhile isWordChar)) >>=
        fun turn => (.ok (leave (pre ++ cs) turn) : Outcome ParseError _) := by
  have parts := List.takeWhile_append_dropWhile (p := isWordChar) (l := cs)
  split
  · rename_i torn
    rw [word_torn pre cs torn]
    rfl
  · rename_i clean
    rw [Bool.not_eq_true] at clean
    have text := slice_used (ε := ParseError) pre (cs.takeWhile isWordChar) (cs.dropWhile isWordChar)
    have used := leave_used (some ⟨cs.takeWhile isWordChar, .word, (bytes pre).length⟩) pre
      (cs.takeWhile isWordChar) (cs.dropWhile isWordChar)
    rw [parts] at text used
    rw [word_end pre cs clean, text]
    exact congrArg Outcome.ok used.symm

theorem step_eq (f : Rounding) (pre : List Char) (c : Char) (post : List Char) :
    step f (pre ++ c :: post) (bytes pre).length =
      munch f (bytes pre).length c post >>= fun turn => .ok (leave (pre ++ c :: post) turn) := by
  have first : asChar ((String.utf8EncodeChar c).headD 0) = lead c := rfl
  simp only [step, byte_at, first]
  unfold munch
  split
  · rename_i space
    rw [Outcome.ok_bind, leave_char none pre (lead_space space)]
  split
  · rename_i quote
    have ascii : c.toNat < 0x80 := by
      rcases quote with h | h
      · exact lead_is h (by decide)
      · exact lead_is h (by decide)
    rw [lead_ascii ascii]
    exact step_quote ascii
  cases two : post.head?.bind fun d => (twoOp [c, d]).map fun op => (d, op) with
  | some found =>
    obtain ⟨d, op⟩ := found
    obtain ⟨x, hd, hop⟩ := Option.bind_eq_some_iff.mp two
    obtain ⟨op, hop, he⟩ := Option.map_eq_some_iff.mp hop
    cases he
    obtain ⟨rest, rfl⟩ := List.head?_eq_some_iff.mp hd
    obtain ⟨x, y, hxy, hx, hy⟩ := twoOp_eq_some hop
    cases hxy
    have used := leave_used (some ⟨[c, d], .op op, (bytes pre).length⟩) pre [c, d] rest
    have size : (bytes [c, d]).length = 2 := by simp [encode_ascii hx, encode_ascii hy]
    rw [size] at used
    simp only [get_two pre rest hop, Option.getD_some, hop, Outcome.ok_bind, List.tail_cons]
    exact congrArg Outcome.ok used.symm
  | none =>
    have other : ∀ d ∈ post.head?, twoOp [c, d] = none := by
      intro d hd
      simpa [Option.mem_def.mp hd] using two
    simp only [get_other pre c post other]
    cases one : oneOp (lead c) with
    | some op =>
      have ascii := oneOp_lead one
      rw [lead_ascii ascii]
      exact congrArg Outcome.ok (leave_char _ pre ascii post).symm
    | none =>
      dsimp only
      split
      · rename_i paren
        have ascii : c.toNat < 0x80 := lead_is paren (by decide)
        rw [lead_ascii ascii]
        exact congrArg Outcome.ok (leave_char _ pre ascii post).symm
      split
      · rename_i paren
        have ascii : c.toNat < 0x80 := lead_is paren (by decide)
        rw [lead_ascii ascii]
        exact congrArg Outcome.ok (leave_char _ pre ascii post).symm
      split
      · exact step_number f pre (c :: post)
      split
      · exact step_word pre (c :: post)
      rfl

attribute [irreducible] munch

end Stallwatch.Filter
