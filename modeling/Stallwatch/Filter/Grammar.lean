import Stallwatch.Filter.Parser

/-! The grammar in the comments of the parser, with the tree each rule builds. The parser
finds exactly its derivations, and never runs out of fuel. -/
namespace Stallwatch.Filter

open Text

/-- The words that are connectives, in any letter case. -/
def isReserved (t : Token) : Bool := isWord "and" t || isWord "or" t || isWord "not" t

/-- A word may stand for a field. -/
def isField (t : Token) : Bool := t.kind = .word && !isReserved t

/-- A word where a `not` would have been read as the connective. -/
def isLenientField (t : Token) : Bool := t.kind = .word && !isWord "not" t

def value (t : Token) : Option Value :=
  match t.kind with
  | .num n => some (.num n)
  | .str | .word => some (.str t.text)
  | _ => none

inductive Level where
  | or | and | not | primary
  deriving DecidableEq

inductive Derives (field : Token → Bool) : Level → List Token → Node → Prop
  | andOr {ts a} : Derives field .and ts a → Derives field .or ts a
  | or {ts us t a b} : Derives field .or ts a → isWord "or" t = true → Derives field .and us b →
      Derives field .or (ts ++ t :: us) (.or a b)
  | notAnd {ts a} : Derives field .not ts a → Derives field .and ts a
  | and {ts us t a b} : Derives field .and ts a → isWord "and" t = true → Derives field .not us b →
      Derives field .and (ts ++ t :: us) (.and a b)
  | not {ts t a} : isWord "not" t = true → Derives field .not ts a →
      Derives field .not (t :: ts) (.not a)
  | primaryNot {ts a} : Derives field .primary ts a → Derives field .not ts a
  | paren {ts l r a} : l.kind = .lParen → Derives field .or ts a → r.kind = .rParen →
      Derives field .primary (l :: ts ++ [r]) a
  | truthy {t} : field t = true → Derives field .primary [t] (.truthy t.text)
  | compare {t o v op x} : field t = true → o.kind = .op op → value v = some x →
      Derives field .primary [t, o, v] (.compare t.text op x)

theorem Derives.mono {field field' : Token → Bool} (sub : ∀ t, field t = true → field' t = true)
    {level : Level} {ts : List Token} {a : Node} (h : Derives field level ts a) :
    Derives field' level ts a := by
  induction h with
  | andOr _ ih => exact .andOr ih
  | or _ word _ left right => exact .or left word right
  | notAnd _ ih => exact .notAnd ih
  | and _ word _ left right => exact .and left word right
  | not word _ ih => exact .not word ih
  | primaryNot _ ih => exact .primaryNot ih
  | paren l _ r ih => exact .paren l ih r
  | truthy h => exact .truthy (sub _ h)
  | compare h o v => exact .compare (sub _ h) o v

theorem isField_lenient (t : Token) (h : isField t = true) : isLenientField t = true := by
  simp only [isField, isReserved, isLenientField, Bool.and_eq_true, Bool.not_eq_true',
    Bool.or_eq_false_iff] at h ⊢
  exact ⟨h.1, h.2.2⟩

theorem eatWord_cons (w : String) (t : Token) (ts : List Token) :
    eatWord w (t :: ts) = if isWord w t then some ts else none := rfl

@[simp] theorem eatOr_eq (ts : List Token) : eatOr ts = eatWord "or" ts := by
  simp [eatOr, eatSymbol]

@[simp] theorem eatAnd_eq (ts : List Token) : eatAnd ts = eatWord "and" ts := by
  simp [eatAnd, eatSymbol]

theorem eatWord_eq_some {w : String} {ts rest : List Token} (h : eatWord w ts = some rest) :
    ∃ t, ts = t :: rest ∧ isWord w t = true := by
  cases ts with
  | nil => contradiction
  | cons t ts =>
    rw [eatWord_cons] at h
    split at h
    · rename_i word
      cases h
      exact ⟨t, rfl, word⟩
    · contradiction

theorem isWord_kind {w : String} {t : Token} (h : isWord w t = true) : t.kind = .word := by
  simp only [isWord, Bool.and_eq_true, decide_eq_true_eq] at h
  exact h.1

/- One token cannot be two words. -/
theorem isWord_unique {v w : String} {t : Token} (hv : isWord v t = true) (hw : isWord w t = true) :
    asciiLower v.toList = asciiLower w.toList := by
  simp only [isWord, eqIgnoreAsciiCase, Bool.and_eq_true, beq_iff_eq] at hv hw
  rw [← hv.2, hw.2]

/-- A reading of `ts`: an error, or a tree derived from the tokens it used. -/
def Reads (level : Level) (ts : List Token) : Outcome ParseError (Node × List Token) → Prop
  | .ok (a, rest) => ∃ used, ts = used ++ rest ∧ Derives isLenientField level used a
  | .err _ => True
  | .panic => False

theorem Derives.pos {field : Token → Bool} {level : Level} {ts : List Token} {a : Node}
    (h : Derives field level ts a) : 0 < ts.length := by
  induction h with
  | andOr _ ih => exact ih
  | notAnd _ ih => exact ih
  | primaryNot _ ih => exact ih
  | _ => simp

theorem Reads.lift {level level' : Level} {ts : List Token}
    {r : Outcome ParseError (Node × List Token)} (h : Reads level ts r)
    (lift : ∀ used a, Derives isLenientField level used a → Derives isLenientField level' used a) :
    Reads level' ts r := by
  cases r with
  | ok result =>
    obtain ⟨used, split, derived⟩ := h
    exact ⟨used, split, lift used result.1 derived⟩
  | err e => trivial
  | panic => exact h

/- After one reading, the next one has fewer tokens and less fuel. -/
theorem Reads.bind {level level' : Level} {ts whole : List Token}
    {r : Outcome ParseError (Node × List Token)}
    {next : Node × List Token → Outcome ParseError (Node × List Token)} (h : Reads level ts r)
    (step : ∀ used a rest, ts = used ++ rest → rest.length < ts.length →
      Derives isLenientField level used a → Reads level' whole (next (a, rest))) :
    Reads level' whole (r >>= next) := by
  cases r with
  | ok result =>
    obtain ⟨a, rest⟩ := result
    obtain ⟨used, split, derived⟩ := h
    apply step used a rest split _ derived
    have pos := derived.pos
    simp only [split, List.length_append]
    omega
  | err e => trivial
  | panic => exact h

/-- Every function of the parser reads what it should, given `fuel`. -/
structure AllRead (eoi fuel : ℕ) : Prop where
  or : ∀ ts, 6 * ts.length + 4 ≤ fuel → Reads .or ts (parseOr eoi fuel ts)
  orLoop : ∀ pre left ts, Derives isLenientField .or pre left → 6 * ts.length + 1 ≤ fuel →
    Reads .or (pre ++ ts) (orLoop eoi fuel left ts)
  and : ∀ ts, 6 * ts.length + 3 ≤ fuel → Reads .and ts (parseAnd eoi fuel ts)
  andLoop : ∀ pre left ts, Derives isLenientField .and pre left → 6 * ts.length + 1 ≤ fuel →
    Reads .and (pre ++ ts) (andLoop eoi fuel left ts)
  not : ∀ ts, 6 * ts.length + 2 ≤ fuel → Reads .not ts (parseNot eoi fuel ts)
  primary : ∀ ts, 6 * ts.length + 1 ≤ fuel → (∀ t ∈ ts.head?, isWord "not" t = false) →
    Reads .primary ts (parsePrimary eoi fuel ts)

section
variable {eoi fuel : ℕ} (ih : AllRead eoi fuel)
include ih

theorem parseOr_reads {ts : List Token} (enough : 6 * ts.length + 4 ≤ fuel + 1) :
    Reads .or ts (parseOr eoi (fuel + 1) ts) := by
  unfold parseOr
  apply (ih.and ts (by omega)).bind
  rintro used left rest rfl shorter derived
  exact ih.orLoop used left rest (.andOr derived) (by omega)

theorem parseAnd_reads {ts : List Token} (enough : 6 * ts.length + 3 ≤ fuel + 1) :
    Reads .and ts (parseAnd eoi (fuel + 1) ts) := by
  unfold parseAnd
  apply (ih.not ts (by omega)).bind
  rintro used left rest rfl shorter derived
  exact ih.andLoop used left rest (.notAnd derived) (by omega)

theorem orLoop_reads {pre ts : List Token} {left : Node} (before : Derives isLenientField .or pre left)
    (enough : 6 * ts.length + 1 ≤ fuel + 1) :
    Reads .or (pre ++ ts) (orLoop eoi (fuel + 1) left ts) := by
  simp only [Filter.orLoop, eatOr_eq]
  cases eaten : eatWord "or" ts with
  | none => exact ⟨pre, rfl, before⟩
  | some after =>
    obtain ⟨t, rfl, word⟩ := eatWord_eq_some eaten
    simp only [List.length_cons] at enough
    apply (ih.and after (by omega)).bind
    rintro used right rest rfl shorter derived
    have whole : pre ++ t :: (used ++ rest) = (pre ++ t :: used) ++ rest := by simp
    rw [whole]
    exact ih.orLoop _ _ rest (.or before word derived) (by omega)

theorem andLoop_reads {pre ts : List Token} {left : Node} (before : Derives isLenientField .and pre left)
    (enough : 6 * ts.length + 1 ≤ fuel + 1) :
    Reads .and (pre ++ ts) (andLoop eoi (fuel + 1) left ts) := by
  simp only [Filter.andLoop, eatAnd_eq]
  cases eaten : eatWord "and" ts with
  | none => exact ⟨pre, rfl, before⟩
  | some after =>
    obtain ⟨t, rfl, word⟩ := eatWord_eq_some eaten
    simp only [List.length_cons] at enough
    apply (ih.not after (by omega)).bind
    rintro used right rest rfl shorter derived
    have whole : pre ++ t :: (used ++ rest) = (pre ++ t :: used) ++ rest := by simp
    rw [whole]
    exact ih.andLoop _ _ rest (.and before word derived) (by omega)

theorem parseNot_reads {ts : List Token} (enough : 6 * ts.length + 2 ≤ fuel + 1) :
    Reads .not ts (parseNot eoi (fuel + 1) ts) := by
  unfold parseNot
  cases eaten : eatWord "not" ts with
  | none =>
    apply (ih.primary ts (by omega) _).lift
    · exact fun _ _ => .primaryNot
    · intro t ht
      obtain ⟨rest, rfl⟩ := List.head?_eq_some_iff.mp ht
      rw [eatWord_cons] at eaten
      simpa using eaten
  | some after =>
    obtain ⟨t, rfl, word⟩ := eatWord_eq_some eaten
    simp only [List.length_cons] at enough
    apply (ih.not after (by omega)).bind
    rintro used inner rest rfl shorter derived
    exact ⟨t :: used, rfl, .not word derived⟩

theorem parsePrimary_reads {ts : List Token} (enough : 6 * ts.length + 1 ≤ fuel + 1)
    (plain : ∀ t ∈ ts.head?, isWord "not" t = false) :
    Reads .primary ts (parsePrimary eoi (fuel + 1) ts) := by
  cases ts with
  | nil => trivial
  | cons tok ts =>
    simp only [List.length_cons] at enough
    have field : tok.kind = .word → isLenientField tok = true := by
      intro word
      simp [isLenientField, word, plain tok (by simp)]
    simp only [parsePrimary]
    split
    · rename_i opening
      apply (ih.or ts (by omega)).bind
      rintro used inner rest rfl shorter derived
      cases rest with
      | nil => trivial
      | cons t rest =>
        dsimp only
        split
        · rename_i closing
          exact ⟨tok :: used ++ [t], by simp, .paren opening derived closing⟩
        · trivial
    · rename_i word
      split
      · exact ⟨[tok], rfl, .truthy (field word)⟩
      · rename_i next after
        split
        · rename_i op operator
          split
          · trivial
          · rename_i v rest
            split
            · rename_i n number
              exact ⟨[tok, next, v], rfl, .compare (field word) operator (by simp [value, number])⟩
            · rename_i text
              exact ⟨[tok, next, v], rfl, .compare (field word) operator (by simp [value, text])⟩
            · rename_i text
              exact ⟨[tok, next, v], rfl, .compare (field word) operator (by simp [value, text])⟩
            · trivial
        · exact ⟨[tok], rfl, .truthy (field word)⟩
    · trivial

end

theorem allRead (eoi fuel : ℕ) : AllRead eoi fuel := by
  induction fuel with
  | zero => constructor <;> intros <;> omega
  | succ fuel ih =>
    exact {
      or := fun _ => parseOr_reads ih
      orLoop := fun _ _ _ => orLoop_reads ih
      and := fun _ => parseAnd_reads ih
      andLoop := fun _ _ _ => andLoop_reads ih
      not := fun _ => parseNot_reads ih
      primary := fun _ => parsePrimary_reads ih }

theorem parseTokens_sound (ts : List Token) :
    parseTokens ts ≠ .panic ∧
      ∀ a, parseTokens ts = .ok a → Derives isLenientField .or ts a := by
  have read := (allRead (endOfInput ts) (6 * ts.length + 4)).or ts le_rfl
  unfold parseTokens
  cases result : parseOr (endOfInput ts) (6 * ts.length + 4) ts with
  | panic => rw [result] at read; exact read.elim
  | err e => simp
  | ok result' =>
    obtain ⟨a, rest⟩ := result'
    rw [result] at read
    obtain ⟨used, split, derived⟩ := read
    cases rest with
    | nil =>
      rw [List.append_nil] at split
      subst split
      simp [derived]
    | cons t rest => simp

/- What a term may be followed by: an operator would turn a field into a comparison. -/
def NotOp (rest : List Token) : Prop := ∀ t ∈ rest.head?, ∀ op, t.kind ≠ .op op

theorem notOp_word {w : String} {t : Token} (h : isWord w t = true) (rest : List Token) :
    NotOp (t :: rest) := by
  rintro _ ⟨rfl⟩ op operator
  rw [isWord_kind h] at operator
  contradiction

theorem eatWord_other {v w : String} {t : Token} (h : isWord v t = true)
    (differ : asciiLower v.toList ≠ asciiLower w.toList) (rest : List Token) :
    eatWord w (t :: rest) = none := by
  rw [eatWord_cons, if_neg]
  exact fun same => differ (isWord_unique h same)

/-- What the parser makes of the tokens of a derivation, whatever follows them. The two
loops may still go on, so theirs is a statement about where they stand. -/
def Completes (eoi : ℕ) (ts : List Token) (a : Node) : Level → Prop
  | .or => ∀ fuel rest, 6 * (ts ++ rest).length + 4 ≤ fuel → NotOp rest → eatWord "and" rest = none →
      ∃ left, 6 * rest.length + 1 ≤ left ∧ parseOr eoi fuel (ts ++ rest) = orLoop eoi left a rest
  | .and => ∀ fuel rest, 6 * (ts ++ rest).length + 3 ≤ fuel → NotOp rest →
      ∃ left, 6 * rest.length + 1 ≤ left ∧ parseAnd eoi fuel (ts ++ rest) = andLoop eoi left a rest
  | .not => ∀ fuel rest, 6 * (ts ++ rest).length + 2 ≤ fuel → NotOp rest →
      parseNot eoi fuel (ts ++ rest) = .ok (a, rest)
  | .primary => ∀ fuel rest, 6 * (ts ++ rest).length + 1 ≤ fuel → NotOp rest →
      eatWord "not" (ts ++ rest) = none ∧ parsePrimary eoi fuel (ts ++ rest) = .ok (a, rest)

theorem orLoop_done {eoi left : ℕ} {a : Node} {rest : List Token} (spare : 1 ≤ left)
    (stop : eatWord "or" rest = none) : orLoop eoi left a rest = .ok (a, rest) := by
  obtain ⟨fuel, rfl⟩ := Nat.exists_eq_add_of_le' spare
  simp only [orLoop, eatOr_eq, stop]

theorem andLoop_done {eoi left : ℕ} {a : Node} {rest : List Token} (spare : 1 ≤ left)
    (stop : eatWord "and" rest = none) : andLoop eoi left a rest = .ok (a, rest) := by
  obtain ⟨fuel, rfl⟩ := Nat.exists_eq_add_of_le' spare
  simp only [andLoop, eatAnd_eq, stop]

theorem parsePrimary_field {eoi fuel : ℕ} {t : Token} {rest : List Token}
    (field : isLenientField t = true) (follow : NotOp rest) :
    parsePrimary eoi (fuel + 1) (t :: rest) = .ok (.truthy t.text, rest) := by
  simp only [isLenientField, Bool.and_eq_true, decide_eq_true_eq] at field
  simp only [parsePrimary, field.1]
  cases rest with
  | nil => rfl
  | cons next after =>
    dsimp only
    split
    · rename_i op operator
      exact absurd operator (follow next rfl op)
    · rfl

theorem parsePrimary_compare {eoi fuel : ℕ} {t o v : Token} {op : Op} {x : Value} {rest : List Token}
    (field : isLenientField t = true) (operator : o.kind = .op op) (hx : value v = some x) :
    parsePrimary eoi (fuel + 1) (t :: o :: v :: rest) = .ok (.compare t.text op x, rest) := by
  simp only [isLenientField, Bool.and_eq_true, decide_eq_true_eq] at field
  simp only [parsePrimary, field.1, operator]
  unfold value at hx
  split at hx
  · cases hx
    simp only [*]
  · cases hx
    simp only [*]
  · cases hx
    simp only [*]
  · contradiction

theorem eatWord_field {t : Token} (field : isLenientField t = true) (rest : List Token) :
    eatWord "not" (t :: rest) = none := by
  simp only [isLenientField, Bool.and_eq_true, Bool.not_eq_true'] at field
  simp [eatWord_cons, field.2]

/- A parenthesis is no word. -/
theorem eatWord_symbol {w : String} {t : Token} (symbol : t.kind ≠ .word) (rest : List Token) :
    eatWord w (t :: rest) = none := by
  rw [eatWord_cons, if_neg]
  exact fun word => symbol (isWord_kind word)

section Rules

variable {eoi : ℕ} {ts us : List Token} {t : Token} {a b : Node}

/- The loop takes one more operand and goes on. -/
theorem completes_or (left : Completes eoi ts a .or) (word : isWord "or" t = true)
    (right : Completes eoi us b .and) (pos : 0 < us.length) :
    Completes eoi (ts ++ t :: us) (.or a b) .or := by
  intro fuel rest enough follow stop
  have whole : (ts ++ t :: us) ++ rest = ts ++ t :: (us ++ rest) := by simp
  rw [whole] at enough ⊢
  obtain ⟨left, spare, reached⟩ := left fuel (t :: (us ++ rest)) enough (notOp_word word _)
    (eatWord_other word (by decide) _)
  obtain ⟨left, rfl⟩ := Nat.exists_eq_add_of_le' (by omega : 1 ≤ left)
  simp only [List.length_cons] at spare
  obtain ⟨inner, more, read⟩ := right left rest (by omega) follow
  refine ⟨left, ?_, ?_⟩
  · simp only [List.length_append] at spare
    omega
  · rw [reached, orLoop, eatOr_eq, eatWord_cons, if_pos word]
    dsimp only
    rw [read, andLoop_done (by omega) stop]
    rfl

theorem completes_and (left : Completes eoi ts a .and) (word : isWord "and" t = true)
    (right : Completes eoi us b .not) (pos : 0 < us.length) :
    Completes eoi (ts ++ t :: us) (.and a b) .and := by
  intro fuel rest enough follow
  have whole : (ts ++ t :: us) ++ rest = ts ++ t :: (us ++ rest) := by simp
  rw [whole] at enough ⊢
  obtain ⟨left, spare, reached⟩ := left fuel (t :: (us ++ rest)) enough (notOp_word word _)
  obtain ⟨left, rfl⟩ := Nat.exists_eq_add_of_le' (by omega : 1 ≤ left)
  simp only [List.length_cons] at spare
  have read := right left rest (by omega) follow
  refine ⟨left, ?_, ?_⟩
  · simp only [List.length_append] at spare
    omega
  · rw [reached, andLoop, eatAnd_eq, eatWord_cons, if_pos word]
    dsimp only
    rw [read]
    rfl

/- Both loops stop at the closing parenthesis. -/
theorem completes_paren {l r : Token} (opening : l.kind = .lParen) (inside : Completes eoi ts a .or)
    (closing : r.kind = .rParen) : Completes eoi (l :: ts ++ [r]) a .primary := by
  intro fuel rest enough follow
  have whole : (l :: ts ++ [r]) ++ rest = l :: (ts ++ r :: rest) := by simp
  rw [whole] at enough ⊢
  obtain ⟨fuel, rfl⟩ := Nat.exists_eq_add_of_le' (by omega : 1 ≤ fuel)
  simp only [List.length_cons] at enough
  have stop : ∀ w, eatWord w (r :: rest) = none := fun w => eatWord_symbol (by simp [closing]) rest
  have notOp : NotOp (r :: rest) := by
    rintro _ ⟨rfl⟩ op operator
    rw [closing] at operator
    contradiction
  obtain ⟨left, spare, reached⟩ := inside fuel (r :: rest) (by omega) notOp (stop "and")
  constructor
  · exact eatWord_symbol (by simp [opening]) _
  · simp only [parsePrimary, opening]
    rw [reached, orLoop_done (by omega) (stop "or")]
    simp [closing]

end Rules

theorem completes (eoi : ℕ) {level : Level} {ts : List Token} {a : Node}
    (h : Derives isLenientField level ts a) : Completes eoi ts a level := by
  induction h with
  | @andOr ts a _ ih =>
    intro fuel rest enough follow stop
    obtain ⟨fuel, rfl⟩ := Nat.exists_eq_add_of_le' (by omega : 1 ≤ fuel)
    obtain ⟨left, spare, reached⟩ := ih fuel rest (by omega) follow
    refine ⟨fuel, ?_, ?_⟩
    · simp only [List.length_append] at enough
      omega
    · rw [parseOr, reached, andLoop_done (by omega) stop]
      rfl
  | or _ word right left_ih right_ih => exact completes_or left_ih word right_ih right.pos
  | @notAnd ts a _ ih =>
    intro fuel rest enough follow
    obtain ⟨fuel, rfl⟩ := Nat.exists_eq_add_of_le' (by omega : 1 ≤ fuel)
    refine ⟨fuel, ?_, ?_⟩
    · simp only [List.length_append] at enough
      omega
    · rw [parseAnd, ih fuel rest (by omega) follow]
      rfl
  | and _ word right left_ih right_ih => exact completes_and left_ih word right_ih right.pos
  | @not ts t a word _ ih =>
    intro fuel rest enough follow
    obtain ⟨fuel, rfl⟩ := Nat.exists_eq_add_of_le' (by omega : 1 ≤ fuel)
    simp only [List.cons_append, List.length_cons] at enough ⊢
    rw [parseNot, eatWord_cons, if_pos word]
    dsimp only
    rw [ih fuel rest (by omega) follow]
    rfl
  | @primaryNot ts a _ ih =>
    intro fuel rest enough follow
    obtain ⟨fuel, rfl⟩ := Nat.exists_eq_add_of_le' (by omega : 1 ≤ fuel)
    obtain ⟨plain, read⟩ := ih fuel rest (by omega) follow
    rw [parseNot, plain]
    exact read
  | paren opening _ closing ih => exact completes_paren opening ih closing
  | truthy field =>
    intro fuel rest enough follow
    obtain ⟨fuel, rfl⟩ := Nat.exists_eq_add_of_le' (by omega : 1 ≤ fuel)
    exact ⟨eatWord_field field _, parsePrimary_field field follow⟩
  | compare field operator hx =>
    intro fuel rest enough follow
    obtain ⟨fuel, rfl⟩ := Nat.exists_eq_add_of_le' (by omega : 1 ≤ fuel)
    exact ⟨eatWord_field field _, parsePrimary_compare field operator hx⟩

theorem parseTokens_complete {ts : List Token} {a : Node} (h : Derives isLenientField .or ts a) :
    parseTokens ts = .ok a := by
  have whole := completes (endOfInput ts) h
  obtain ⟨left, spare, reached⟩ := whole (6 * ts.length + 4) [] (by simp) (by simp [NotOp]) rfl
  rw [List.append_nil, orLoop_done (by simpa using spare) rfl] at reached
  simp only [parseTokens, reached, Outcome.ok_bind, Outcome.pure_eq]

/-- The parser and the grammar agree on every list of tokens. -/
theorem parseTokens_iff (ts : List Token) (a : Node) :
    parseTokens ts = .ok a ↔ Derives isLenientField .or ts a :=
  ⟨(parseTokens_sound ts).2 a, parseTokens_complete⟩

end Stallwatch.Filter
