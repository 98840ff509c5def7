import Stallwatch.Filter.Grammar

/-! A connective in the place of a field. The parser only looks for `not` where a term
starts, so `and` and `or` pass for field names there. -/
namespace Stallwatch.Filter

/-- What the next token can be: the start of a term, what follows one, or a value. -/
inductive Place where
  | term | after | value

/-- The place after `t`, or none when `t` is a connective where a field should stand. -/
def Place.next (t : Token) : Place → Option Place
  | .term =>
    if isWord "not" t then some .term
    else if isWord "and" t || isWord "or" t then none
    else if t.kind = .word then some .after
    else some .term
  | .after =>
    if isWord "and" t || isWord "or" t then some .term
    else match t.kind with
      | .op _ => some .value
      | _ => some .after
  | .value => some .after

/-- Reading from the left, some `and` or `or` stands where a term should start. -/
def reservedFrom : Place → List Token → Bool
  | _, [] => false
  | place, t :: ts => (place.next t).elim true fun place => reservedFrom place ts

def reservedTerm (ts : List Token) : Bool := reservedFrom .term ts

/- The steps through the tokens of a rule. -/
theorem reserved_not {t : Token} (h : isWord "not" t = true) (rest : List Token) :
    reservedFrom .term (t :: rest) = reservedFrom .term rest := by
  simp [reservedFrom, Place.next, h]

theorem reserved_connective {t : Token} (h : isWord "and" t = true ∨ isWord "or" t = true)
    (rest : List Token) : reservedFrom .after (t :: rest) = reservedFrom .term rest := by
  rcases h with h | h
  · simp [reservedFrom, Place.next, h]
  · simp [reservedFrom, Place.next, h]

theorem isWord_symbol {t : Token} (h : t.kind ≠ .word) (w : String) : isWord w t = false := by
  simp [isWord, h]

theorem reserved_open {t : Token} (h : t.kind = .lParen) (rest : List Token) :
    reservedFrom .term (t :: rest) = reservedFrom .term rest := by
  have symbol := isWord_symbol (t := t) (by simp [h])
  simp [reservedFrom, Place.next, symbol, h]

theorem reserved_close {t : Token} (h : t.kind = .rParen) (rest : List Token) :
    reservedFrom .after (t :: rest) = reservedFrom .after rest := by
  have symbol := isWord_symbol (t := t) (by simp [h])
  simp [reservedFrom, Place.next, symbol, h]

theorem reserved_field {t : Token} (h : isField t = true) (rest : List Token) :
    reservedFrom .term (t :: rest) = reservedFrom .after rest := by
  simp only [isField, isReserved, Bool.and_eq_true, decide_eq_true_eq, Bool.not_eq_true',
    Bool.or_eq_false_iff] at h
  simp [reservedFrom, Place.next, h]

theorem reserved_value {o : Token} {op : Op} (h : o.kind = .op op) (v : Token) (rest : List Token) :
    reservedFrom .after (o :: v :: rest) = reservedFrom .after rest := by
  have symbol := isWord_symbol (t := o) (by simp [h])
  simp [reservedFrom, Place.next, symbol, h]

/- A term of the grammar is passed over. -/
theorem Derives.clean {level : Level} {ts : List Token} {a : Node} (h : Derives isField level ts a)
    (rest : List Token) : reservedFrom .term (ts ++ rest) = reservedFrom .after rest := by
  induction h generalizing rest with
  | andOr _ ih => exact ih rest
  | notAnd _ ih => exact ih rest
  | primaryNot _ ih => exact ih rest
  | or _ word _ left right =>
    rw [List.append_assoc, left, List.cons_append, reserved_connective (.inr word), right]
  | and _ word _ left right =>
    rw [List.append_assoc, left, List.cons_append, reserved_connective (.inl word), right]
  | not word _ ih => rw [List.cons_append, reserved_not word, ih]
  | paren opening _ closing ih =>
    rw [List.append_assoc, List.cons_append, reserved_open opening, ih, List.singleton_append,
      reserved_close closing]
  | truthy field => exact reserved_field field rest
  | compare field operator _ =>
    simp only [List.cons_append, List.nil_append]
    rw [reserved_field field, reserved_value operator]

theorem reserved_lenient {t : Token} (lenient : isLenientField t = true) :
    isField t = true ∨ ∀ rest, reservedFrom .term (t :: rest) = true := by
  simp only [isLenientField, Bool.and_eq_true, decide_eq_true_eq, Bool.not_eq_true'] at lenient
  cases connective : isWord "and" t || isWord "or" t with
  | true => exact .inr fun rest => by simp [reservedFrom, Place.next, lenient, connective]
  | false => exact .inl (by simp [isField, isReserved, lenient, connective])

/- What is accepted beyond the grammar has a connective for a field. -/
theorem Derives.strict {level : Level} {ts : List Token} {a : Node}
    (h : Derives isLenientField level ts a) :
    Derives isField level ts a ∨ ∀ rest, reservedFrom .term (ts ++ rest) = true := by
  induction h with
  | andOr _ ih => exact ih.imp .andOr id
  | notAnd _ ih => exact ih.imp .notAnd id
  | primaryNot _ ih => exact ih.imp .primaryNot id
  | or _ word _ left right =>
    rcases left with left | reserved
    · apply right.imp (.or left word)
      intro reserved rest
      rw [List.append_assoc, left.clean, List.cons_append, reserved_connective (.inr word), reserved]
    · exact .inr fun rest => by rw [List.append_assoc, reserved]
  | and _ word _ left right =>
    rcases left with left | reserved
    · apply right.imp (.and left word)
      intro reserved rest
      rw [List.append_assoc, left.clean, List.cons_append, reserved_connective (.inl word), reserved]
    · exact .inr fun rest => by rw [List.append_assoc, reserved]
  | not word _ ih =>
    apply ih.imp (.not word)
    intro reserved rest
    rw [List.cons_append, reserved_not word, reserved]
  | paren opening _ closing ih =>
    apply ih.imp fun inner => .paren opening inner closing
    intro reserved rest
    rw [List.append_assoc, List.cons_append, reserved_open opening, reserved]
  | truthy field => exact (reserved_lenient field).imp .truthy id
  | compare field operator hx =>
    exact (reserved_lenient field).imp (fun field => .compare field operator hx)
      fun reserved rest => reserved _

/-- The parser keeps to the grammar unless the tokens are an expression in which `and` or
`or` is used as a field. -/
theorem parseTokens_strict_iff (ts : List Token) :
    ((∃ a, parseTokens ts = .ok a) → ∃ a, Derives isField .or ts a) ↔
      ¬ ((∃ a, Derives isLenientField .or ts a) ∧ reservedTerm ts = true) := by
  constructor
  · rintro strict ⟨⟨a, lenient⟩, reserved⟩
    obtain ⟨b, derived⟩ := strict ⟨a, parseTokens_complete lenient⟩
    have clean := derived.clean []
    rw [List.append_nil] at clean
    rw [reservedTerm, clean] at reserved
    contradiction
  · rintro clean ⟨a, accepted⟩
    have lenient := (parseTokens_iff ts a).mp accepted
    rcases lenient.strict with strict | reserved
    · exact ⟨a, strict⟩
    · have whole := reserved []
      rw [List.append_nil] at whole
      exact absurd ⟨⟨a, lenient⟩, whole⟩ clean

/-- `a and and` lacks its last operand, and is compiled with a field named `and`. -/
theorem parse_dangling :
    lex Rounding.exact ['a', ' ', 'a', 'n', 'd', ' ', 'a', 'n', 'd'] =
        .ok [⟨['a'], .word, 0⟩, ⟨['a', 'n', 'd'], .word, 2⟩, ⟨['a', 'n', 'd'], .word, 6⟩] ∧
      Filter.parse Rounding.exact ['a', ' ', 'a', 'n', 'd', ' ', 'a', 'n', 'd'] =
        .ok ⟨.and (.truthy ['a']) (.truthy ['a', 'n', 'd']),
          ['a', ' ', 'a', 'n', 'd', ' ', 'a', 'n', 'd']⟩ ∧
      ¬ ∃ a, Derives isField .or
        [⟨['a'], .word, 0⟩, ⟨['a', 'n', 'd'], .word, 2⟩, ⟨['a', 'n', 'd'], .word, 6⟩] a := by
  refine ⟨rfl, rfl, ?_⟩
  rintro ⟨a, derived⟩
  exact absurd (derived.clean []) (by decide)

end Stallwatch.Filter
