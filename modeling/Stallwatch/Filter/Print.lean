import Stallwatch.Filter.Grammar
import Stallwatch.Filter.Items

/-! Expressions written as text, with the parentheses their tree needs and no others.
Compiling the text gives the tree back. -/
namespace Stallwatch.Filter

open Text Utf8

/-- The quote put around a string and the digits written for a number. -/
structure Style where
  quote : List Char → Char
  digits : F64 → List Char

def valueText (style : Style) : Value → List Char
  | .num n => style.digits n
  | .str s => style.quote s :: (s ++ [style.quote s])

def parens (needed : Bool) (text : List Char) : List Char :=
  if needed then '(' :: (text ++ [')']) else text

/-- Two terms and the connective between them. -/
def joined (left : List Char) (w : String) (right : List Char) : List Char :=
  left ++ ([' '] ++ (w.toList ++ ([' '] ++ right)))

/-- The text of a tree where the grammar expects `level`. -/
def render (style : Style) : Level → Node → List Char
  | level, .or a b => parens (level ≠ .or) (joined (render style .or a) "or" (render style .and b))
  | level, .and a b =>
    parens (level = .not || level = .primary)
      (joined (render style .and a) "and" (render style .not b))
  | level, .not a => parens (level = .primary) ("not".toList ++ ([' '] ++ render style .not a))
  | _, .truthy field => field
  | _, .compare field op value =>
    field ++ ([' '] ++ (op.display.toList ++ ([' '] ++ valueText style value)))

/-- An ASCII name that is one word and no connective. -/
def isFieldText (text : List Char) : Bool :=
  text.all (fun c => c.toNat < 0x80 && (isAlphanumeric c || c == '_' || c == '.' || c == '-')) &&
    text.head?.any (fun c => isAlphabetic c || c == '_') &&
    ["and", "or", "not"].all fun w => !eqIgnoreAsciiCase text w.toList

/-- Digits, with points, that the number conversion reads as `n`. -/
def IsLiteral (f : Rounding) (text : List Char) (n : F64) : Prop :=
  text.head?.any Char.isDigit = true ∧ text.all isNumberChar = true ∧ F64.parse f text = some n

def PrintableValue (f : Rounding) (style : Style) : Value → Prop
  | .num n => IsLiteral f (style.digits n) n
  | .str s => (style.quote s = '"' ∨ style.quote s = '\'') ∧ style.quote s ∉ s

def Printable (f : Rounding) (style : Style) : Node → Prop
  | .or a b | .and a b => Printable f style a ∧ Printable f style b
  | .not a => Printable f style a
  | .truthy field => isFieldText field = true
  | .compare field _ value => isFieldText field = true ∧ PrintableValue f style value

/-- The scan of `text` yields `ts` and goes on with `rest`. -/
def Emits (f : Rounding) (total : ℕ) (text rest : List Char) (ts : List Token) : Prop :=
  scan f total (text ++ rest) = scan f total rest >>= fun tail => .ok (ts ++ tail)

section
variable {f : Rounding} {total : ℕ} {rest : List Char}

theorem Emits.append {a b : List Char} {ts us : List Token} (first : Emits f total a (b ++ rest) ts)
    (second : Emits f total b rest us) : Emits f total (a ++ b) rest (ts ++ us) := by
  unfold Emits at *
  rw [List.append_assoc, first, second, bind_assoc]
  simp

theorem Emits.token (total : ℕ) {used : List Char} {piece : List Char × Kind}
    (h : Item f used (some piece) rest) : ∃ i, Emits f total used rest [tokenAt i piece] :=
  ⟨_, scan_item h total⟩

theorem Emits.space : Emits f total [' '] rest [] :=
  scan_item (.space rfl (by decide)) total

end

/-- What may come after a printed term. -/
def Ends (rest : List Char) : Prop := ∀ d ∈ rest.head?, d = ' ' ∨ d = ')'

theorem ends_space (rest : List Char) : Ends (' ' :: rest) := by
  rintro _ ⟨rfl⟩
  exact .inl rfl

theorem ends_close (rest : List Char) : Ends (')' :: rest) := by
  rintro _ ⟨rfl⟩
  exact .inr rfl

theorem isWordChar_ascii {c : Char} (ascii : c.toNat < 0x80) :
    isWordChar c = (isAlphanumeric c || c == '_' || c == '.' || c == '-') := by
  rw [isWordChar, encode_ascii ascii, List.all_cons, List.all_nil, Bool.and_true, isWordByte,
    asChar_ascii ascii]

theorem Ends.word {rest : List Char} (ends : Ends rest) :
    ∀ d ∈ rest.head?, isWordChar d = false ∧ isTorn d = false := by
  intro d hd
  rcases ends d hd with rfl | rfl
  · decide
  · decide

theorem Ends.number {rest : List Char} (ends : Ends rest) : ∀ d ∈ rest.head?, isNumberChar d = false := by
  intro d hd
  rcases ends d hd with rfl | rfl
  · decide
  · decide

theorem Ends.suffix {rest : List Char} (ends : Ends rest) : suffixScale rest = none := by
  cases rest with
  | nil => rfl
  | cons d rest =>
    rcases ends d rfl with rfl | rfl
    · rfl
    · rfl

theorem field_item {text : List Char} (field : isFieldText text = true) (f : Rounding)
    {rest : List Char} (ends : Ends rest) : Item f text (some (text, .word)) rest := by
  simp only [isFieldText, Bool.and_eq_true, List.all_eq_true, decide_eq_true_eq] at field
  obtain ⟨⟨all, first⟩, _⟩ := field
  cases text with
  | nil => simp at first
  | cons c cs =>
    have ascii : c.toNat < 0x80 := (all c (by simp)).1
    apply Item.word _ _ ends.word
    · rw [lead_ascii ascii]
      simpa using first
    · rw [List.all_eq_true]
      intro x hx
      rw [isWordChar_ascii (all x hx).1]
      exact (all x hx).2

theorem field_token {text : List Char} (field : isFieldText text = true) (i : ℕ) :
    isField (tokenAt i (text, .word)) = true := by
  simp only [isFieldText, Bool.and_eq_true, List.all_cons, Bool.not_eq_true'] at field
  obtain ⟨_, notAnd, notOr, notNot, _⟩ := field
  simp only [isField, isReserved, isWord, tokenAt, notAnd, notOr, notNot]
  rfl

theorem op_item (op : Op) (f : Rounding) (rest : List Char) :
    Item f op.display.toList (some (op.display.toList, .op op)) (' ' :: rest) := by
  cases op with
  | eq => exact .two rfl
  | ne => exact .two rfl
  | ge => exact .two rfl
  | le => exact .two rfl
  | gt => exact .one rfl (by simp [twoOp])
  | lt => exact .one rfl (by simp [twoOp])
  | «match» => exact .one rfl (by simp [twoOp])

theorem value_item {f : Rounding} {style : Style} {v : Value} (printable : PrintableValue f style v)
    {rest : List Char} (ends : Ends rest) :
    ∃ piece, Item f (valueText style v) (some piece) rest ∧ ∀ i, value (tokenAt i piece) = some v := by
  cases v with
  | str s => exact ⟨_, .quotation printable.1 printable.2, fun _ => rfl⟩
  | num n =>
    obtain ⟨first, all, parsed⟩ := printable
    cases text : style.digits n with
    | nil => simp [text] at first
    | cons c cs =>
      rw [text] at first all parsed
      simp only [List.all_cons, Bool.and_eq_true] at all
      refine ⟨(c :: cs, .num n), ?_, fun _ => rfl⟩
      rw [valueText, text]
      exact .number (by simpa using first) all.2 ends.number parsed ends.suffix

theorem keyword_item {w : String} (keyword : w ∈ ["and", "or", "not"]) (f : Rounding)
    (rest : List Char) : Item f w.toList (some (w.toList, .word)) (' ' :: rest) := by
  simp only [List.mem_cons, List.not_mem_nil, or_false] at keyword
  rcases keyword with rfl | rfl | rfl
  · exact .word (.inl rfl) rfl (ends_space rest).word
  · exact .word (.inl rfl) rfl (ends_space rest).word
  · exact .word (.inl rfl) rfl (ends_space rest).word

theorem keyword_token (w : String) (i : ℕ) : isWord w (tokenAt i (w.toList, .word)) = true := by
  simp [isWord, tokenAt, eqIgnoreAsciiCase]

/-- The text scans to tokens of the tree, whatever comes after it. -/
def Prints (f : Rounding) (level : Level) (text : List Char) (a : Node) : Prop :=
  ∀ total rest, Ends rest → ∃ ts, Derives isField level ts a ∧ Emits f total text rest ts

theorem Prints.lift {f : Rounding} {level level' : Level} {text : List Char} {a : Node}
    (h : Prints f level text a) (lift : ∀ ts, Derives isField level ts a → Derives isField level' ts a) :
    Prints f level' text a := by
  intro total rest ends
  obtain ⟨ts, derived, emits⟩ := h total rest ends
  exact ⟨ts, lift ts derived, emits⟩

/- A term, a connective between blanks, and another term. -/
theorem Prints.join {f : Rounding} {level level' whole : Level} {text text' : List Char} {a b node : Node}
    {w : String} (keyword : w ∈ ["and", "or", "not"]) (left : Prints f level text a)
    (right : Prints f level' text' b)
    (rule : ∀ ts t us, Derives isField level ts a → isWord w t = true → Derives isField level' us b →
      Derives isField whole (ts ++ t :: us) node) : Prints f whole (joined text w text') node := by
  intro total rest ends
  obtain ⟨us, derived', emits'⟩ := right total rest ends
  obtain ⟨i, word⟩ := Emits.token total (keyword_item keyword f (text' ++ rest))
  obtain ⟨ts, derived, emits⟩ := left total ([' '] ++ (w.toList ++ ([' '] ++ text')) ++ rest)
    (ends_space _)
  refine ⟨_, rule ts _ us derived (keyword_token w i) derived', ?_⟩
  exact emits.append (Emits.space.append (Emits.append word (Emits.space.append emits')))

theorem Derives.widen {field : Token → Bool} {ts : List Token} {a : Node}
    (h : Derives field .primary ts a) (level : Level) : Derives field level ts a := by
  cases level with
  | or => exact .andOr (.notAnd (.primaryNot h))
  | and => exact .notAnd (.primaryNot h)
  | not => exact .primaryNot h
  | primary => exact h

theorem Prints.parens {f : Rounding} {level : Level} {text : List Char} {a : Node} {needed : Bool}
    (whole : Prints f .or text a) (bare : needed = false → Prints f level text a) :
    Prints f level (parens needed text) a := by
  cases needed with
  | false => exact bare rfl
  | true =>
    intro total rest ends
    obtain ⟨ts, derived, emits⟩ := whole total ([')'] ++ rest) (ends_close rest)
    obtain ⟨i, opening⟩ := Emits.token total (@Item.lParen f (text ++ [')'] ++ rest))
    obtain ⟨j, closing⟩ := Emits.token total (@Item.rParen f rest)
    refine ⟨_, (Derives.paren (l := tokenAt i (['('], .lParen)) (r := tokenAt j ([')'], .rParen)) rfl
      derived rfl).widen level, ?_⟩
    exact opening.append (emits.append closing)

theorem truthy_prints {f : Rounding} {field : List Char} (name : isFieldText field = true)
    (level : Level) : Prints f level field (.truthy field) := by
  intro total rest ends
  obtain ⟨i, word⟩ := Emits.token total (field_item name f ends)
  exact ⟨_, (Derives.truthy (field_token name i)).widen level, word⟩

theorem compare_prints {f : Rounding} {style : Style} {field : List Char} {v : Value}
    (name : isFieldText field = true) (op : Op) (printable : PrintableValue f style v)
    (level : Level) :
    Prints f level (field ++ ([' '] ++ (op.display.toList ++ ([' '] ++ valueText style v))))
      (.compare field op v) := by
  intro total rest ends
  obtain ⟨piece, item, reads⟩ := value_item printable ends
  obtain ⟨k, last⟩ := Emits.token total item
  obtain ⟨j, middle⟩ := Emits.token total (op_item op f (valueText style v ++ rest))
  obtain ⟨i, first⟩ := Emits.token total (field_item name f
    (ends_space (op.display.toList ++ ([' '] ++ valueText style v) ++ rest)))
  refine ⟨_, (Derives.compare (o := tokenAt j (op.display.toList, .op op)) (field_token name i) rfl
    (reads k)).widen level, ?_⟩
  exact first.append (Emits.space.append (Emits.append middle (Emits.space.append last)))

theorem not_prints {f : Rounding} {text : List Char} {a : Node} (h : Prints f .not text a) :
    Prints f .not ("not".toList ++ ([' '] ++ text)) (.not a) := by
  intro total rest ends
  obtain ⟨ts, derived, emits⟩ := h total rest ends
  obtain ⟨i, word⟩ := Emits.token total
    (keyword_item (w := "not") (by decide) f (text ++ rest))
  exact ⟨_, .not (keyword_token "not" i) derived, Emits.append word (Emits.space.append emits)⟩

theorem prints (f : Rounding) (style : Style) (node : Node) (printable : Printable f style node)
    (level : Level) : Prints f level (render style level node) node := by
  induction node generalizing level with
  | or a b left right =>
    have whole := Prints.join (w := "or") (by decide) (left printable.1 .or) (right printable.2 .and)
      fun _ _ _ left word right => .or left word right
    apply whole.parens
    intro bare
    have same : level = .or := by simpa using bare
    rw [same]
    exact whole
  | and a b left right =>
    have whole := Prints.join (w := "and") (by decide) (left printable.1 .and) (right printable.2 .not)
      fun _ _ _ left word right => .and left word right
    have widest := whole.lift fun _ => .andOr
    apply widest.parens
    intro bare
    cases level with
    | or => exact widest
    | and => exact whole
    | not => contradiction
    | primary => contradiction
  | not a inner =>
    have whole := not_prints (inner printable .not)
    have wider : Prints f .and _ _ := whole.lift fun _ => .notAnd
    have widest : Prints f .or _ _ := wider.lift fun _ => .andOr
    apply widest.parens
    intro bare
    cases level with
    | or => exact widest
    | and => exact wider
    | not => exact whole
    | primary => contradiction
  | truthy field => exact truthy_prints printable level
  | compare field op v => exact compare_prints printable.1 op printable.2 level

/-- Compiling the text of a tree gives that tree. -/
theorem parse_render (f : Rounding) (style : Style) (node : Node)
    (printable : Printable f style node) :
    Filter.parse f (render style .or node) = .ok ⟨node, trim (render style .or node)⟩ := by
  obtain ⟨ts, derived, emits⟩ := prints f style node printable .or
    (bytes (render style .or node)).length [] (by simp [Ends])
  have tokens : lex f (render style .or node) = .ok ts := by
    rw [lex_eq]
    simpa [Emits] using emits
  have root := parseTokens_complete (derived.mono isField_lenient)
  simp only [Filter.parse, tokens, root, Outcome.ok_bind, Outcome.pure_eq]

/-- `not (a or b) and pct > 50 or unit ~ "x y"`. -/
theorem parse_render_mixed :
    let style : Style := ⟨fun _ => '"', fun _ => ['5', '0']⟩
    let node : Node := .or (.and (.not (.or (.truthy ['a']) (.truthy ['b'])))
      (.compare ['p', 'c', 't'] .gt (.num (.finite false 50))))
      (.compare ['u', 'n', 'i', 't'] .match (.str ['x', ' ', 'y']))
    Filter.parse Rounding.exact (render style .or node) =
      .ok ⟨node, trim (render style .or node)⟩ := by
  intro style node
  apply parse_render
  have number : F64.parse Rounding.exact ['5', '0'] = some (.finite false 50) :=
    F64.parse_decimal Rounding.exact 50
  exact ⟨⟨⟨rfl, rfl⟩, rfl, rfl, rfl, number⟩, rfl, .inl rfl, by decide⟩

end Stallwatch.Filter
