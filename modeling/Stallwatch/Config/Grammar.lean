import Mathlib.Algebra.GroupWithZero.Nat
import Stallwatch.Config.Scan
import Stallwatch.Config.Strings

/-! Lines as they are meant to be written, each with what all of its text says, and the
condition under which a line that is read is one of them. -/
namespace Stallwatch.Toml

open Text

/-- A quoted string. -/
inductive Quoted : List Char → List Char → Prop
  | literal {body : List Char} : '\'' ∉ body → Quoted ('\'' :: (body ++ ['\''])) body
  | basic {body s : List Char} : Basic body s → Quoted ('"' :: (body ++ ['"'])) s

/-- Quoted strings with commas between them; a last comma may be left standing. -/
inductive Listed : List Char → List (List Char) → Prop
  | none {blank : List Char} : Blank blank → Listed blank []
  | one {before q after x : List Char} : Blank before → Quoted q x → Blank after →
      Listed (before ++ q ++ after) [x]
  | more {before q after x rest : List Char} {xs : List (List Char)} : Blank before → Quoted q x →
      Blank after → Listed rest xs → Listed (before ++ q ++ after ++ ',' :: rest) (x :: xs)

inductive WholeValue : List Char → Val → Prop
  | true_ : WholeValue "true".toList (.bool true)
  | false_ : WholeValue "false".toList (.bool false)
  | int {text : List Char} {i : Int64} : parseInt64 text = some i → WholeValue text (.int i)
  | str {q s : List Char} : Quoted q s → WholeValue q (.str s)
  | arr {text : List Char} {xs : List (List Char)} : Listed text xs →
      WholeValue ('[' :: (text ++ [']'])) (.arr xs)

/-- A comment, or nothing. -/
def Comment (text : List Char) : Prop := text = [] ∨ ∃ words, text = '#' :: words

/-- A line that is wholly a header or a setting, apart from blanks and a comment. -/
inductive WholeLine : List Char → Entry → Prop
  | blank {pad comment : List Char} : Blank pad → Comment comment → WholeLine (pad ++ comment) .blank
  | rule {before name after comment : List Char} : Blank before → Blank after → Comment comment →
      trim name = "rule".toList →
      WholeLine (before ++ ('[' :: '[' :: (name ++ [']', ']'])) ++ after ++ comment) .rule
  | table {before name after comment : List Char} : Blank before → Blank after → Comment comment →
      trim name = capture ∨ trim name = notify →
      WholeLine (before ++ ('[' :: (name ++ [']'])) ++ after ++ comment) (.table (trim name))
  | setting {key before value after comment : List Char} {v : Val} : '=' ∉ key → Blank before →
      Blank after → Comment comment → WholeValue value v →
      WholeLine (key ++ '=' :: (before ++ value ++ after ++ comment)) (.setting (trim key) v)

/-- None of the four escapes, and no backslash at the end. -/
def noEscapes : List Char → Bool
  | [] => true
  | c :: cs =>
    if c = '\\' then
      match cs with
      | [] => false
      | d :: ds => decide (d ≠ '"' ∧ d ≠ '\\' ∧ d ≠ 'n' ∧ d ≠ 't') && noEscapes ds
    else noEscapes cs

/-- No quote at either end. -/
def bareEnds (body : List Char) : Bool :=
  body.head?.all (fun c => !isQuote c) && body.getLast?.all fun c => !isQuote c

def tidyItem : List Char → Bool
  | '\'' :: rest =>
    match stripSuffix ['\''] rest with
    | some body => decide ('\'' ∉ body) && bareEnds body
    | none => false
  | '"' :: rest =>
    match stripSuffix ['"'] rest with
    | some body => decide ('"' ∉ body) && noEscapes body && bareEnds body
    | none => false
  | _ => false

/-- Every piece is an item; the last may be blank. -/
def tidyItems : List (List Char) → Bool
  | [] => true
  | [p] => trim p = [] || tidyItem (trim p)
  | p :: ps => tidyItem (trim p) && tidyItems ps

def tidyList (rest : List Char) : Bool :=
  match stripSuffix [']'] rest with
  | some inner => tidyItems (inner.splitOn ',')
  | none => false

/-- What stands behind the closing quote of a basic string. -/
def behindBasic : List Char → List Char
  | [] => []
  | c :: cs =>
    if c = '"' then cs
    else if c = '\\' then
      match cs with
      | [] => []
      | _ :: ds => behindBasic ds
    else behindBasic cs

def behindLiteral (cs : List Char) : List Char := (cs.dropWhile (· ≠ '\'')).tail

/-- Blanks and a comment at most. -/
def noTail (behind : List Char) : Bool :=
  match trimStartMatches isWhitespace behind with
  | [] => true
  | c :: _ => c = '#'

def tidyValue : List Char → Bool
  | '[' :: rest => tidyList rest
  | '\'' :: rest => noTail (behindLiteral rest)
  | '"' :: rest => noTail (behindBasic rest)
  | _ => true

/-- One pair of closing brackets behind the name and nothing else: the header ends there. -/
def closes (close rest name : List Char) : Bool :=
  match stripSuffix close rest with
  | some x => trim x = name
  | none => false

/-- The line has one closing bracket for each it opens, nothing but a comment behind a
string, and in a list one piece between commas for each item. -/
def tidy (raw : List Char) : Bool :=
  match trim (stripComment raw) with
  | '[' :: '[' :: rest => closes [']', ']'] rest "rule".toList
  | '[' :: rest => closes [']'] rest capture || closes [']'] rest notify
  | s =>
    match splitOnce '=' s with
    | some (_, v) => tidyValue (trim v)
    | none => true

theorem stripSuffix_eq_some {suf cs x : List Char} : stripSuffix suf cs = some x ↔ cs = x ++ suf := by
  unfold stripSuffix
  constructor
  · intro found
    split at found
    · rename_i suffix
      cases found
      obtain ⟨front, rfl⟩ := List.isSuffixOf_iff_suffix.mp suffix
      simp
    · cases found
  · rintro rfl
    rw [if_pos (List.isSuffixOf_iff_suffix.mpr (List.suffix_append _ _))]
    simp

section Items

variable {body s q x : List Char}

/- Without escapes a text stands for itself. -/
theorem basic_self (noQuote : '"' ∉ body) (plain : noEscapes body = true) : Basic body body := by
  induction h : body.length using Nat.strongRecOn generalizing body with
  | ind n ih =>
    subst h
    cases body with
    | nil => exact .nil
    | cons c cs =>
      rw [List.mem_cons, not_or] at noQuote
      by_cases slash : c = '\\'
      · subst slash
        cases cs with
        | nil => cases plain
        | cons d ds =>
          rw [List.mem_cons, not_or] at noQuote
          have shape : noEscapes ('\\' :: d :: ds) =
            (decide (d ≠ '"' ∧ d ≠ '\\' ∧ d ≠ 'n' ∧ d ≠ 't') && noEscapes ds) := rfl
          rw [shape, Bool.and_eq_true, decide_eq_true_eq] at plain
          obtain ⟨⟨quote, slash, newline, tab⟩, plain⟩ := plain
          have same : escape d = ['\\', d] := by simp [escape, quote, slash, newline, tab]
          have rest := Basic.escape d (ih ds.length (by simp only [List.length_cons]; omega) noQuote.2.2 plain rfl)
          rw [same] at rest
          exact rest
      · have shape : noEscapes (c :: cs) = noEscapes cs := by
          rw [noEscapes.eq_def]
          simp only [if_neg slash]
        rw [shape] at plain
        exact .plain c (Ne.symm noQuote.1) slash (ih cs.length (by simp) noQuote.2 plain rfl)

theorem escape_length (d : Char) :
    (escape d).length ≤ 2 ∧ ((escape d).length = 2 → d ≠ '"' ∧ d ≠ '\\' ∧ d ≠ 'n' ∧ d ≠ 't') := by
  unfold escape
  split
  · simp
  split
  · simp
  split
  · simp
  split
  · simp
  · rename_i quote slash newline tab
    exact ⟨le_refl _, fun _ => ⟨quote, slash, newline, tab⟩⟩

/- Every escape shortens the text. -/
theorem basic_length (basic : Basic body s) :
    s.length ≤ body.length ∧ (s.length = body.length → '"' ∉ body ∧ noEscapes body = true) := by
  induction basic with
  | nil => exact ⟨le_refl _, fun _ => ⟨by simp, rfl⟩⟩
  | plain c quote slash basic ih =>
    refine ⟨by simpa using ih.1, fun same => ?_⟩
    obtain ⟨noQuote, plain⟩ := ih.2 (by simpa using same)
    refine ⟨by simp [Ne.symm quote, noQuote], ?_⟩
    rw [noEscapes.eq_def]
    simp only [if_neg slash]
    exact plain
  | @escape d body s basic ih =>
    have short := escape_length d
    simp only [List.length_append, List.length_cons]
    refine ⟨by omega, fun same => ?_⟩
    have free := short.2 (by omega)
    obtain ⟨noQuote, plain⟩ := ih.2 (by omega)
    refine ⟨by simp [Ne.symm free.1, noQuote], ?_⟩
    have shape : noEscapes ('\\' :: d :: body) =
      (decide (d ≠ '"' ∧ d ≠ '\\' ∧ d ≠ 'n' ∧ d ≠ 't') && noEscapes body) := rfl
    rw [shape, decide_eq_true free, plain]
    rfl

theorem basic_plain (basic : Basic body s) (plain : noEscapes body = true) : s = body := by
  induction basic with
  | nil => rfl
  | @plain c body s quote slash basic ih =>
    have shape : noEscapes (c :: body) = noEscapes body := by
      rw [noEscapes.eq_def]
      simp only [if_neg slash]
    rw [ih (shape.symm.trans plain)]
  | @escape d body s basic ih =>
    have shape : noEscapes ('\\' :: d :: body) =
      (decide (d ≠ '"' ∧ d ≠ '\\' ∧ d ≠ 'n' ∧ d ≠ 't') && noEscapes body) := rfl
    rw [shape, Bool.and_eq_true, decide_eq_true_eq] at plain
    obtain ⟨⟨quote, slash, newline, tab⟩, rest⟩ := plain
    rw [ih rest]
    simp [escape, quote, slash, newline, tab]

/- A quote at an end of the text is one of what it stands for. -/
theorem basic_head (basic : Basic body s) {c : Char} (head : body.head? = some c)
    (quote : isQuote c = true) : s.head? = some c := by
  cases basic with
  | nil => cases head
  | plain d _ _ _ => exact head
  | escape d _ =>
    cases head
    cases quote

theorem escape_last {c : Char} (quote : isQuote c = true) : (escape c).getLast? = some c := by
  simp only [isQuote, Bool.or_eq_true, beq_iff_eq] at quote
  rcases quote with rfl | rfl <;> rfl

theorem basic_last (basic : Basic body s) {c : Char} (last : body.getLast? = some c)
    (quote : isQuote c = true) : s.getLast? = some c := by
  induction basic with
  | nil => cases last
  | @plain d body s _ _ inner ih =>
    rw [List.getLast?_cons] at last ⊢
    cases ends : body.getLast? with
    | none =>
      rw [List.getLast?_eq_none_iff.mp ends] at inner
      cases inner
      rw [ends] at last
      exact last
    | some e =>
      rw [ends] at last
      rw [ih (ends.trans last)]
      rfl
  | @escape d body s inner ih =>
    rw [List.getLast?_cons, List.getLast?_cons] at last
    rw [List.getLast?_append]
    cases ends : body.getLast? with
    | none =>
      rw [List.getLast?_eq_none_iff.mp ends] at inner
      cases inner
      rw [ends] at last
      cases last
      exact escape_last quote
    | some e =>
      rw [ends] at last
      rw [ih (ends.trans last)]
      rfl

/- What the code makes of an item. -/
theorem trim_item {c : Char} (quote : isQuote c = true) (body : List Char) :
    trimMatches isQuote (c :: (body ++ [c])) = trimMatches isQuote body := by
  have one : ∀ d ∈ [c], isQuote d = true := by
    intro d member
    rw [List.mem_singleton.mp member]
    exact quote
  exact trimMatches_pad one one body

theorem bareEnds_iff : bareEnds body = true ↔
    (∀ c, body.head? = some c → isQuote c = false) ∧ ∀ c, body.getLast? = some c → isQuote c = false := by
  rw [bareEnds, Bool.and_eq_true]
  cases body.head? <;> cases body.getLast? <;> simp

theorem trim_bareEnds (bare : bareEnds body = true) : trimMatches isQuote body = body := by
  obtain ⟨front, back⟩ := bareEnds_iff.mp bare
  exact trimMatches_self front back

/- If the item stands for what is left of it without quotes, it has none at its ends. -/
theorem bareEnds_of_same (same : trimMatches isQuote body = s)
    (head : ∀ c, body.head? = some c → isQuote c = true → s.head? = some c)
    (last : ∀ c, body.getLast? = some c → isQuote c = true → s.getLast? = some c) :
    bareEnds body = true := by
  rw [bareEnds_iff]
  constructor
  · intro c first
    by_contra quote
    rw [Bool.not_eq_false] at quote
    obtain ⟨rest, front⟩ := List.head?_eq_some_iff.mp (head c first quote)
    rw [trimMatches_head (same.trans front)] at quote
    cases quote
  · intro c final
    by_contra quote
    rw [Bool.not_eq_false] at quote
    obtain ⟨rest, back⟩ := List.getLast?_eq_some_iff.mp (last c final quote)
    rw [trimMatches_last (same.trans back)] at quote
    cases quote

theorem tidyItem_iff (quoted : Quoted q x) :
    trimMatches isQuote q = x ↔ tidyItem q = true := by
  cases quoted with
  | @literal body clean =>
    have strip : stripSuffix ['\''] (x ++ ['\'']) = some x := stripSuffix_eq_some.mpr rfl
    have shape : tidyItem ('\'' :: (x ++ ['\''])) = (decide ('\'' ∉ x) && bareEnds x) := by
      simp only [tidyItem, strip]
    rw [trim_item rfl, shape, decide_eq_true clean, Bool.true_and]
    exact ⟨fun same => bareEnds_of_same same (fun _ h _ => h) fun _ h _ => h, trim_bareEnds⟩
  | @basic body _ basic =>
    have strip : stripSuffix ['"'] (body ++ ['"']) = some body := stripSuffix_eq_some.mpr rfl
    have shape : tidyItem ('"' :: (body ++ ['"'])) =
        (decide ('"' ∉ body) && noEscapes body && bareEnds body) := by
      simp only [tidyItem, strip]
    rw [trim_item rfl, shape]
    constructor
    · intro same
      have bare := bareEnds_of_same same (fun _ => basic_head basic) fun _ => basic_last basic
      have whole : body = x := (trim_bareEnds bare).symm.trans same
      obtain ⟨noQuote, plain⟩ := (basic_length basic).2 (by rw [whole])
      rw [decide_eq_true noQuote, plain, bare]
      rfl
    · intro tidy
      simp only [Bool.and_eq_true, decide_eq_true_eq] at tidy
      obtain ⟨⟨noQuote, plain⟩, bare⟩ := tidy
      rw [trim_bareEnds bare, basic_plain basic plain]

end Items

/-- The pieces between commas that are not blank. -/
def pieces (text : List Char) : List (List Char) := ((text.splitOn ',').map trim).filter (· ≠ [])

theorem items_eq (rest : List Char) :
    items rest = (pieces (trimEndMatches (· == ']') rest)).map (trimMatches isQuote) := rfl

theorem pieces_append (as bs : List Char) : pieces (as ++ ',' :: bs) = pieces as ++ pieces bs := by
  rw [pieces, List.splitOn_append_cons_self, List.map_append, List.filter_append]
  rfl

theorem pieces_single {text : List Char} (whole : ',' ∉ text) (some : trim text ≠ []) :
    pieces text = [trim text] := by
  rw [pieces, List.splitOn_eq_singleton whole]
  simp [some]

/- A character that is neither blank nor a comma is in some piece. -/
theorem pieces_pos {text : List Char} {c : Char} (member : c ∈ text) (dark : isWhitespace c = false)
    (other : c ≠ ',') : 0 < (pieces text).length := by
  induction text using split_induct ',' with
  | whole text comma =>
    have some : trim text ≠ [] := by
      intro none
      rw [trim_eq_nil.mp none c member] at dark
      cases dark
    rw [pieces_single comma some]
    exact Nat.one_pos
  | cut as bs _ front back =>
    rw [pieces_append, List.length_append]
    rcases List.mem_append.mp member with here | later
    · exact Nat.add_pos_left (front here) _
    · exact Nat.add_pos_right _ (back ((List.mem_cons.mp later).resolve_left other))

theorem quoted_ends {q x : List Char} (quoted : Quoted q x) :
    ∃ c body, isQuote c = true ∧ q = c :: (body ++ [c]) := by
  cases quoted with
  | @literal body _ => exact ⟨'\'', _, rfl, rfl⟩
  | @basic body _ _ => exact ⟨'"', _, rfl, rfl⟩

theorem quote_dark {c : Char} (quote : isQuote c = true) : isWhitespace c = false ∧ c ≠ ',' := by
  simp only [isQuote, Bool.or_eq_true, beq_iff_eq] at quote
  rcases quote with rfl | rfl <;> decide

section Padded

variable {before q after x : List Char}

theorem trim_padded (quoted : Quoted q x) (front : Blank before) (back : Blank after) :
    trim (before ++ q ++ after) = q := by
  obtain ⟨c, body, quote, rfl⟩ := quoted_ends quoted
  rw [trim_pad front back]
  have dark := (quote_dark quote).1
  apply trimMatches_self
  · intro d first
    cases first
    exact dark
  · intro d last
    rw [← List.cons_append, List.getLast?_concat, Option.some.injEq] at last
    exact last ▸ dark

/- An item is one piece, or more if it has a comma. -/
theorem pieces_item (quoted : Quoted q x) (front : Blank before) (back : Blank after) :
    (',' ∉ q ∧ pieces (before ++ q ++ after) = [q]) ∨ 2 ≤ (pieces (before ++ q ++ after)).length := by
  obtain ⟨c, body, quote, rfl⟩ := quoted_ends quoted
  obtain ⟨dark, other⟩ := quote_dark quote
  by_cases comma : ',' ∈ body
  · right
    obtain ⟨as, bs, rfl⟩ := List.append_of_mem comma
    have split : before ++ c :: (as ++ ',' :: bs ++ [c]) ++ after =
        (before ++ c :: as) ++ ',' :: (bs ++ c :: after) := by simp
    rw [split, pieces_append, List.length_append]
    have left : 0 < (pieces (before ++ c :: as)).length := pieces_pos (by simp) dark other
    have right : 0 < (pieces (bs ++ c :: after)).length := pieces_pos (by simp) dark other
    omega
  · left
    have blank : ∀ {pad : List Char}, Blank pad → ',' ∉ pad := by
      intro pad blank member
      have white := blank _ member
      revert white
      decide
    have whole : ',' ∉ c :: (body ++ [c]) := by simp [comma, Ne.symm other]
    refine ⟨whole, ?_⟩
    rw [pieces_single, trim_padded quoted front back]
    · simp only [List.mem_append, not_or]
      exact ⟨⟨blank front, whole⟩, blank back⟩
    · rw [trim_padded quoted front back]
      exact List.cons_ne_nil _ _

end Padded

theorem pieces_blank {text : List Char} (blank : Blank text) : ',' ∉ text ∧ pieces text = [] := by
  have whole : ',' ∉ text := by
    intro member
    have white := blank _ member
    revert white
    decide
  refine ⟨whole, ?_⟩
  rw [pieces, List.splitOn_eq_singleton whole]
  simp [trim_blank blank]

theorem tidyItems_cons {p : List Char} {ps : List (List Char)} (some : ps ≠ []) :
    tidyItems (p :: ps) = (tidyItem (trim p) && tidyItems ps) := by
  cases ps with
  | nil => exact absurd rfl some
  | cons p' ps => rfl

/- A list has a piece for each item, and where the pieces are read as the items each is one. -/
theorem listed_tidy {text : List Char} {xs : List (List Char)} (listed : Listed text xs) :
    xs.length ≤ (pieces text).length ∧
      ((pieces text).map (trimMatches isQuote) = xs → tidyItems (text.splitOn ',') = true) := by
  induction listed with
  | none blank =>
    obtain ⟨whole, none⟩ := pieces_blank blank
    refine ⟨Nat.zero_le _, fun _ => ?_⟩
    rw [List.splitOn_eq_singleton whole]
    simp [tidyItems, trim_blank blank]
  | @one before q after x front quoted back =>
    have item := pieces_item quoted front back
    refine ⟨?_, fun same => ?_⟩
    · rcases item with ⟨_, one⟩ | two
      · rw [one]
        exact le_refl _
      · exact Nat.le_of_succ_le two
    · rcases item with ⟨whole, one⟩ | two
      · rw [one, List.map_singleton, List.singleton_inj] at same
        have noComma : ',' ∉ before ++ q ++ after := by
          simp only [List.mem_append, not_or]
          exact ⟨⟨(pieces_blank front).1, whole⟩, (pieces_blank back).1⟩
        rw [List.splitOn_eq_singleton noComma, tidyItems, trim_padded quoted front back,
          (tidyItem_iff quoted).mp same, Bool.or_true]
      · have length := congrArg List.length same
        rw [List.length_map, List.length_singleton] at length
        omega
  | @more before q after x rest xs front quoted back _ ih =>
    have item := pieces_item quoted front back
    rw [pieces_append, List.length_append, List.length_cons, List.map_append]
    refine ⟨?_, fun same => ?_⟩
    · rcases item with ⟨_, one⟩ | two
      · rw [one, List.length_singleton]
        omega
      · omega
    · rcases item with ⟨whole, one⟩ | two
      · rw [one, List.map_singleton, List.singleton_append, List.cons.injEq] at same
        have noComma : ',' ∉ before ++ q ++ after := by
          simp only [List.mem_append, not_or]
          exact ⟨⟨(pieces_blank front).1, whole⟩, (pieces_blank back).1⟩
        rw [List.splitOn_append_cons_self_of_not_mem noComma,
          tidyItems_cons (List.splitOn_ne_nil _ _), trim_padded quoted front back,
          (tidyItem_iff quoted).mp same.1, ih.2 same.2]
        rfl
      · have length := congrArg List.length same
        rw [List.length_append, List.length_map, List.length_map, List.length_cons] at length
        omega

theorem quoted_of_tidy {q : List Char} (tidy : tidyItem q = true) : Quoted q (trimMatches isQuote q) := by
  unfold tidyItem at tidy
  split at tidy
  · rename_i rest
    split at tidy
    · rename_i body strip
      rw [stripSuffix_eq_some.mp strip, trim_item rfl]
      simp only [Bool.and_eq_true, decide_eq_true_eq] at tidy
      rw [trim_bareEnds tidy.2]
      exact .literal tidy.1
    · cases tidy
  · rename_i rest
    split at tidy
    · rename_i body strip
      rw [stripSuffix_eq_some.mp strip, trim_item rfl]
      simp only [Bool.and_eq_true, decide_eq_true_eq] at tidy
      rw [trim_bareEnds tidy.2]
      exact .basic (basic_self tidy.1.1 tidy.1.2)
    · cases tidy
  · cases tidy

theorem listed_of_tidy {ps : List (List Char)} (some : ps ≠ []) (tidy : tidyItems ps = true) :
    Listed ([','].intercalate ps) (((ps.map trim).filter (· ≠ [])).map (trimMatches isQuote)) := by
  induction ps with
  | nil => exact absurd rfl some
  | cons p ps ih =>
    obtain ⟨before, after, whole, front, back⟩ := trim_split p
    have quoted : tidyItem (trim p) = true → Quoted (trim p) (trimMatches isQuote (trim p)) ∧ trim p ≠ [] := by
      intro item
      refine ⟨quoted_of_tidy item, fun none => ?_⟩
      rw [none] at item
      cases item
    cases ps with
    | nil =>
      have text : [','].intercalate [p] = p := by simp [List.intercalate]
      rw [text]
      rcases Bool.or_eq_true_iff.mp tidy with none | item
      · have none := of_decide_eq_true none
        simp only [List.map_cons, List.map_nil, none, ne_eq, not_true_eq_false, decide_false,
          Bool.false_eq_true, not_false_eq_true, List.filter_cons_of_neg, List.filter_nil]
        exact .none (trim_eq_nil.mp none)
      · obtain ⟨quoted, some⟩ := quoted item
        have one := Listed.one front quoted back
        rw [← whole] at one
        simpa [some] using one
    | cons p' ps =>
      rw [tidyItems_cons (List.cons_ne_nil _ _), Bool.and_eq_true] at tidy
      obtain ⟨quoted, some⟩ := quoted tidy.1
      have more := Listed.more front quoted back (ih (List.cons_ne_nil _ _) tidy.2)
      rw [← whole] at more
      have text : [','].intercalate (p :: p' :: ps) = p ++ ',' :: [','].intercalate (p' :: ps) := by
        simp [List.intercalate]
      rw [text, List.map_cons, List.filter_cons_of_pos (by simp [some]), List.map_cons]
      exact more

/- The text of a list ends in no bracket of its own. -/
theorem listed_last {text : List Char} {xs : List (List Char)} (listed : Listed text xs) :
    trimEndMatches (· == ']') text = text := by
  have padded : ∀ {before q after x : List Char}, Quoted q x → Blank after →
      ∀ c, (before ++ q ++ after).getLast? = some c → (c == ']') = false := by
    intro before q after x quoted back c last
    obtain ⟨d, body, quote, rfl⟩ := quoted_ends quoted
    rw [List.getLast?_append] at last
    cases ends : after.getLast? with
    | none =>
      rw [ends, Option.none_or, List.getLast?_append, ← List.cons_append, List.getLast?_concat] at last
      cases last
      simp only [isQuote, Bool.or_eq_true, beq_iff_eq] at quote
      rcases quote with rfl | rfl <;> rfl
    | some e =>
      rw [ends] at last
      cases last
      have white := back c (List.mem_of_getLast? ends)
      rw [beq_eq_false_iff_ne]
      rintro rfl
      revert white
      decide
  apply trimEnd_self
  induction listed with
  | none blank =>
    intro c last
    have white := blank c (List.mem_of_getLast? last)
    rw [beq_eq_false_iff_ne]
    rintro rfl
    revert white
    decide
  | one _ quoted back => exact padded quoted back
  | @more before q after x rest xs _ _ _ _ ih =>
    intro c last
    rw [List.getLast?_append, List.getLast?_cons] at last
    cases ends : rest.getLast? with
    | none =>
      rw [ends] at last
      cases last
      rfl
    | some e =>
      rw [ends] at last
      exact ih c (ends.trans last)

def hashes (xs : List (List Char)) : ℕ := (xs.map (·.count '#')).sum

theorem count_all {p : Char → Bool} (free : p '#' = false) {cs : List Char}
    (all : ∀ c ∈ cs, p c = true) : cs.count '#' = 0 := by
  rw [List.count_eq_zero]
  intro member
  have holds := all _ member
  rw [free] at holds
  cases holds

/- Trimming what is no `#` loses none. -/
theorem count_trimEnd {p : Char → Bool} (free : p '#' = false) (cs : List Char) :
    (trimEndMatches p cs).count '#' = cs.count '#' := by
  obtain ⟨back, whole, skipped⟩ := trimEnd_split p cs
  have parts := congrArg (List.count '#') whole
  rw [List.count_append, count_all free skipped, Nat.add_zero] at parts
  exact parts.symm

theorem count_trimMatches {p : Char → Bool} (free : p '#' = false) (cs : List Char) :
    (trimMatches p cs).count '#' = cs.count '#' := by
  obtain ⟨front, whole, skipped⟩ := trimStart_split p cs
  calc (trimMatches p cs).count '#'
      = (trimStartMatches p cs).count '#' := count_trimEnd free _
    _ = (front ++ trimStartMatches p cs).count '#' := by
        rw [List.count_append, count_all free skipped, Nat.zero_add]
    _ = cs.count '#' := by rw [← whole]

theorem hashes_splitOn (text : List Char) : hashes (text.splitOn ',') = text.count '#' := by
  induction text using split_induct ',' with
  | whole text comma =>
    rw [List.splitOn_eq_singleton comma]
    simp [hashes]
  | cut as bs _ left right =>
    rw [hashes] at left right
    rw [List.splitOn_append_cons_self, hashes, List.map_append, List.sum_append, left, right,
      List.count_append, List.count_cons_of_ne (by decide)]

theorem hashes_pieces (text : List Char) :
    hashes ((pieces text).map (trimMatches isQuote)) = text.count '#' := by
  rw [← hashes_splitOn, pieces]
  induction text.splitOn ',' with
  | nil => rfl
  | cons p ps ih =>
    have same : (trim p).count '#' = p.count '#' := count_trimMatches (by decide) p
    rw [List.map_cons, List.filter_cons]
    split
    · simp only [hashes, List.map_cons, List.sum_cons] at ih ⊢
      rw [count_trimMatches (by decide), same, ih]
    · rename_i blank
      have none : trim p = [] := by simpa using blank
      rw [none] at same
      simp only [hashes, List.map_cons, List.sum_cons] at ih ⊢
      rw [ih, ← same]
      simp

theorem basic_hashes {body s : List Char} (basic : Basic body s) : s.count '#' = body.count '#' := by
  induction basic with
  | nil => rfl
  | plain c _ _ _ ih => simp [List.count_cons, ih]
  | escape d _ ih =>
    have one : (escape d).count '#' = (['\\', d] : List Char).count '#' := by
      unfold escape
      split
      · rename_i same
        subst same
        rfl
      split
      · rename_i same
        subst same
        rfl
      split
      · rename_i same
        subst same
        rfl
      split
      · rename_i same
        subst same
        rfl
      · rfl
    rw [List.count_append, ih, one]
    simp only [List.count_cons, List.count_nil]
    omega

theorem quoted_hashes {q x : List Char} (quoted : Quoted q x) : x.count '#' = q.count '#' := by
  cases quoted with
  | literal _ => simp [List.count_append]
  | basic basic => simp [List.count_append, basic_hashes basic]

theorem listed_hashes {text : List Char} {xs : List (List Char)} (listed : Listed text xs) :
    hashes xs = text.count '#' := by
  have blank : ∀ {pad : List Char}, Blank pad → pad.count '#' = 0 :=
    fun blank => count_all (by decide) blank
  induction listed with
  | none pad => rw [blank pad]; rfl
  | one front quoted back =>
    simp [hashes, List.count_append, blank front, blank back, quoted_hashes quoted]
  | more front quoted back _ ih =>
    simp only [hashes, List.map_cons, List.sum_cons] at ih ⊢
    rw [ih, quoted_hashes quoted]
    simp [List.count_append, blank front, blank back]

end Stallwatch.Toml
