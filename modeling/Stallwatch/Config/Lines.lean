import Stallwatch.Config.Grammar

/-! Which of the lines that are read are wholly what they are read as. -/
namespace Stallwatch.Toml

open Text

section Strings

variable {body s q x : List Char}

theorem literal_behind {rest text : List Char} (read : literalString rest = some text) :
    rest = text ++ '\'' :: behindLiteral rest ∧ '\'' ∉ text := by
  unfold literalString at read
  split at read
  · rename_i closed
    cases read
    obtain ⟨before, after, rfl, clean⟩ := List.eq_append_cons_of_mem closed
    have kept : ∀ c ∈ before, decide (c ≠ '\'') = true :=
      fun c member => decide_eq_true fun same => clean (same ▸ member)
    rw [behindLiteral, List.takeWhile_append_of_pos kept, List.takeWhile_cons_of_neg (by simp),
      List.append_nil, List.dropWhile_append_of_pos kept, List.dropWhile_cons_of_neg (by simp)]
    exact ⟨rfl, clean⟩
  · cases read

theorem behindLiteral_read (clean : '\'' ∉ body) (tail : List Char) :
    behindLiteral (body ++ '\'' :: tail) = tail := by
  have kept : ∀ c ∈ body, decide (c ≠ '\'') = true :=
    fun c member => decide_eq_true fun same => clean (same ▸ member)
  rw [behindLiteral, List.dropWhile_append_of_pos kept, List.dropWhile_cons_of_neg (by simp)]
  rfl

theorem behindBasic_char {c : Char} (quote : c ≠ '"') (slash : c ≠ '\\') (cs : List Char) :
    behindBasic (c :: cs) = behindBasic cs := by
  rw [behindBasic.eq_def]
  simp only [if_neg quote, if_neg slash]

theorem behindBasic_quote (cs : List Char) : behindBasic ('"' :: cs) = cs := by
  rw [behindBasic.eq_def]
  simp only [if_true]

theorem behindBasic_escape (d : Char) (cs : List Char) : behindBasic ('\\' :: d :: cs) = behindBasic cs := rfl

theorem behindBasic_read (basic : Basic body s) (tail : List Char) :
    behindBasic (body ++ '"' :: tail) = tail := by
  induction basic with
  | nil => exact behindBasic_quote tail
  | plain c quote slash _ ih => rw [List.cons_append, behindBasic_char quote slash, ih]
  | escape d _ ih => rw [List.cons_append, List.cons_append, behindBasic_escape, ih]

theorem basic_behind {rest : List Char} (read : basicString rest = some s) :
    ∃ body, Basic body s ∧ rest = body ++ '"' :: behindBasic rest := by
  induction h : rest.length using Nat.strongRecOn generalizing rest s with
  | ind n ih =>
    subst h
    cases rest with
    | nil => cases read
    | cons c cs =>
      by_cases quote : c = '"'
      · subst quote
        rw [basicString_quote] at read
        cases read
        exact ⟨[], .nil, by rw [behindBasic_quote]; rfl⟩
      by_cases slash : c = '\\'
      · subst slash
        cases cs with
        | nil => cases read
        | cons d ds =>
          rw [basicString_escape] at read
          obtain ⟨text, inner, rfl⟩ := Option.map_eq_some_iff.mp read
          obtain ⟨body, basic, whole⟩ := ih ds.length (by simp only [List.length_cons]; omega) inner rfl
          refine ⟨'\\' :: d :: body, .escape d basic, ?_⟩
          rw [behindBasic_escape, List.cons_append, List.cons_append, ← whole]
      · rw [basicString_char quote slash] at read
        obtain ⟨text, inner, rfl⟩ := Option.map_eq_some_iff.mp read
        obtain ⟨body, basic, whole⟩ := ih cs.length (by simp) inner rfl
        refine ⟨c :: body, .plain c quote slash basic, ?_⟩
        rw [behindBasic_char quote slash, List.cons_append, ← whole]

end Strings

theorem first_split {c : Char} {as bs as' bs' : List Char} (bare : c ∉ as) (bare' : c ∉ as')
    (whole : as ++ c :: bs = as' ++ c :: bs') : as = as' ∧ bs = bs' := by
  rcases List.append_eq_append_iff.mp whole with ⟨more, rfl, split⟩ | ⟨more, rfl, split⟩
  · cases more with
    | nil => exact ⟨by simp, by simpa using split⟩
    | cons d more =>
      rw [List.cons_append, List.cons.injEq] at split
      obtain ⟨rfl, _⟩ := split
      exact absurd (by simp) bare'
  · cases more with
    | nil => exact ⟨by simp, by simpa using split.symm⟩
    | cons d more =>
      rw [List.cons_append, List.cons.injEq] at split
      obtain ⟨rfl, _⟩ := split
      exact absurd (by simp) bare

section Unique

variable {before before' q q' after x x' t t' : List Char}

theorem quoted_start (quoted : Quoted q x) (front : Blank before) :
    trimStartMatches isWhitespace (before ++ q ++ t) = q ++ t := by
  obtain ⟨c, body, quote, rfl⟩ := quoted_ends quoted
  rw [List.append_assoc, trimStart_all front]
  exact List.dropWhile_cons_of_neg (by simp [(quote_dark quote).1])

theorem quoted_visible (quoted : Quoted q x) : ¬ Blank (before ++ q ++ t) := by
  obtain ⟨c, body, quote, rfl⟩ := quoted_ends quoted
  intro blank
  have white := blank c (by simp)
  rw [(quote_dark quote).1] at white
  cases white

/- A quoted string ends where its closing quote is. -/
theorem quoted_closes (first : Quoted q x) (second : Quoted q' x') (same : q ++ t = q' ++ t') :
    x = x' ∧ t = t' := by
  cases first with
  | @literal body clean =>
    cases second with
    | @literal body' clean' =>
      simp only [List.cons_append, List.append_assoc, List.nil_append, List.cons.injEq, true_and] at same
      have behind := congrArg behindLiteral same
      rw [behindLiteral_read clean, behindLiteral_read clean'] at behind
      rw [behind] at same
      exact ⟨List.append_cancel_right same, behind⟩
    | basic => cases (List.cons.inj same).1
  | @basic body _ basic =>
    cases second with
    | literal => cases (List.cons.inj same).1
    | @basic body' _ basic' =>
      simp only [List.cons_append, List.append_assoc, List.nil_append, List.cons.injEq, true_and] at same
      have behind := congrArg behindBasic same
      have value := congrArg basicString same
      rw [behindBasic_read basic, behindBasic_read basic'] at behind
      rw [basic_read basic, basic_read basic'] at value
      exact ⟨Option.some.inj value, behind⟩

theorem item_closes (first : Quoted q x) (second : Quoted q' x') (front : Blank before)
    (front' : Blank before') (same : before ++ q ++ t = before' ++ q' ++ t') : x = x' ∧ t = t' := by
  have started := congrArg (trimStartMatches isWhitespace) same
  rw [quoted_start first front, quoted_start second front'] at started
  exact quoted_closes first second started

theorem Listed.cases_text {text : List Char} {xs : List (List Char)} (listed : Listed text xs) :
    (Blank text ∧ xs = []) ∨
      (∃ before q after x, Blank before ∧ Quoted q x ∧ Blank after ∧ text = before ++ q ++ after ∧ xs = [x]) ∨
      ∃ before q after x rest xs', Blank before ∧ Quoted q x ∧ Blank after ∧ Listed rest xs' ∧
        text = before ++ q ++ (after ++ ',' :: rest) ∧ xs = x :: xs' := by
  cases listed with
  | none blank => exact .inl ⟨blank, rfl⟩
  | one front quoted back => exact .inr (.inl ⟨_, _, _, _, front, quoted, back, rfl, rfl⟩)
  | more front quoted back others =>
    exact .inr (.inr ⟨_, _, _, _, _, _, front, quoted, back, others, List.append_assoc _ _ _, rfl⟩)

/- A list says which items it has. -/
theorem Listed.unique {text : List Char} {xs ys : List (List Char)} (first : Listed text xs)
    (second : Listed text ys) : xs = ys := by
  induction first generalizing ys with
  | none blank =>
    rcases second.cases_text with ⟨_, rfl⟩ | ⟨_, _, _, _, _, quoted, _, rfl, _⟩ |
      ⟨_, _, _, _, _, _, _, quoted, _, _, rfl, _⟩
    · rfl
    · exact absurd blank (quoted_visible quoted)
    · exact absurd blank (quoted_visible quoted)
  | one front quoted back =>
    rcases second.cases_text with ⟨blank, _⟩ | ⟨_, _, _, _, front', quoted', _, same, rfl⟩ |
      ⟨_, _, _, _, _, _, front', quoted', _, _, same, rfl⟩
    · exact absurd blank (quoted_visible quoted)
    · rw [(item_closes quoted quoted' front front' same).1]
    · have comma := (pieces_blank back).1
      rw [(item_closes quoted quoted' front front' same).2] at comma
      exact absurd (by simp) comma
  | more front quoted back _ ih =>
    rw [List.append_assoc] at second
    rcases second.cases_text with ⟨blank, _⟩ | ⟨_, _, after', _, front', quoted', back', same, rfl⟩ |
      ⟨_, _, after', _, _, _, front', quoted', back', others, same, rfl⟩
    · exact absurd blank (quoted_visible quoted)
    · have comma := (pieces_blank back').1
      rw [← (item_closes quoted quoted' front front' same).2] at comma
      exact absurd (by simp) comma
    · obtain ⟨rfl, behind⟩ := item_closes quoted quoted' front front' same
      obtain ⟨_, rfl⟩ := first_split (pieces_blank back).1 (pieces_blank back').1 behind
      rw [ih others]

/-- The kind of a value, told by its first character. -/
def kindAt (c : Char) : ℕ :=
  if c = 't' then 0 else if c = 'f' then 1 else if isQuote c then 2 else if c = '[' then 3 else 4

def Val.kind : Val → ℕ
  | .bool true => 0
  | .bool false => 1
  | .str _ => 2
  | .arr _ => 3
  | .int _ => 4

theorem kindAt_digit {c : Char} (digit : c.isDigit = true) : kindAt c = 4 := by
  have apart : ∀ d, d.isDigit = false → c ≠ d := by
    rintro d other rfl
    rw [digit] at other
    cases other
  have quote : isQuote c = false := by
    simp only [isQuote, Bool.or_eq_false_iff, beq_eq_false_iff_ne]
    exact ⟨apart _ rfl, apart _ rfl⟩
  simp [kindAt, quote, apart 't' rfl, apart 'f' rfl, apart '[' rfl]

theorem int_kind {text : List Char} {i : Int64} (read : parseInt64 text = some i) :
    ∃ c rest, text = c :: rest ∧ kindAt c = 4 := by
  cases text with
  | nil => cases read
  | cons c rest =>
    refine ⟨c, rest, rfl, ?_⟩
    by_cases minus : c = '-'
    · rw [minus]
      rfl
    by_cases plus : c = '+'
    · rw [plus]
      rfl
    have bare : stripPlus (c :: rest) = c :: rest := by
      unfold stripPlus
      split
      · rename_i same
        exact absurd (List.cons.inj same).1 plus
      · rfl
    unfold parseInt64 at read
    split at read
    rename_i negative digits same
    split at same
    · rename_i minus'
      exact absurd (List.cons.inj minus').1 minus
    · cases same
      rw [bare] at read
      have number := (Option.ite_none_right_eq_some.mp read).1
      exact kindAt_digit (List.all_eq_true.mp number.2.1 c List.mem_cons_self)

theorem WholeValue.kind {text : List Char} {v : Val} (whole : WholeValue text v) :
    ∃ c rest, text = c :: rest ∧ kindAt c = v.kind := by
  cases whole with
  | true_ => exact ⟨_, _, rfl, rfl⟩
  | false_ => exact ⟨_, _, rfl, rfl⟩
  | int read => exact int_kind read
  | str quoted =>
    cases quoted with
    | literal => exact ⟨_, _, rfl, rfl⟩
    | basic => exact ⟨_, _, rfl, rfl⟩
  | arr => exact ⟨_, _, rfl, rfl⟩

theorem WholeValue.content {text : List Char} {v : Val} (whole : WholeValue text v) :
    match v with
    | .bool _ => True
    | .int i => parseInt64 text = some i
    | .str s => Quoted text s
    | .arr xs => ∃ inner, text = '[' :: (inner ++ [']']) ∧ Listed inner xs := by
  cases whole with
  | true_ => trivial
  | false_ => trivial
  | int read => exact read
  | str quoted => exact quoted
  | arr listed => exact ⟨_, rfl, listed⟩

theorem kind_alike {v w : Val} (same : v.kind = w.kind) :
    (∃ b, v = .bool b ∧ w = .bool b) ∨ (∃ i j, v = .int i ∧ w = .int j) ∨ (∃ s t, v = .str s ∧ w = .str t) ∨
      ∃ xs ys, v = .arr xs ∧ w = .arr ys := by
  rcases v with s | i | (_ | _) | xs <;> rcases w with t | j | (_ | _) | ys <;> simp [Val.kind] at same ⊢

/-- The whole text of a value determines the value. -/
theorem WholeValue.unique {text : List Char} {v w : Val} (first : WholeValue text v)
    (second : WholeValue text w) : v = w := by
  have alike : v.kind = w.kind := by
    obtain ⟨c, rest, rfl, kind⟩ := first.kind
    obtain ⟨d, rest', same, kind'⟩ := second.kind
    cases same
    exact kind.symm.trans kind'
  have content := first.content
  have content' := second.content
  rcases kind_alike alike with ⟨b, rfl, rfl⟩ | ⟨i, j, rfl, rfl⟩ | ⟨s, t, rfl, rfl⟩ | ⟨xs, ys, rfl, rfl⟩
  · rfl
  · rw [Option.some.inj (content.symm.trans content')]
  · rw [(quoted_closes content content' (rfl : text ++ [] = text ++ [])).1]
  · obtain ⟨inner, same, listed⟩ := content
    obtain ⟨inner', same', listed'⟩ := content'
    rw [same', List.cons.injEq] at same
    cases List.append_cancel_right same.2
    rw [listed.unique listed']

end Unique

/-- How a value was read. -/
inductive ValueRead : List Char → Val → Prop
  | true_ : ValueRead "true".toList (.bool true)
  | false_ : ValueRead "false".toList (.bool false)
  | arr (rest : List Char) : ValueRead ('[' :: rest) (.arr (items rest))
  | literal {rest text : List Char} : literalString rest = some text → ValueRead ('\'' :: rest) (.str text)
  | basic {rest text : List Char} : basicString rest = some text → ValueRead ('"' :: rest) (.str text)
  | int {s : List Char} {i : Int64} : parseInt64 s = some i → tidyValue s = true → ValueRead s (.int i)

theorem parseValue_cases {s : List Char} {v : Val} (read : parseValue s = .ok v) : ValueRead s v := by
  unfold parseValue at read
  split at read
  · rename_i same
    cases read
    exact same ▸ .true_
  split at read
  · rename_i same
    cases read
    exact same ▸ .false_
  split at read
  · cases read
    exact .arr _
  · split at read
    · rename_i text found
      cases read
      exact .literal found
    · cases read
  · split at read
    · rename_i text found
      cases read
      exact .basic found
    · cases read
  · rename_i bracket single double
    split at read
    · rename_i i found
      cases read
      refine .int found ?_
      unfold tidyValue
      split
      · exact absurd rfl (bracket _)
      · exact absurd rfl (single _)
      · exact absurd rfl (double _)
      · rfl
    · cases read

/-- How a line was read. -/
inductive LineRead (raw : List Char) : Entry → Prop
  | blank : Blank (stripComment raw) → LineRead raw .blank
  | rule {rest : List Char} : trim (stripComment raw) = '[' :: '[' :: rest → LineRead raw .rule
  | table {rest : List Char} : trim (stripComment raw) = '[' :: rest → rest.head? ≠ some '[' →
      LineRead raw (.table (trim (trimEndMatches (· == ']') rest)))
  | setting {key w : List Char} {v : Val} : stripComment raw = key ++ '=' :: w → '=' ∉ key →
      (∀ rest, trimStartMatches isWhitespace key ≠ '[' :: rest) → ValueRead (trim w) v →
      LineRead raw (.setting (trim key) v)

theorem splitOnce_mem {c : Char} {cs : List Char} {halves : List Char × List Char}
    (split : splitOnce c cs = some halves) : c ∈ cs := by
  by_contra none
  rw [splitOnce_none none] at split
  cases split

theorem readLine_cases {raw : List Char} {e : Entry} (read : readLine raw = .ok e) : LineRead raw e := by
  unfold readLine at read
  simp only at read
  split at read
  · rename_i none
    cases read
    exact .blank (trim_eq_nil.mp none)
  · rename_i some
    split at read
    · rename_i rest shape
      split at read
      · cases read
        exact .rule shape
      · cases read
    · rename_i rest single shape
      split at read
      · cases read
        refine .table shape fun front => ?_
        obtain ⟨more, rfl⟩ := List.head?_eq_some_iff.mp front
        exact single more rfl
      · cases read
    · rename_i double single
      split at read
      · cases read
      · rename_i k v split
        obtain ⟨before, after, padded, _, _⟩ := trim_split (stripComment raw)
        have among : '=' ∈ stripComment raw := by
          rw [padded]
          exact List.mem_append_left _ (List.mem_append_right _ (splitOnce_mem split))
        obtain ⟨key, w, whole, bare⟩ := List.eq_append_cons_of_mem among
        have noHeader : ∀ rest, trimStartMatches isWhitespace key ≠ '[' :: rest := by
          intro rest front
          apply single (rest ++ '=' :: trimEndMatches isWhitespace w)
          rw [whole, trim_stop not_blank_equals, front]
          rfl
        rw [whole, splitOnce_trim bare] at split
        cases split
        rw [trim_trimEnd, trim_trimStart] at read
        cases value : parseValue (trim w) with
        | error msg =>
          rw [value] at read
          cases read
        | ok val =>
          rw [value] at read
          cases read
          exact .setting whole bare noHeader (parseValue_cases value)

/- The condition on a setting line is one on its value. -/
theorem tidy_setting {raw key w : List Char} (stripped : stripComment raw = key ++ '=' :: w)
    (bare : '=' ∉ key) (noHeader : ∀ rest, trimStartMatches isWhitespace key ≠ '[' :: rest) :
    tidy raw = tidyValue (trim w) := by
  have header : ∀ rest, trim (key ++ '=' :: w) ≠ '[' :: rest := by
    rw [trim_stop not_blank_equals]
    intro rest same
    cases front : trimStartMatches isWhitespace key with
    | nil =>
      rw [front] at same
      cases same
    | cons c cs =>
      rw [front, List.cons_append, List.cons.injEq] at same
      rw [front, same.1] at noHeader
      exact noHeader cs rfl
  rw [tidy, stripped]
  split
  · rename_i double
    exact absurd double (header _)
  · rename_i single
    exact absurd single (header _)
  · rw [splitOnce_trim bare]
    simp only [trim_trimEnd]

section Tails

variable {after comment : List Char}

theorem noTail_iff {behind : List Char} : noTail behind = true ↔
    ∃ after comment, behind = after ++ comment ∧ Blank after ∧ Comment comment := by
  constructor
  · intro tail
    obtain ⟨after, whole, blank⟩ := trimStart_split isWhitespace behind
    refine ⟨after, trimStartMatches isWhitespace behind, whole, blank, ?_⟩
    rw [noTail] at tail
    split at tail
    · rename_i none
      exact .inl none
    · rename_i c words shape
      rw [shape, of_decide_eq_true tail]
      exact .inr ⟨words, rfl⟩
  · rintro ⟨after, comment, rfl, blank, none | ⟨words, rfl⟩⟩
    · have gone : trimStartMatches isWhitespace (after ++ comment) = [] := by
        rw [none, List.append_nil]
        exact List.dropWhile_eq_nil_iff.mpr blank
      rw [noTail, gone]
    · have kept : trimStartMatches isWhitespace (after ++ '#' :: words) = '#' :: words := by
        rw [trimStart_all blank]
        exact List.dropWhile_cons_of_neg (by decide)
      rw [noTail, kept]
      rfl

/- What is left of blanks and a comment once the line is cut and trimmed. -/
theorem noTail_cut {part : List Char} (blank : Blank after) (words : Comment comment)
    (cut : part <+: after ++ comment) : noTail (trimEndMatches isWhitespace part) = true := by
  obtain ⟨more, whole⟩ := (trimEnd_front isWhitespace part).trans cut
  rw [noTail_iff]
  rcases List.append_eq_append_iff.mp whole with ⟨rest, split, _⟩ | ⟨rest, split, front⟩
  · refine ⟨trimEndMatches isWhitespace part, [], (List.append_nil _).symm, ?_, .inl rfl⟩
    intro c member
    exact blank c (split ▸ List.mem_append_left _ member)
  · refine ⟨after, rest, split, blank, ?_⟩
    rcases words with none | ⟨text, rfl⟩
    · rw [none] at front
      exact .inl (List.append_eq_nil_iff.mp front.symm).1
    · cases rest with
      | nil => exact .inl rfl
      | cons d rest =>
        rw [List.cons_append, List.cons.injEq] at front
        exact .inr ⟨rest, by rw [← front.1]⟩

/- What stands behind a comment or after it is still a comment. -/
theorem comment_join {first second : List Char} (front : Comment first) (blank : Blank after)
    (back : Comment second) :
    ∃ pad rest, first ++ after ++ second = pad ++ rest ∧ Blank pad ∧ Comment rest := by
  rcases front with rfl | ⟨words, rfl⟩
  · exact ⟨after, second, by rw [List.nil_append], blank, back⟩
  · exact ⟨[], '#' :: words ++ after ++ second, rfl, blank_nil, .inr ⟨words ++ after ++ second, by simp⟩⟩

end Tails

/- A tidy value is a whole value with blanks and a comment behind it at most. -/
theorem whole_of_tidyValue {text : List Char} {v : Val} (read : ValueRead text v)
    (tidy : tidyValue text = true) : ∃ value after comment,
      text = value ++ after ++ comment ∧ WholeValue value v ∧ Blank after ∧ Comment comment := by
  have alone : ∀ {v}, WholeValue text v → ∃ value after comment,
      text = value ++ after ++ comment ∧ WholeValue value v ∧ Blank after ∧ Comment comment :=
    fun value => ⟨text, [], [], by simp, value, blank_nil, .inl rfl⟩
  cases read with
  | true_ => exact alone .true_
  | false_ => exact alone .false_
  | int found _ => exact alone (.int found)
  | arr rest =>
    simp only [tidyValue, tidyList] at tidy
    split at tidy
    · rename_i inner closed
      have listed := listed_of_tidy (List.splitOn_ne_nil ',' inner) tidy
      rw [List.intercalate_splitOn] at listed
      have stops : trimEndMatches (· == ']') (inner ++ [']']) = inner := by
        rw [trimEnd_all (by simp), listed_last listed]
      apply alone
      rw [stripSuffix_eq_some.mp closed, items_eq, stops]
      exact .arr listed
    · cases tidy
  | @literal rest x found =>
    obtain ⟨whole, clean⟩ := literal_behind found
    obtain ⟨after, comment, tail, blank, words⟩ := noTail_iff.mp tidy
    refine ⟨_, after, comment, ?_, .str (.literal clean), blank, words⟩
    rw [List.append_assoc, ← tail, List.cons_append, List.append_assoc, List.singleton_append, ← whole]
  | @basic rest x found =>
    obtain ⟨body, basic, whole⟩ := basic_behind found
    obtain ⟨after, comment, tail, blank, words⟩ := noTail_iff.mp tidy
    refine ⟨_, after, comment, ?_, .str (.basic basic), blank, words⟩
    rw [List.append_assoc, ← tail, List.cons_append, List.append_assoc, List.singleton_append, ← whole]

section Cut

variable {before q x after comment w : List Char}

theorem quoted_tidy (quoted : Quoted q x) (tail : List Char) : tidyValue (q ++ tail) = noTail tail := by
  cases quoted with
  | literal clean =>
    rw [List.cons_append, List.append_assoc]
    exact congrArg noTail (behindLiteral_read clean tail)
  | basic basic =>
    rw [List.cons_append, List.append_assoc]
    exact congrArg noTail (behindBasic_read basic tail)

/- A string cut before its closing quote is not read. -/
theorem quoted_cut (quoted : Quoted q x) {part : List Char} (cut : part <+: q) (short : part ≠ q)
    (y : List Char) : ¬ ValueRead part (.str y) := by
  have inner : ∀ {c : Char} {body p : List Char}, c :: p <+: c :: (body ++ [c]) →
      c :: p ≠ c :: (body ++ [c]) → p <+: body := by
    intro c body p cut short
    have later := (List.cons_prefix_cons.mp cut).2
    rcases List.prefix_concat_iff.mp later with same | within
    · exact absurd (congrArg (c :: ·) same) short
    · exact within
  intro read
  cases quoted with
  | literal clean =>
    cases read with
    | literal found =>
      have within := inner cut short
      obtain ⟨whole, _⟩ := literal_behind found
      apply clean
      refine within.subset ?_
      rw [whole]
      exact List.mem_append_right _ List.mem_cons_self
    | basic found => cases (List.cons_prefix_cons.mp cut).1
  | basic basic =>
    cases read with
    | literal found => cases (List.cons_prefix_cons.mp cut).1
    | basic found =>
      rw [basic_cut basic (inner cut short)] at found
      cases found

theorem trim_front {c : Char} (blank : Blank before) (dark : isWhitespace c = false) (cs : List Char) :
    trim (before ++ c :: cs) = c :: trimEndMatches isWhitespace cs := by
  have gone : trimStartMatches isWhitespace before = [] := List.dropWhile_eq_nil_iff.mpr blank
  rw [trim_stop dark, gone, List.nil_append]

/- A string read from a cut line that is one string apart from blanks and a comment. -/
theorem tidy_of_quoted (quoted : Quoted q x) (front : Blank before) (back : Blank after)
    (words : Comment comment) (cut : w <+: before ++ q ++ after ++ comment) {y : List Char}
    (read : ValueRead (trim w) (.str y)) : tidyValue (trim w) = true := by
  obtain ⟨c, body, quote, whole⟩ := quoted_ends quoted
  have dark := (quote_dark quote).1
  have some : trim w ≠ [] := by
    intro none
    rw [none] at read
    cases read
  obtain ⟨more, split⟩ := cut
  have split : w ++ more = before ++ (q ++ (after ++ comment)) := by simpa using split
  rcases List.append_eq_append_iff.mp split with ⟨rest, early, _⟩ | ⟨part, rfl, later⟩
  · refine absurd (trim_blank fun d member => ?_) some
    exact front d (early ▸ List.mem_append_left _ member)
  rcases List.append_eq_append_iff.mp later with ⟨tail, rfl, cut⟩ | ⟨rest, early, _⟩
  · have shape : trim (before ++ (q ++ tail)) = q ++ trimEndMatches isWhitespace tail := by
      rw [whole, List.cons_append, trim_front front dark, List.append_assoc, List.singleton_append,
        trimEnd_stop dark, List.cons_append, List.append_assoc, List.singleton_append]
    rw [shape, quoted_tidy quoted]
    exact noTail_cut back words ⟨more, cut.symm⟩
  · cases part with
    | nil =>
      rw [List.append_nil] at some
      exact absurd (trim_blank front) some
    | cons d part =>
      rw [whole, List.cons_append, List.cons.injEq] at early
      obtain ⟨rfl, early⟩ := early
      rw [trim_front front dark] at read ⊢
      have cut : c :: trimEndMatches isWhitespace part <+: q := by
        rw [whole, early, List.cons_prefix_cons]
        exact ⟨rfl, (trimEnd_front _ _).trans (List.prefix_append _ _)⟩
      by_cases short : c :: trimEndMatches isWhitespace part = q
      · rw [short, ← List.append_nil q, quoted_tidy quoted]
        rfl
      · exact absurd read (quoted_cut quoted cut short y)

/- A `#` is missing unless the cut is behind the closing bracket. -/
theorem listed_cut {text part cutOff : List Char} (back : Blank after) (words : Comment comment)
    (gone : Comment cutOff) (kept : part.count '#' = text.count '#')
    (whole : text ++ ']' :: (after ++ comment) = part ++ cutOff) :
    ∃ tail, part = text ++ ']' :: tail ∧ Blank tail := by
  rcases List.append_eq_append_iff.mp whole with ⟨tail, rfl, split⟩ | ⟨rest, rfl, split⟩
  · rw [List.count_append, Nat.add_eq_left, List.count_eq_zero] at kept
    cases tail with
    | nil =>
      rcases gone with rfl | ⟨text, rfl⟩ <;> cases split
    | cons d tail =>
      rw [List.cons_append, List.cons.injEq] at split
      obtain ⟨rfl, split⟩ := split
      refine ⟨tail, rfl, ?_⟩
      rcases List.append_eq_append_iff.mp split with ⟨rest, rfl, behind⟩ | ⟨rest, rfl, _⟩
      · cases rest with
        | nil => simpa using back
        | cons e rest =>
          rcases words with rfl | ⟨text, rfl⟩
          · cases behind
          · rw [List.cons_append, List.cons.injEq] at behind
            obtain ⟨rfl, _⟩ := behind
            exact absurd (by simp) kept
      · exact fun c member => back c (List.mem_append_left _ member)
  · cases rest with
    | nil =>
      rcases gone with rfl | ⟨text, rfl⟩ <;> cases split
    | cons d rest =>
      rcases gone with rfl | ⟨words, rfl⟩
      · cases split
      · rw [List.cons_append, List.cons.injEq] at split
        obtain ⟨rfl, _⟩ := split
        rw [List.count_append, List.count_cons_self] at kept
        omega

/- A list read from a cut line that is one list apart from blanks and a comment: as none of
its `#` was lost, the line was cut at its comment. -/
theorem tidy_of_listed {text : List Char} {xs : List (List Char)} {cutOff : List Char}
    (listed : Listed text xs) (front : Blank before) (back : Blank after) (words : Comment comment)
    (gone : Comment cutOff)
    (whole : w ++ cutOff = before ++ ('[' :: (text ++ [']'])) ++ after ++ comment)
    (read : ValueRead (trim w) (.arr xs)) : tidyValue (trim w) = true := by
  have some : trim w ≠ [] := by
    intro none
    rw [none] at read
    cases read
  have whole : w ++ cutOff = before ++ ('[' :: (text ++ ']' :: (after ++ comment))) := by simpa using whole
  rcases List.append_eq_append_iff.mp whole with ⟨rest, early, _⟩ | ⟨part, rfl, later⟩
  · refine absurd (trim_blank fun d member => ?_) some
    exact front d (early ▸ List.mem_append_left _ member)
  cases part with
  | nil =>
    rw [List.append_nil] at some
    exact absurd (trim_blank front) some
  | cons d part =>
    rw [List.cons_append, List.cons.injEq] at later
    obtain ⟨rfl, later⟩ := later
    rw [trim_front front (by decide)] at read ⊢
    have same : items (trimEndMatches isWhitespace part) = xs := by
      cases read
      rfl
    have kept : part.count '#' = text.count '#' := by
      rw [← listed_hashes listed, ← same, items_eq, hashes_pieces, count_trimEnd (by decide),
        count_trimEnd (by decide)]
    obtain ⟨tail, rfl, blank⟩ := listed_cut back words gone kept later
    have stops : trimEndMatches (· == ']') (text ++ [']']) = text := by
      rw [trimEnd_all (by simp), listed_last listed]
    have closed : stripSuffix [']'] (text ++ [']']) = Option.some text := stripSuffix_eq_some.mpr rfl
    have none : trimEndMatches isWhitespace tail = [] := trimEnd_all blank []
    have ends : trimEndMatches isWhitespace (text ++ ']' :: tail) = text ++ [']'] := by
      rw [trimEnd_stop (by decide), none]
    rw [ends, items_eq, stops] at same
    rw [ends]
    simp only [tidyValue, tidyList, closed]
    exact (listed_tidy listed).2 same

/- A whole value read from a cut line is tidy. -/
theorem tidy_of_wholeValue {value cutOff : List Char} {v : Val} (form : WholeValue value v)
    (front : Blank before) (back : Blank after) (words : Comment comment) (gone : Comment cutOff)
    (whole : w ++ cutOff = before ++ value ++ after ++ comment) (read : ValueRead (trim w) v) :
    tidyValue (trim w) = true := by
  cases form with
  | true_ =>
    generalize trim w = text at read
    cases read
    rfl
  | false_ =>
    generalize trim w = text at read
    cases read
    rfl
  | int _ =>
    generalize trim w = text at read
    cases read with
    | int _ tidy => exact tidy
  | str quoted => exact tidy_of_quoted quoted front back words ⟨cutOff, whole⟩ read
  | arr listed => exact tidy_of_listed listed front back words gone whole read

end Cut

section Headers

variable {raw rest before name after comment : List Char}

theorem closes_iff {close : List Char} : closes close rest name = true ↔
    ∃ x, rest = x ++ close ∧ trim x = name := by
  unfold closes
  constructor
  · intro closed
    split at closed
    · rename_i x found
      exact ⟨x, stripSuffix_eq_some.mp found, of_decide_eq_true closed⟩
    · cases closed
  · rintro ⟨x, rfl, rfl⟩
    have found : stripSuffix close (x ++ close) = some x := stripSuffix_eq_some.mpr rfl
    simp only [found, decide_true]

theorem tidy_rule (shape : trim (stripComment raw) = '[' :: '[' :: rest) :
    tidy raw = closes [']', ']'] rest "rule".toList := by
  rw [tidy, shape]
  rfl

theorem tidy_table (shape : trim (stripComment raw) = '[' :: rest) (single : rest.head? ≠ some '[') :
    tidy raw = (closes [']'] rest capture || closes [']'] rest notify) := by
  rw [tidy, shape]
  split
  · rename_i double
    cases double
    exact absurd rfl single
  · rename_i same
    cases same
    rfl
  · rename_i header
    exact absurd rfl (header _)

theorem plain_of_trim (word : Plain (trim name)) : Plain name := by
  obtain ⟨before, after, whole, front, back⟩ := trim_split name
  rw [whole]
  exact plain_append (plain_append (plain_blank front) word) (plain_blank back)

/- A header and its comment, as the line is scanned. -/
theorem trim_header (inner : Plain rest) (front : Blank before) (back : Blank after)
    (words : Comment comment) :
    trim (stripComment (before ++ ('[' :: (rest ++ [']'])) ++ after ++ comment)) =
      '[' :: (rest ++ [']']) := by
  have frame : Plain ['['] ∧ Plain [']'] := by decide
  have plain : Plain (before ++ ('[' :: (rest ++ [']'])) ++ after) :=
    plain_append (plain_append (plain_blank front)
      (plain_append frame.1 (plain_append inner frame.2))) (plain_blank back)
  have none : stripFrom none comment = [] := by
    rcases words with rfl | ⟨text, rfl⟩ <;> rfl
  rw [stripComment, stripFrom_plain plain, none, List.append_nil, trim_pad front back]
  apply trimMatches_self
  · intro d first
    cases first
    decide
  · intro d last
    rw [← List.cons_append, List.getLast?_concat, Option.some.injEq] at last
    subst last
    decide

/- No bracket is trimmed from a name. -/
theorem name_closed (ends : (trim name).getLast? ≠ some ']') :
    trimEndMatches (· == ']') (name ++ [']']) = name := by
  rw [trimEnd_all (by simp)]
  apply trimEnd_self
  intro c last
  rw [beq_eq_false_iff_ne]
  rintro rfl
  obtain ⟨front, rfl⟩ := List.getLast?_eq_some_iff.mp last
  apply ends
  rw [trim_stop (by decide)]
  exact List.getLast?_concat

theorem name_opens (starts : (trim name).head? ≠ some '[') : (name ++ [']']).head? ≠ some '[' := by
  cases name with
  | nil => decide
  | cons c cs =>
    intro first
    cases first
    apply starts
    have shape := trim_stop (c := '[') (by decide) [] cs
    rw [List.nil_append] at shape
    rw [shape]
    rfl

end Headers

theorem setting_read {raw k : List Char} {v : Val} (read : LineRead raw (.setting k v)) :
    ∃ key w, stripComment raw = key ++ '=' :: w ∧ '=' ∉ key ∧
      (∀ rest, trimStartMatches isWhitespace key ≠ '[' :: rest) ∧ ValueRead (trim w) v := by
  generalize said : Entry.setting k v = e at read
  cases read with
  | blank _ => cases said
  | rule _ => cases said
  | table _ _ => cases said
  | setting stripped bare noHeader value =>
    cases said
    exact ⟨_, _, stripped, bare, noHeader, value⟩

/- Every line that is wholly what it is read as is tidy. -/
theorem tidy_of_whole {raw : List Char} {e : Entry} (read : LineRead raw e) (whole : WholeLine raw e) :
    tidy raw = true := by
  cases whole with
  | @blank pad comment blank words =>
    have none : trim (stripComment (pad ++ comment)) = [] := by
      have gone : stripFrom Option.none comment = [] := by
        rcases words with rfl | ⟨text, rfl⟩ <;> rfl
      rw [stripComment, stripFrom_plain (plain_blank blank), gone, List.append_nil, trim_blank blank]
    rw [tidy, none]
    rfl
  | @rule before name after comment front back words rule =>
    have word : Plain (trim name) := by
      rw [rule]
      decide
    have bracket : Plain ['['] ∧ Plain [']'] := by decide
    have inner : Plain (['['] ++ (name ++ [']'])) :=
      plain_append bracket.1 (plain_append (plain_of_trim word) bracket.2)
    have shape := trim_header inner front back words
    simp only [List.cons_append, List.append_assoc, List.nil_append] at shape ⊢
    rw [tidy_rule shape, closes_iff]
    exact ⟨name, rfl, rule⟩
  | @table before name after comment front back words known =>
    have inner : Plain name := by
      apply plain_of_trim
      rcases known with known | known <;> rw [known] <;> decide
    have starts : (trim name).head? ≠ some '[' := by
      rcases known with known | known <;> rw [known] <;> decide
    rw [tidy_table (trim_header inner front back words) (name_opens starts), Bool.or_eq_true,
      closes_iff, closes_iff]
    exact known.imp (fun known => ⟨name, rfl, known⟩) fun known => ⟨name, rfl, known⟩
  | @setting key before value after comment v bare front back words form =>
    obtain ⟨key', w, stripped, bare', noHeader, value'⟩ := setting_read read
    obtain ⟨cutOff, cut, gone⟩ := stripFrom_split none (key ++ '=' :: (before ++ value ++ after ++ comment))
    rw [← stripComment, stripped, List.append_assoc key', List.cons_append] at cut
    rw [tidy_setting stripped bare' noHeader]
    have rest := (first_split bare bare' cut).2
    exact tidy_of_wholeValue form front back words gone rest.symm value'

/- Every line that is read and tidy is wholly what it is read as. -/
theorem whole_of_tidy {raw : List Char} {e : Entry} (read : LineRead raw e) (tidy : tidy raw = true) :
    WholeLine raw e := by
  obtain ⟨comment, cut, words⟩ := stripFrom_split none raw
  rw [← stripComment] at cut
  obtain ⟨before, after, padded, front, back⟩ := trim_split (stripComment raw)
  cases read with
  | blank none =>
    rw [cut]
    exact .blank none words
  | @rule rest shape =>
    rw [tidy_rule shape] at tidy
    obtain ⟨name, rfl, rule⟩ := closes_iff.mp tidy
    rw [cut, padded, shape]
    exact .rule front back words rule
  | @table rest shape single =>
    rw [tidy_table shape single, Bool.or_eq_true, closes_iff, closes_iff] at tidy
    obtain ⟨name, rfl, known⟩ : ∃ name, rest = name ++ [']'] ∧ (trim name = capture ∨ trim name = notify) :=
      tidy.elim (Exists.imp fun _ => And.imp_right .inl) (Exists.imp fun _ => And.imp_right .inr)
    have ends : (trim name).getLast? ≠ some ']' := by
      rcases known with known | known <;> rw [known] <;> decide
    rw [name_closed ends, cut, padded, shape]
    exact .table front back words known
  | @setting key w v stripped bare noHeader value =>
    rw [tidy_setting stripped bare noHeader] at tidy
    obtain ⟨text, pad, tail, split, form, blank, rest⟩ := whole_of_tidyValue value tidy
    obtain ⟨before, after, padded, front, back⟩ := trim_split w
    obtain ⟨pad', tail', join, blank', rest'⟩ := comment_join rest back words
    have line : raw = key ++ '=' :: (before ++ text ++ (pad ++ pad') ++ tail') := by
      rw [cut, stripped, padded, split]
      simp only [List.append_assoc, List.cons_append] at join ⊢
      rw [join]
    rw [line]
    exact .setting bare front (fun c member => (List.mem_append.mp member).elim (blank c) (blank' c))
      rest' form

theorem run_reads {r final : Reader} {n : ℕ} {raws : List (List Char)}
    (read : r.run n raws = .ok final) : ∀ raw ∈ raws, ∃ e, readLine raw = .ok e := by
  induction raws generalizing r n with
  | nil => exact List.forall_mem_nil _
  | cons raw rest ih =>
    rw [Reader.run] at read
    cases said : readLine raw with
    | error msg =>
      simp only [Reader.next, said] at read
      cases read
    | ok e =>
      simp only [Reader.next, said] at read
      cases entered : r.enter (n + 1) e with
      | error msg =>
        rw [entered] at read
        cases read
      | ok r' =>
        rw [entered] at read
        intro raw' member
        rcases List.mem_cons.mp member with rfl | later
        · exact ⟨e, said⟩
        · exact ih read raw' later

theorem parse_reads {body : List Char} {doc : Doc} (read : parseToml body = .ok doc) :
    ∀ raw ∈ lines body, ∃ e, readLine raw = .ok e := by
  cases run : Reader.start.run 0 (lines body) with
  | error msg =>
    rw [parseToml, run] at read
    cases read
  | ok final => exact run_reads run

/-- Every line of an accepted document is wholly what it is read as exactly when every line
is tidy. -/
theorem lines_whole_iff {body : List Char} {doc : Doc} (read : parseToml body = .ok doc) :
    (∀ raw ∈ lines body, ∃ e, readLine raw = .ok e ∧ WholeLine raw e) ↔
      ∀ raw ∈ lines body, tidy raw = true := by
  constructor
  · intro whole raw member
    obtain ⟨e, said, form⟩ := whole raw member
    exact tidy_of_whole (readLine_cases said) form
  · intro every raw member
    obtain ⟨e, said⟩ := parse_reads read raw member
    exact ⟨e, said, whole_of_tidy (readLine_cases said) (every raw member)⟩

theorem accepted {body : List Char} (ok : (parseToml body).isOk = true) :
    ∃ doc, parseToml body = .ok doc := by
  cases read : parseToml body with
  | error e =>
    rw [read] at ok
    cases ok
  | ok doc => exact ⟨doc, rfl⟩

def tidyBody : List Char := "[capture]  # when\nresources = [\"io\", 'memory',]\ncooldown = \"5s\" # it's".toList

theorem lines_whole_tidy : (parseToml tidyBody).isOk = true ∧
    ∀ raw ∈ lines tidyBody, ∃ e, readLine raw = .ok e ∧ WholeLine raw e := by
  have ok : (parseToml tidyBody).isOk = true := by decide +kernel
  have all : (lines tidyBody).all tidy = true := by decide +kernel
  obtain ⟨doc, read⟩ := accepted ok
  exact ⟨ok, (lines_whole_iff read).mpr (List.all_eq_true.mp all)⟩

def looseBody : List Char := "[capture\nresources = [\"memory,io\"]\ncooldown = \"5s\" later".toList

/- A bracket is missing, a comma splits an item, and a word follows a string. -/
theorem lines_partly_ignored : (parseToml looseBody).isOk = true ∧ (lines looseBody).length = 3 ∧
    ∀ raw ∈ lines looseBody, ∃ e, readLine raw = .ok e ∧ ¬ WholeLine raw e := by
  have ok : (parseToml looseBody).isOk = true := by decide +kernel
  have none : (lines looseBody).all (fun raw => !tidy raw) = true := by decide +kernel
  have reads : ∀ raw ∈ lines looseBody, ∃ e, readLine raw = .ok e := by
    obtain ⟨doc, read⟩ := accepted ok
    exact parse_reads read
  refine ⟨ok, by decide +kernel, fun raw member => ?_⟩
  obtain ⟨e, said⟩ := reads raw member
  refine ⟨e, said, fun whole => ?_⟩
  have loose := List.all_eq_true.mp none raw member
  rw [tidy_of_whole (readLine_cases said) whole] at loose
  cases loose

end Stallwatch.Toml
