import Stallwatch.Config.Document
import Stallwatch.Config.Scan

/-! Strings of a rule, written and read back. The comment is looked for by a scan that
knows quotes but no escapes, and the value is read by one that knows escapes. -/
namespace Stallwatch.Toml

open Text

/-- The text between double quotes, with what it stands for. -/
inductive Basic : List Char → List Char → Prop
  | nil : Basic [] []
  | plain (c : Char) {body s : List Char} : c ≠ '"' → c ≠ '\\' → Basic body s → Basic (c :: body) (c :: s)
  | escape (d : Char) {body s : List Char} : Basic body s → Basic ('\\' :: d :: body) (escape d ++ s)

theorem basicString_char {c : Char} (quote : c ≠ '"') (slash : c ≠ '\\') (cs : List Char) :
    basicString (c :: cs) = (basicString cs).map (c :: ·) := by
  rw [basicString.eq_def]
  simp only [if_neg quote, if_neg slash]

theorem basicString_quote (cs : List Char) : basicString ('"' :: cs) = some [] := by
  rw [basicString.eq_def]
  simp only [if_true]

theorem basicString_escape (d : Char) (cs : List Char) :
    basicString ('\\' :: d :: cs) = (basicString cs).map (escape d ++ ·) := rfl

section Read

variable {body s : List Char}

theorem basic_read (basic : Basic body s) (rest : List Char) :
    basicString (body ++ '"' :: rest) = some s := by
  induction basic with
  | nil => exact basicString_quote rest
  | plain c quote slash _ ih => rw [List.cons_append, basicString_char quote slash, ih, Option.map_some]
  | escape d _ ih => rw [List.cons_append, List.cons_append, basicString_escape, ih, Option.map_some]

/- A piece that is cut off has no closing quote. -/
theorem basic_cut (basic : Basic body s) {part : List Char} (cut : part <+: body) :
    basicString part = none := by
  induction basic generalizing part with
  | nil =>
    rw [List.prefix_nil.mp cut]
    rfl
  | plain c quote slash _ ih =>
    cases part with
    | nil => rfl
    | cons a part =>
      obtain ⟨rfl, later⟩ := List.cons_prefix_cons.mp cut
      rw [basicString_char quote slash, ih later, Option.map_none]
  | escape d _ ih =>
    cases part with
    | nil => rfl
    | cons a part =>
      obtain ⟨rfl, next⟩ := List.cons_prefix_cons.mp cut
      cases part with
      | nil => rfl
      | cons b part =>
        obtain ⟨rfl, later⟩ := List.cons_prefix_cons.mp next
        rw [basicString_escape, ih later, Option.map_none]

end Read

def escapedChar (c : Char) : List Char :=
  if c = '"' then ['\\', '"']
  else if c = '\\' then ['\\', '\\']
  else if c = '\n' then ['\\', 'n']
  else if c = '\t' then ['\\', 't']
  else [c]

/-- The text of a basic string between its quotes. -/
def escaped (s : List Char) : List Char := s.flatMap escapedChar

theorem escaped_cons (c : Char) (s : List Char) : escaped (c :: s) = escapedChar c ++ escaped s := rfl

theorem basic_escaped (s : List Char) : Basic (escaped s) s := by
  induction s with
  | nil => exact .nil
  | cons c s ih =>
    rw [escaped_cons]
    unfold escapedChar
    split
    · rename_i quote
      subst quote
      exact .escape '"' ih
    split
    · rename_i slash
      subst slash
      exact .escape '\\' ih
    split
    · rename_i newline
      subst newline
      exact .escape 'n' ih
    split
    · rename_i tab
      subst tab
      exact .escape 't' ih
    · rename_i quote slash _ _
      exact .plain c quote slash ih

/-- A quote is open, or none. -/
def Quoting (q : Option Char) : Prop := ∀ d, q = some d → d = '"' ∨ d = '\''

theorem quoting_double : Quoting (some '"') := by
  intro d same
  cases same
  exact .inl rfl

theorem quoting_step {q : Option Char} (quoting : Quoting q) (c : Char) : Quoting (quoteStep q c) := by
  intro d here
  cases q with
  | some e =>
    simp only [quoteStep] at here
    split at here
    · cases here
    · exact quoting d here
  | none =>
    simp only [quoteStep] at here
    split at here
    · rename_i quote
      cases here
      exact quote
    · cases here

/- Any other character leaves the quotes as they are. -/
theorem quoteStep_other {q : Option Char} (quoting : Quoting q) {c : Char} (other : c ≠ '"' ∧ c ≠ '\'') :
    quoteStep q c = q := by
  cases q with
  | none => simp [quoteStep, other.1, other.2]
  | some d =>
    have different : c ≠ d := by
      rintro rfl
      exact (quoting c rfl).elim other.1 other.2
    simp [quoteStep, different]

/- Escapes make no difference to a scan that does not know them. -/
theorem scan_escapedChar {q : Option Char} (quoting : Quoting q) (c : Char) (cs : List Char) :
    unhashed q (escapedChar c ++ cs) = unhashed q (c :: cs) ∧
      quoteAfter q (escapedChar c ++ cs) = quoteAfter q (c :: cs) := by
  have slash : quoteStep q '\\' = q := quoteStep_other quoting (by decide)
  have neutral : ∀ d : Char, d ≠ '"' ∧ d ≠ '\'' → d ≠ '#' → ∀ cs,
      unhashed q (d :: cs) = unhashed q cs ∧ quoteAfter q (d :: cs) = quoteAfter q cs := by
    intro d other hash cs
    have step := quoteStep_other quoting other
    exact ⟨by simp [unhashed, hash, step], by rw [quoteAfter, List.foldl_cons, step]; rfl⟩
  have behind := fun cs => neutral '\\' (by decide) (by decide) cs
  unfold escapedChar
  split
  · rename_i quote
    subst quote
    exact behind _
  split
  · rename_i slash
    subst slash
    exact behind _
  split
  · rename_i newline
    subst newline
    have letter := neutral 'n' (by decide) (by decide) cs
    have plain := neutral '\n' (by decide) (by decide) cs
    exact ⟨(behind _).1.trans (letter.1.trans plain.1.symm), (behind _).2.trans (letter.2.trans plain.2.symm)⟩
  split
  · rename_i tab
    subst tab
    have letter := neutral 't' (by decide) (by decide) cs
    have plain := neutral '\t' (by decide) (by decide) cs
    exact ⟨(behind _).1.trans (letter.1.trans plain.1.symm), (behind _).2.trans (letter.2.trans plain.2.symm)⟩
  · exact ⟨rfl, rfl⟩

theorem scan_escaped {q : Option Char} (quoting : Quoting q) (s : List Char) :
    unhashed q (escaped s) = unhashed q s := by
  induction s generalizing q with
  | nil => rfl
  | cons c s ih =>
    rw [escaped_cons, (scan_escapedChar quoting c (escaped s)).1, unhashed, unhashed,
      ih (quoting_step quoting c)]

/-- A key as it stands on its line, blanks included. -/
structure BareKey (key : List Char) : Prop where
  plain : Plain key
  noEquals : '=' ∉ key
  noHeader : ∀ rest, trimStartMatches isWhitespace key ≠ '[' :: rest

/-- The line that sets a key to `s`, with anything behind it: blanks, a comment. -/
def stringLine (key pad s tail : List Char) : List Char :=
  key ++ '=' :: (pad ++ '"' :: (escaped s ++ '"' :: tail))

/-- No `#` of `s` stands outside the quotes that a scan without escapes sees. -/
def survives (s : List Char) : Bool := unhashed (some '"') s

section Line

variable {key pad s tail : List Char}

theorem strip_stringLine (bare : BareKey key) (blank : Blank pad) (rest : List Char) :
    stripComment (key ++ '=' :: (pad ++ '"' :: rest)) =
      key ++ '=' :: (pad ++ '"' :: stripFrom (some '"') rest) := by
  have equals : Plain ['='] := by
    intro c member
    rw [List.mem_singleton.mp member]
    decide
  have front : Plain (key ++ '=' :: pad) := by
    have joined := plain_append (plain_append bare.plain equals) (plain_blank blank)
    simpa using joined
  have split := stripFrom_plain front ('"' :: rest)
  rw [List.append_assoc, List.cons_append] at split
  rw [stripComment, split, List.append_assoc, List.cons_append]
  rfl

theorem trim_value (blank : Blank pad) (rest : List Char) :
    trim (pad ++ '"' :: rest) = '"' :: trimEndMatches isWhitespace rest := by
  have none : trimStartMatches isWhitespace pad = [] := List.dropWhile_eq_nil_iff.mpr blank
  rw [trim_stop (by decide), none, List.nil_append]

theorem parseValue_quote (rest : List Char) :
    parseValue ('"' :: rest) =
      match basicString rest with
      | some text => .ok (.str text)
      | none => .error unterminated := by
  have true_ : ('"' :: rest) ≠ "true".toList := by
    intro same
    cases same
  have false_ : ('"' :: rest) ≠ "false".toList := by
    intro same
    cases same
  exact (if_neg true_).trans (if_neg false_)

/- A string that the scan leaves whole is the value. -/
theorem readLine_survives (bare : BareKey key) (blank : Blank pad) (kept : survives s = true) :
    readLine (stringLine key pad s tail) = .ok (.setting (trim key) (.str s)) := by
  have whole : unhashed (some '"') (escaped s) = true := (scan_escaped quoting_double s).trans kept
  obtain ⟨q, behind⟩ : ∃ q, stripFrom (some '"') (escaped s ++ '"' :: tail) =
      escaped s ++ '"' :: stripFrom q tail := by
    refine ⟨quoteStep (quoteAfter (some '"') (escaped s)) '"', ?_⟩
    rw [stripFrom_append whole, stripFrom_cons (fun closed => absurd closed.2 (by decide))]
  have stripped := strip_stringLine bare blank (escaped s ++ '"' :: tail)
  rw [behind] at stripped
  rw [stringLine, readLine_setting stripped bare.noEquals bare.noHeader, trim_value blank,
    trimEnd_stop (by decide), parseValue_quote, basic_read (basic_escaped s)]
  rfl

/- One that it cuts has no closing quote left. -/
theorem readLine_cut (bare : BareKey key) (blank : Blank pad) (lost : survives s = false) :
    readLine (stringLine key pad s tail) = .error unterminated := by
  have hashed : unhashed (some '"') (escaped s) = false := (scan_escaped quoting_double s).trans lost
  obtain ⟨before, after, split, cut⟩ := stripFrom_cut hashed
  have stripped := strip_stringLine bare blank (escaped s ++ '"' :: tail)
  rw [cut] at stripped
  have piece : trimEndMatches isWhitespace before <+: escaped s := by
    rw [split]
    exact (trimEnd_front _ _).trans (List.prefix_append _ _)
  rw [stringLine, readLine_setting stripped bare.noEquals bare.noHeader, trim_value blank,
    parseValue_quote, basic_cut (basic_escaped s) piece]
  rfl

end Line

namespace Reader

/-- The rule that is open, with a key set. -/
def put (r : Reader) (key : List Char) (val : Val) : Reader :=
  { r with doc := ⟨r.doc.tables, setLast r.doc.rules key val⟩ }

theorem run_append (r : Reader) (n : ℕ) (as bs : List (List Char)) :
    r.run n (as ++ bs) = (r.run n as).bind fun r' => r'.run (n + as.length) bs := by
  induction as generalizing r n with
  | nil => rfl
  | cons a as ih =>
    rw [List.cons_append, run, run]
    cases r.next (n + 1) a with
    | error e => rfl
    | ok r' =>
      have shift : n + (a :: as).length = n + 1 + as.length := by
        rw [List.length_cons]
        omega
      rw [shift]
      exact ih r' (n + 1)

end Reader

/-- Where the rest of the document is accepted and leaves the key alone, the rule has `s`
for it exactly when the scan for a comment leaves `s` whole. -/
theorem string_survives {body key pad s tail : List Char} {before after : List (List Char)}
    {r final : Reader} (whole : lines body = before ++ stringLine key pad s tail :: after)
    (read : Reader.start.run 0 before = .ok r) (rule : r.inRule = true) (bare : BareKey key)
    (blank : Blank pad)
    (rest : (r.put (trim key) (.str s)).run (before.length + 1) after = .ok final)
    (kept : final.doc.get (.rule (r.doc.rules.length - 1)) (trim key) = some (.str s)) :
    (∃ doc, parseToml body = .ok doc ∧
        doc.get (.rule (r.doc.rules.length - 1)) (trim key) = some (.str s)) ↔
      survives s = true := by
  have run : Reader.start.run 0 (lines body) =
      (r.next (before.length + 1) (stringLine key pad s tail)).bind
        fun r' => r'.run (before.length + 1) after := by
    rw [whole, Reader.run_append, read, Nat.zero_add]
    rfl
  cases survived : survives s with
  | true =>
    have next : r.next (before.length + 1) (stringLine key pad s tail) = .ok (r.put (trim key) (.str s)) := by
      rw [Reader.next, readLine_survives bare blank survived]
      simp only [Reader.enter, rule, if_true, Reader.put]
    rw [next] at run
    refine iff_of_true ⟨final.doc, ?_, kept⟩ rfl
    rw [parseToml, run, Except.bind, rest]
    rfl
  | false =>
    have next : r.next (before.length + 1) (stringLine key pad s tail) =
        .error ⟨before.length + 1, unterminated⟩ := by
      rw [Reader.next, readLine_cut bare blank survived]
    rw [next] at run
    refine iff_of_false ?_ Bool.false_ne_true
    rintro ⟨doc, parsed, _⟩
    rw [parseToml, run] at parsed
    cases parsed

theorem rule_header : readLine "[[rule]]".toList = .ok .rule := by decide +kernel

/-- The quotes around `hi` close and open again for the scan, so that the `#` is kept. -/
def greeting : List Char := "say \"hi\" #1".toList

def greetingBody : List Char := "[[rule]]\nrun = \"say \\\"hi\\\" #1\"  # it's fine".toList

theorem string_survives_greeting :
    ∃ doc, parseToml greetingBody = .ok doc ∧ doc.get (.rule 0) "run".toList = some (.str greeting) := by
  have bare : BareKey "run ".toList := ⟨by decide, by decide, by
    intro rest same
    cases same⟩
  have whole : lines greetingBody =
      ["[[rule]]".toList] ++ stringLine "run ".toList [' '] greeting "  # it's fine".toList :: [] := by
    decide +kernel
  have blank : Blank [' '] := by
    intro c member
    rw [List.mem_singleton.mp member]
    decide
  have read : Reader.start.run 0 ["[[rule]]".toList] = .ok ⟨⟨∅, [⟨1, ∅⟩]⟩, none, true⟩ := by
    simp only [Reader.run, Reader.next, rule_header]
    rfl
  exact (string_survives whole read rfl bare blank rfl rfl).mpr rfl

def hashBody : List Char := "[[rule]]\nrun = \"a\\\"#\"\n".toList

theorem string_lost :
    lines hashBody = ["[[rule]]".toList, stringLine "run ".toList [' '] "a\"#".toList []] ∧
      parseToml hashBody = .error ⟨2, unterminated⟩ := by
  have whole : lines hashBody =
      ["[[rule]]".toList, stringLine "run ".toList [' '] "a\"#".toList []] := by decide +kernel
  have cut : readLine (stringLine "run ".toList [' '] "a\"#".toList []) = .error unterminated := rfl
  refine ⟨whole, ?_⟩
  simp only [parseToml, whole, Reader.run, Reader.next, rule_header, cut]
  rfl

end Stallwatch.Toml
