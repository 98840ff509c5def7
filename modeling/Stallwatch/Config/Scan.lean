import Stallwatch.Base.Trim
import Stallwatch.Config.Toml

/-! How a line is scanned: where its comment is taken to start, and what a setting line
is read as. -/
namespace Stallwatch.Toml

open Text

/-- The quote that is open behind a character. -/
def quoteStep (q : Option Char) (c : Char) : Option Char :=
  match q with
  | some d => if c = d then none else some d
  | none => if c = '"' ∨ c = '\'' then some c else none

def quoteAfter (q : Option Char) (cs : List Char) : Option Char := cs.foldl quoteStep q

/-- No `#` is met outside quotes. -/
def unhashed (q : Option Char) : List Char → Bool
  | [] => true
  | c :: cs => !(q = none && c = '#') && unhashed (quoteStep q c) cs

/-- Neither a quote nor a `#`. -/
def Plain (cs : List Char) : Prop := ∀ c ∈ cs, c ≠ '"' ∧ c ≠ '\'' ∧ c ≠ '#'

instance (cs : List Char) : Decidable (Plain cs) :=
  decidable_of_iff (cs.all (fun c => decide (c ≠ '"' ∧ c ≠ '\'' ∧ c ≠ '#')) = true) (by
    simp only [List.all_eq_true, decide_eq_true_eq, Plain])

theorem stripFrom_cons {q : Option Char} {c : Char} (kept : ¬ (q = none ∧ c = '#')) (cs : List Char) :
    stripFrom q (c :: cs) = c :: stripFrom (quoteStep q c) cs := by
  cases q with
  | some d => rfl
  | none =>
    by_cases quote : c = '"' ∨ c = '\''
    · simp [stripFrom, quoteStep, quote]
    · have hash : c ≠ '#' := fun same => kept ⟨rfl, same⟩
      simp [stripFrom, quoteStep, quote, hash]

theorem stripFrom_append {q : Option Char} {as : List Char} (kept : unhashed q as = true)
    (bs : List Char) : stripFrom q (as ++ bs) = as ++ stripFrom (quoteAfter q as) bs := by
  induction as generalizing q with
  | nil => rfl
  | cons a as ih =>
    simp only [unhashed, Bool.and_eq_true, Bool.not_eq_true', Bool.and_eq_false_iff,
      decide_eq_false_iff_not] at kept
    have here : ¬ (q = none ∧ a = '#') := fun ⟨closed, hash⟩ => kept.1.elim (· closed) (· hash)
    rw [List.cons_append, stripFrom_cons here, ih kept.2]
    rfl

/- A `#` outside quotes cuts the line, whatever follows. -/
theorem stripFrom_cut {q : Option Char} {as : List Char} (hashed : unhashed q as = false) :
    ∃ before after, as = before ++ '#' :: after ∧ ∀ bs, stripFrom q (as ++ bs) = before := by
  induction as generalizing q with
  | nil => cases hashed
  | cons a as ih =>
    by_cases here : q = none ∧ a = '#'
    · obtain ⟨rfl, rfl⟩ := here
      exact ⟨[], as, rfl, fun bs => rfl⟩
    · have rest : unhashed (quoteStep q a) as = false := by
        have free : (decide (q = none) && decide (a = '#')) = false := by
          rw [← Bool.decide_and]
          exact decide_eq_false here
        rwa [unhashed, free, Bool.not_false, Bool.true_and] at hashed
      obtain ⟨before, after, rfl, cut⟩ := ih rest
      exact ⟨a :: before, after, rfl, fun bs => by rw [List.cons_append, stripFrom_cons here, cut]⟩

/- What is cut off is a comment. -/
theorem stripFrom_split (q : Option Char) (cs : List Char) :
    ∃ rest, cs = stripFrom q cs ++ rest ∧ (rest = [] ∨ ∃ text, rest = '#' :: text) := by
  induction cs generalizing q with
  | nil => exact ⟨[], by cases q <;> rfl, .inl rfl⟩
  | cons c cs ih =>
    by_cases here : q = none ∧ c = '#'
    · obtain ⟨rfl, rfl⟩ := here
      exact ⟨'#' :: cs, rfl, .inr ⟨cs, rfl⟩⟩
    · obtain ⟨rest, whole, comment⟩ := ih (quoteStep q c)
      refine ⟨rest, ?_, comment⟩
      rw [stripFrom_cons here, List.cons_append, ← whole]

theorem plain_append {as bs : List Char} (front : Plain as) (back : Plain bs) : Plain (as ++ bs) :=
  fun c member => (List.mem_append.mp member).elim (front c) (back c)

theorem plain_blank {cs : List Char} (blank : Blank cs) : Plain cs := by
  intro c member
  have white := blank c member
  refine ⟨?_, ?_, ?_⟩ <;> rintro rfl <;> revert white <;> decide

theorem plain_scan {cs : List Char} (plain : Plain cs) :
    unhashed none cs = true ∧ quoteAfter none cs = none := by
  induction cs with
  | nil => exact ⟨rfl, rfl⟩
  | cons c cs ih =>
    obtain ⟨double, single, hash⟩ := plain c List.mem_cons_self
    have rest := ih fun d member => plain d (List.mem_cons_of_mem c member)
    have step : quoteStep none c = none := by simp [quoteStep, double, single]
    refine ⟨?_, ?_⟩
    · simp [unhashed, hash, step, rest.1]
    · rw [quoteAfter, List.foldl_cons, step]
      exact rest.2

theorem not_blank_equals : isWhitespace '=' = false := by decide

/- The first equals sign splits the line, and blanks around both halves are dropped. -/
theorem splitOnce_trim {key : List Char} (bare : '=' ∉ key) (v : List Char) :
    splitOnce '=' (trim (key ++ '=' :: v)) =
      some (trimStartMatches isWhitespace key, trimEndMatches isWhitespace v) := by
  have kept : ∀ c ∈ trimStartMatches isWhitespace key, decide (c ≠ '=') = true := by
    intro c member
    have among : c ∈ key := List.dropWhile_subset _ member
    exact decide_eq_true fun same => bare (same ▸ among)
  rw [trim_stop not_blank_equals, splitOnce, List.dropWhile_append_of_pos kept,
    List.dropWhile_cons_of_neg (by simp), List.takeWhile_append_of_pos kept,
    List.takeWhile_cons_of_neg (by simp), List.append_nil]

/- What a line is read as that has an equals sign and is no header. -/
theorem readLine_setting {raw key v : List Char} (stripped : stripComment raw = key ++ '=' :: v)
    (bare : '=' ∉ key) (noHeader : ∀ rest, trimStartMatches isWhitespace key ≠ '[' :: rest) :
    readLine raw = (parseValue (trim v)).map (Entry.setting (trim key)) := by
  have shape := trim_stop not_blank_equals key v
  have split := splitOnce_trim bare v
  have some : trim (key ++ '=' :: v) ≠ [] := by
    rw [shape]
    exact List.append_ne_nil_of_right_ne_nil _ (List.cons_ne_nil _ _)
  have header : ∀ rest, trim (key ++ '=' :: v) ≠ '[' :: rest := by
    rw [shape]
    intro rest same
    cases front : trimStartMatches isWhitespace key with
    | nil =>
      rw [front] at same
      cases same
    | cons c cs =>
      rw [front, List.cons_append, List.cons.injEq] at same
      rw [front, same.1] at noHeader
      exact noHeader cs rfl
  rw [readLine, stripped]
  simp only [if_neg some]
  split
  · rename_i double
    exact absurd double (header _)
  · rename_i single
    exact absurd single (header _)
  · rw [split]
    simp only [trim_trimStart, trim_trimEnd]
    cases parseValue (trim v) <;> rfl

theorem stripFrom_plain {as : List Char} (plain : Plain as) (bs : List Char) :
    stripFrom none (as ++ bs) = as ++ stripFrom none bs := by
  obtain ⟨kept, after⟩ := plain_scan plain
  rw [stripFrom_append kept, after]

end Stallwatch.Toml
