import Stallwatch.Base.Trim

/-! The words of a text: what stands between its blanks. -/
namespace Stallwatch.Text

/- Every blank cuts, and all else follows from that. -/
theorem words_cut (as bs : List Char) {c : Char} (blank : isWhitespace c = true) :
    splitWhitespace (as ++ c :: bs) = splitWhitespace as ++ splitWhitespace bs := by
  rw [splitWhitespace, List.splitOnP_append_cons as bs blank, List.filter_append]
  rfl

theorem words_nil : splitWhitespace [] = [] := by decide

theorem words_cons_blank {c : Char} (blank : isWhitespace c = true) (cs : List Char) :
    splitWhitespace (c :: cs) = splitWhitespace cs := by
  have cut := words_cut [] cs blank
  rwa [words_nil] at cut

theorem words_before {cs : List Char} (blank : Blank cs) (as : List Char) :
    splitWhitespace (cs ++ as) = splitWhitespace as := by
  induction cs with
  | nil => rfl
  | cons c cs ih =>
    rw [List.cons_append, words_cons_blank (blank c List.mem_cons_self)]
    exact ih fun c member => blank c (List.mem_cons_of_mem _ member)

theorem words_blank {cs : List Char} (blank : Blank cs) : splitWhitespace cs = [] := by
  have none := words_before blank []
  rwa [List.append_nil, words_nil] at none

/-- A word is not empty and has no blank. -/
def IsWord (w : List Char) : Prop := w ≠ [] ∧ ∀ c ∈ w, isWhitespace c = false

theorem words_word {w : List Char} (word : IsWord w) : splitWhitespace w = [w] := by
  rw [splitWhitespace, List.splitOnP_eq_singleton word.2]
  simp [word.1]

/- What is blank behind a text makes no word. -/
theorem words_behind (as : List Char) {cs : List Char} (blank : Blank cs) :
    splitWhitespace (as ++ cs) = splitWhitespace as := by
  cases cs with
  | nil => rw [List.append_nil]
  | cons c cs =>
    rw [words_cut _ _ (blank c List.mem_cons_self),
      words_blank fun c member => blank c (List.mem_cons_of_mem _ member), List.append_nil]

/-- Words, each behind its blanks. -/
def spaced (ws : List (List Char × List Char)) : List Char := ws.flatMap fun w => w.1 ++ w.2

/-- The blanks are there, and the words are words. -/
def Spaced (ws : List (List Char × List Char)) : Prop :=
  ∀ w ∈ ws, w.1 ≠ [] ∧ Blank w.1 ∧ IsWord w.2

theorem words_append_spaced (as : List Char) {ws : List (List Char × List Char)} (apart : Spaced ws) :
    splitWhitespace (as ++ spaced ws) = splitWhitespace as ++ ws.map Prod.snd := by
  induction ws generalizing as with
  | nil => simp [spaced]
  | cons w ws ih =>
    obtain ⟨some, blank, word⟩ := apart w List.mem_cons_self
    obtain ⟨c, cs, gap⟩ := List.exists_cons_of_ne_nil some
    rw [gap] at blank
    have rest := ih (as ++ w.1 ++ w.2) fun w member => apart w (List.mem_cons_of_mem _ member)
    have first : splitWhitespace (as ++ w.1 ++ w.2) = splitWhitespace as ++ [w.2] := by
      rw [gap, List.append_assoc, List.cons_append, words_cut _ _ (blank c List.mem_cons_self),
        words_before (fun c member => blank c (List.mem_cons_of_mem _ member)), words_word word]
    rw [List.map_cons, spaced, List.flatMap_cons, ← List.append_assoc, ← List.append_assoc]
    rw [spaced, first] at rest
    rw [rest, List.append_assoc]
    rfl

theorem lines_cut (rest : List Char) {line : List Char} (clean : '\n' ∉ line) :
    lines (line ++ '\n' :: rest) = (stripSuffix ['\r'] line).getD line :: lines rest := by
  obtain ⟨part, parts, split⟩ := List.exists_cons_of_ne_nil (List.splitOn_ne_nil '\n' rest)
  simp only [lines, List.splitOn_append_cons_self_of_not_mem clean, split]
  simp

theorem words_stripSuffix (line : List Char) :
    splitWhitespace ((stripSuffix ['\r'] line).getD line) = splitWhitespace line := by
  unfold stripSuffix
  split
  · rename_i ends
    obtain ⟨before, rfl⟩ := List.isSuffixOf_iff_suffix.mp ends
    rw [words_behind before fun c member => by rw [List.mem_singleton.mp member]; decide]
    simp
  · rfl

/- Lines are cut at blanks too. -/
theorem words_lines (cs : List Char) : (lines cs).flatMap splitWhitespace = splitWhitespace cs := by
  induction cs using split_induct '\n' with
  | whole cs clean =>
    rw [lines, List.splitOn_eq_singleton clean]
    by_cases none : cs = []
    · simp [none, words_nil]
    · simp [Option.filter, none]
  | cut as bs clean _ ih =>
    rw [lines_cut bs clean, List.flatMap_cons, ih, words_stripSuffix, words_cut _ _ (by decide)]

theorem decimal_word (n : ℕ) : IsWord (decimal n) := by
  refine ⟨decimal_ne_nil n, fun c member => ?_⟩
  have digit := decimal_isDigit member
  simp only [Char.isDigit, Bool.and_eq_true, decide_eq_true_eq, UInt32.le_iff_toNat_le] at digit
  have range : 48 ≤ c.toNat ∧ c.toNat ≤ 57 := digit
  simp [isWhitespace]
  omega

theorem words_trim (cs : List Char) : splitWhitespace (trim cs) = splitWhitespace cs := by
  obtain ⟨before, after, padded, front, back⟩ := trim_split cs
  calc splitWhitespace (trim cs)
      = splitWhitespace (before ++ (trim cs ++ after)) := by rw [words_before front, words_behind _ back]
    _ = splitWhitespace cs := by rw [← List.append_assoc, ← padded]

theorem blank_char {c : Char} (blank : isWhitespace c = true) : Blank [c] :=
  List.forall_mem_singleton.mpr blank

theorem word_line {w : List Char} (word : IsWord w) : '\n' ∉ w := fun member =>
  absurd (word.2 _ member) (by decide)

theorem trim_word {w : List Char} (word : IsWord w) : trim w = w := by
  refine trimMatches_self (fun c first => ?_) fun c last => ?_
  · exact word.2 c (List.mem_of_mem_head? first)
  · exact word.2 c (List.mem_of_getLast? last)

/- Three words, and what ends the line. -/
theorem words_three {a b c ends : List Char} (first : IsWord a) (second : IsWord b) (third : IsWord c)
    (blank : Blank ends) : splitWhitespace (a ++ [' '] ++ b ++ [' '] ++ c ++ ends) = [a, b, c] := by
  have gap : Blank [' '] := blank_char rfl
  have apart : Spaced [([' '], b), ([' '], c)] := by
    simp only [Spaced, List.forall_mem_cons]
    exact ⟨⟨by simp, gap, second⟩, ⟨by simp, gap, third⟩, List.forall_mem_nil _⟩
  have shape : a ++ [' '] ++ b ++ [' '] ++ c ++ ends = a ++ spaced [([' '], b), ([' '], c)] ++ ends := by
    simp [spaced]
  rw [shape, words_behind _ blank, words_append_spaced _ apart, words_word first]
  rfl

end Stallwatch.Text
