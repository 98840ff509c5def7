import Mathlib.Data.List.Induction
import Mathlib.Data.List.Chain
import Mathlib.Tactic.Common

/-! Filling lines with words. A word goes on the line at hand as long as the line then fits. -/
namespace Stallwatch.Wrap

variable {α : Type} (sep : α) (fits : List α → Bool)

/-- The lines that are full, and the one at hand. -/
def put (state : List (List α) × List α) (word : List α) : List (List α) × List α :=
  if state.2 ≠ [] ∧ fits (state.2 ++ sep :: word) = false then (state.1 ++ [state.2], word)
  else (state.1, if state.2 = [] then word else state.2 ++ sep :: word)

def wrap (words : List (List α)) : List (List α) :=
  let (lines, line) := words.foldl (put sep fits) ([], [])
  if line = [] then lines else lines ++ [line]

/-- The words of a line, one separator apart. -/
def joined (line : List (List α)) : List α := [sep].intercalate line

/-- Words on lines: all words in their order, no line without one, no line longer than it may be
unless a word is, and no line broken before it had to be. -/
structure Filled (words : List (List α)) (lines : List (List (List α))) : Prop where
  whole : lines.flatten = words
  some : ∀ line ∈ lines, line ≠ []
  fit : ∀ line ∈ lines, fits (joined sep line) = true ∨ ∃ word, line = [word]
  greedy : lines.IsChain fun line next => ∃ word rest, next = word :: rest ∧
    fits (joined sep line ++ sep :: word) = false

variable {sep : α} {fits : List α → Bool}

@[simp] theorem joined_singleton (word : List α) : joined sep [word] = word := by
  simp [joined]

theorem joined_concat {line : List (List α)} (some : line ≠ []) (word : List α) :
    joined sep (line ++ [word]) = joined sep line ++ sep :: word := by
  induction line with
  | nil => exact absurd rfl some
  | cons first line ih =>
    cases line with
    | nil => simp [joined]
    | cons second line =>
      have next := ih (List.cons_ne_nil _ _)
      simp only [joined, List.cons_append, List.intercalate_cons_cons] at next ⊢
      rw [next]
      simp only [List.append_assoc]

theorem joined_ne_nil {line : List (List α)} (some : line ≠ []) (solid : ∀ word ∈ line, word ≠ []) :
    joined sep line ≠ [] := by
  obtain ⟨word, rest, rfl⟩ := List.exists_cons_of_ne_nil some
  have first := solid word List.mem_cons_self
  cases rest with
  | nil => simpa [joined] using first
  | cons second rest =>
    rw [joined, List.intercalate_cons_cons]
    simp [first]

section Filled

variable {words : List (List α)} {lines : List (List (List α))} {line : List (List α)}

theorem Filled.broken (filled : Filled sep fits words (lines ++ [line])) {word : List α}
    (long : fits (joined sep line ++ sep :: word) = false) :
    Filled sep fits (words ++ [word]) (lines ++ [line] ++ [[word]]) where
  whole := by rw [List.flatten_append, filled.whole, List.flatten_singleton]
  some l member := by
    rcases List.mem_append.mp member with before | last
    · exact filled.some l before
    · rw [List.mem_singleton.mp last]
      exact List.cons_ne_nil _ _
  fit l member := by
    rcases List.mem_append.mp member with before | last
    · exact filled.fit l before
    · exact .inr ⟨word, List.mem_singleton.mp last⟩
  greedy := by
    refine List.isChain_append.mpr ⟨filled.greedy, List.IsChain.singleton _,
      fun before last after first => ?_⟩
    rw [List.getLast?_append, List.getLast?_singleton, Option.some_or, Option.mem_some] at last
    rw [List.head?_cons, Option.mem_some] at first
    subst last first
    exact ⟨word, [], rfl, long⟩

theorem Filled.longer (filled : Filled sep fits words (lines ++ [line])) {word : List α}
    (room : fits (joined sep line ++ sep :: word) = true) :
    Filled sep fits (words ++ [word]) (lines ++ [line ++ [word]]) where
  whole := by
    rw [← filled.whole]
    simp
  some l member := by
    rcases List.mem_append.mp member with before | last
    · exact filled.some l (List.mem_append_left _ before)
    · rw [List.mem_singleton.mp last]
      simp
  fit l member := by
    rcases List.mem_append.mp member with before | last
    · exact filled.fit l (List.mem_append_left _ before)
    · have some := filled.some line (by simp)
      rw [List.mem_singleton.mp last, joined_concat some]
      exact .inl room
  greedy := by
    obtain ⟨before, _, meet⟩ := List.isChain_append.mp filled.greedy
    refine List.isChain_append.mpr ⟨before, List.IsChain.singleton _, fun l last next first => ?_⟩
    rw [List.head?_cons, Option.mem_some] at first
    subst first
    obtain ⟨first, rest, same, long⟩ := meet l last line (by simp)
    exact ⟨first, rest ++ [word], by rw [same, List.cons_append], long⟩

end Filled

/-- The loop has the words read so far on lines. -/
theorem foldl_put {words : List (List α)} (some : words ≠ []) (solid : ∀ word ∈ words, word ≠ []) :
    ∃ lines line, Filled sep fits words (lines ++ [line]) ∧
      words.foldl (put sep fits) ([], []) = (lines.map (joined sep), joined sep line) := by
  induction words using List.reverseRecOn with
  | nil => exact absurd rfl some
  | append_singleton words word ih =>
    have here : word ≠ [] := solid word (by simp)
    rw [List.foldl_append, List.foldl_cons, List.foldl_nil]
    by_cases none : words = []
    · subst none
      refine ⟨[], [word], ⟨rfl, by simp, by simp, List.IsChain.singleton _⟩, ?_⟩
      simp [put]
    · obtain ⟨lines, line, filled, state⟩ := ih none fun w member =>
        solid w (List.mem_append_left _ member)
      have begun : line ≠ [] := filled.some line (by simp)
      have written : joined sep line ≠ [] := joined_ne_nil begun fun w member =>
        solid w (List.mem_append_left _ (filled.whole ▸ List.mem_flatten.mpr ⟨line, by simp, member⟩))
      rw [state]
      cases room : fits (joined sep line ++ sep :: word) with
      | false =>
        refine ⟨lines ++ [line], [word], filled.broken room, ?_⟩
        simp [put, written, room]
      | true =>
        refine ⟨lines, line ++ [word], filled.longer room, ?_⟩
        simp [put, written, room, joined_concat begun]

theorem wrap_filled {words : List (List α)} (solid : ∀ word ∈ words, word ≠ []) :
    ∃ lines, Filled sep fits words lines ∧ wrap sep fits words = lines.map (joined sep) := by
  by_cases none : words = []
  · subst none
    exact ⟨[], ⟨rfl, by simp, by simp, List.IsChain.nil⟩, rfl⟩
  · obtain ⟨lines, line, filled, state⟩ := @foldl_put _ sep fits _ none solid
    have written : joined sep line ≠ [] := joined_ne_nil (filled.some line (by simp)) fun w member =>
      solid w (filled.whole ▸ List.mem_flatten.mpr ⟨line, by simp, member⟩)
    refine ⟨lines ++ [line], filled, ?_⟩
    rw [wrap, state]
    simp [written]

end Stallwatch.Wrap
