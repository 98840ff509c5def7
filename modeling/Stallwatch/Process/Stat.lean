import Stallwatch.Base.Words

/-! What the kernel tells of a process on one line. The name of its command stands there as
it is, between parentheses. -/
namespace Stallwatch.Process

open Text

/-- The state and `delayacct_blkio_ticks`, from what stands behind the last parenthesis. -/
def parseStat (body : List Char) : Option (Char × UInt64) :=
  match rsplitOnce ')' body with
  | none => none
  | some (_, rest) =>
    let fields := splitWhitespace rest
    match fields.head?.bind List.head? with
    | none => none
    | some state => some (state, .ofNat ((fields[42 - 3]?.bind (parseUnsigned 64)).getD 0))

/-- A line with its fields from the fourth on, each behind its blanks. -/
def statLine (pid comm : List Char) (state : Char) (fields : List (List Char × List Char))
    (ending : List Char) : List Char :=
  pid ++ ' ' :: '(' :: comm ++ ')' :: ' ' :: state :: (spaced fields ++ ending)

/-- Field `n` of a line as a number, counted from one. -/
def fieldTicks (n : ℕ) (fields : List (List Char × List Char)) : ℕ :=
  ((fields[n - 4]?.map Prod.snd).bind (parseUnsigned 64)).getD 0

section Line

variable {state : Char} {fields : List (List Char × List Char)} {ending : List Char}

theorem blank_clean {cs : List Char} (blank : Blank cs) : ')' ∉ cs := fun member =>
  absurd (blank _ member) (by decide)

theorem spaced_clean (apart : Spaced fields) (clean : ∀ w ∈ fields, ')' ∉ w.2) :
    ')' ∉ spaced fields := by
  intro member
  obtain ⟨w, among, here⟩ := List.mem_flatMap.mp member
  rcases List.mem_append.mp here with gap | word
  · exact blank_clean (apart w among).2.1 gap
  · exact clean w among word

theorem words_rest (solid : isWhitespace state = false) (apart : Spaced fields) (blank : Blank ending) :
    splitWhitespace (' ' :: state :: (spaced fields ++ ending)) = [state] :: fields.map Prod.snd := by
  have word : IsWord [state] :=
    ⟨List.cons_ne_nil _ _, fun c member => by rw [List.mem_singleton.mp member, solid]⟩
  have front := words_append_spaced [state] apart
  rw [words_word word] at front
  calc splitWhitespace (' ' :: state :: (spaced fields ++ ending))
      = splitWhitespace (state :: (spaced fields ++ ending)) := words_cons_blank (by decide) _
    _ = splitWhitespace (([state] ++ spaced fields) ++ ending) := rfl
    _ = splitWhitespace ([state] ++ spaced fields) := words_behind _ blank
    _ = [state] :: fields.map Prod.snd := front

/-- Whatever the name of the command, the line is read as it was written. -/
theorem parseStat_line (pid comm : List Char) (solid : isWhitespace state = false) (other : state ≠ ')')
    (apart : Spaced fields) (clean : ∀ w ∈ fields, ')' ∉ w.2) (blank : Blank ending) :
    parseStat (statLine pid comm state fields ending) = some (state, .ofNat (fieldTicks 42 fields)) := by
  have last : ')' ∉ ' ' :: state :: (spaced fields ++ ending) := by
    have body := spaced_clean apart clean
    have tail := blank_clean blank
    simp [body, tail, other.symm]
  have cut : rsplitOnce ')' (statLine pid comm state fields ending) =
      some (pid ++ ' ' :: '(' :: comm, ' ' :: state :: (spaced fields ++ ending)) := rsplitOnce_last _ last
  rw [parseStat, cut]
  dsimp only
  rw [words_rest solid apart blank]
  simp [fieldTicks]

end Line

/-- A command can be named like the rest of a line. -/
theorem parseStat_disguised :
    parseStat (statLine ['7'] [')', ' ', 'R', ' ', '0', ' ', '(', '\n'] 'D'
      (List.replicate 38 ([' '], ['0']) ++ [([' '], ['9'])]) ['\n']) = some ('D', 9) := by
  have words : ∀ w ∈ List.replicate 38 ([' '], ['0']) ++ [([' '], ['9'])],
      w = ([' '], ['0']) ∨ w = ([' '], ['9']) := by decide
  have ticks : fieldTicks 42 (List.replicate 38 ([' '], ['0']) ++ [([' '], ['9'])]) = 9 := by decide
  have read := parseStat_line ['7'] [')', ' ', 'R', ' ', '0', ' ', '(', '\n']
    (by decide : isWhitespace 'D' = false) (by decide)
    (fun w member => by rcases words w member with rfl | rfl <;> simp [Blank, IsWord, isWhitespace])
    (fun w member => by rcases words w member with rfl | rfl <;> decide) (by simp [Blank, isWhitespace] : Blank ['\n'])
  rw [read, ticks]
  rfl

end Stallwatch.Process
