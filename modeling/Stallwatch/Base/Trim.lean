import Mathlib.Data.List.DropRight
import Stallwatch.Base.Text

/-! Trimming: what is cut off at the two ends of a text, and what stops it. -/
namespace Stallwatch.Text

section Matches

variable {p : Char → Bool} {c : Char}

theorem trimStart_all {as : List Char} (all : ∀ a ∈ as, p a = true) (bs : List Char) :
    trimStartMatches p (as ++ bs) = trimStartMatches p bs :=
  List.dropWhile_append_of_pos all

theorem trimStart_stop (stop : p c = false) (as bs : List Char) :
    trimStartMatches p (as ++ c :: bs) = trimStartMatches p as ++ c :: bs := by
  rw [trimStartMatches, trimStartMatches, List.dropWhile_append]
  split
  · rename_i gone
    rw [List.isEmpty_iff.mp gone, List.dropWhile_cons_of_neg (by simp [stop])]
    rfl
  · rfl

theorem trimEnd_all {bs : List Char} (all : ∀ b ∈ bs, p b = true) (as : List Char) :
    trimEndMatches p (as ++ bs) = trimEndMatches p as := by
  rw [trimEndMatches, trimEndMatches, List.reverse_append]
  congr 1
  exact List.dropWhile_append_of_pos fun b member => all b (List.mem_reverse.mp member)

theorem trimEnd_stop (stop : p c = false) (as bs : List Char) :
    trimEndMatches p (as ++ c :: bs) = as ++ c :: trimEndMatches p bs := by
  have flipped := trimStart_stop stop bs.reverse as.reverse
  simp only [trimStartMatches] at flipped
  simp only [trimEndMatches, List.reverse_append, List.reverse_cons, List.append_assoc,
    List.singleton_append, flipped, List.reverse_reverse]

theorem trimStart_split (p : Char → Bool) (cs : List Char) :
    ∃ blanks, cs = blanks ++ trimStartMatches p cs ∧ ∀ b ∈ blanks, p b = true :=
  ⟨cs.takeWhile p, List.takeWhile_append_dropWhile.symm, fun _ member => List.mem_takeWhile_imp member⟩

theorem trimEnd_split (p : Char → Bool) (cs : List Char) :
    ∃ blanks, cs = trimEndMatches p cs ++ blanks ∧ ∀ b ∈ blanks, p b = true :=
  ⟨cs.rtakeWhile p, List.rdropWhile_append_rtakeWhile.symm, fun _ member => List.mem_rtakeWhile_imp member⟩

theorem trimEnd_front (p : Char → Bool) (cs : List Char) : trimEndMatches p cs <+: cs :=
  List.rdropWhile_prefix p cs

theorem trimStart_head {cs rest : List Char} (front : trimStartMatches p cs = c :: rest) : p c = false := by
  have head := List.head?_dropWhile_not p cs
  rw [trimStartMatches] at front
  rw [front] at head
  simpa using head

theorem trimEnd_last {cs rest : List Char} (back : trimEndMatches p cs = rest ++ [c]) : p c = false := by
  rw [trimEndMatches, List.reverse_eq_iff, List.reverse_concat] at back
  exact trimStart_head back

theorem trimMatches_pad {before after : List Char} (front : ∀ c ∈ before, p c = true)
    (back : ∀ c ∈ after, p c = true) (cs : List Char) :
    trimMatches p (before ++ cs ++ after) = trimMatches p cs := by
  rw [trimMatches, trimMatches, List.append_assoc, trimStart_all front]
  cases kept : trimStartMatches p cs with
  | nil =>
    have all : ∀ c ∈ cs, p c = true := List.dropWhile_eq_nil_iff.mp kept
    have none : trimStartMatches p after = [] := List.dropWhile_eq_nil_iff.mpr back
    rw [trimStart_all all, none]
  | cons c rest =>
    obtain ⟨skipped, whole, all⟩ := trimStart_split p cs
    rw [whole, kept, List.append_assoc, trimStart_all all, List.cons_append]
    have first : trimStartMatches p (c :: (rest ++ after)) = c :: (rest ++ after) :=
      List.dropWhile_cons_of_neg (by simp [trimStart_head kept])
    rw [first, ← List.cons_append, trimEnd_all back]

theorem trimMatches_head {cs rest : List Char} (front : trimMatches p cs = c :: rest) : p c = false := by
  obtain ⟨more, split⟩ := trimEnd_front p (trimStartMatches p cs)
  rw [← trimMatches, front, List.cons_append] at split
  exact trimStart_head split.symm

theorem trimMatches_last {cs rest : List Char} (back : trimMatches p cs = rest ++ [c]) : p c = false :=
  trimEnd_last back

theorem trimEnd_self {cs : List Char} (ends : ∀ c, cs.getLast? = some c → p c = false) :
    trimEndMatches p cs = cs := by
  apply List.rdropWhile_eq_self_iff.mpr
  intro some
  rw [ends _ (List.getLast?_eq_some_getLast some)]
  exact Bool.false_ne_true

/- Nothing is trimmed where neither end asks for it. -/
theorem trimMatches_self {cs : List Char} (front : ∀ c, cs.head? = some c → p c = false)
    (back : ∀ c, cs.getLast? = some c → p c = false) : trimMatches p cs = cs := by
  have kept : trimStartMatches p cs = cs := by
    cases cs with
    | nil => rfl
    | cons c cs => exact List.dropWhile_cons_of_neg (by simp [front c rfl])
  rw [trimMatches, kept, trimEnd_self back]

end Matches

/-- Whitespace and nothing else. -/
def Blank (cs : List Char) : Prop := ∀ c ∈ cs, isWhitespace c = true

theorem blank_nil : Blank [] := List.forall_mem_nil _

theorem trim_pad {before after : List Char} (front : Blank before) (back : Blank after)
    (cs : List Char) : trim (before ++ cs ++ after) = trim cs := trimMatches_pad front back cs

theorem trim_split (cs : List Char) :
    ∃ before after, cs = before ++ trim cs ++ after ∧ Blank before ∧ Blank after := by
  obtain ⟨before, front, blank⟩ := trimStart_split isWhitespace cs
  obtain ⟨after, back, blank'⟩ := trimEnd_split isWhitespace (trimStartMatches isWhitespace cs)
  refine ⟨before, after, ?_, blank, blank'⟩
  rw [List.append_assoc]
  exact front.trans (congrArg (before ++ ·) back)

/- A character that is no blank holds both ends in place. -/
theorem trim_stop {c : Char} (stop : isWhitespace c = false) (as bs : List Char) :
    trim (as ++ c :: bs) = trimStartMatches isWhitespace as ++ c :: trimEndMatches isWhitespace bs := by
  rw [trim, trimStart_stop stop, trimEnd_stop stop]

theorem trim_blank {cs : List Char} (blank : Blank cs) : trim cs = [] := by
  have none : trimStartMatches isWhitespace cs = [] := List.dropWhile_eq_nil_iff.mpr blank
  rw [trim, none]
  rfl

theorem trim_eq_nil {cs : List Char} : trim cs = [] ↔ Blank cs := by
  refine ⟨fun none => ?_, trim_blank⟩
  obtain ⟨before, after, whole, front, back⟩ := trim_split cs
  rw [none, List.append_nil] at whole
  rw [whole]
  intro c member
  exact (List.mem_append.mp member).elim (front c) (back c)

theorem trim_trimStart (cs : List Char) : trim (trimStartMatches isWhitespace cs) = trim cs := by
  obtain ⟨before, whole, front⟩ := trimStart_split isWhitespace cs
  have padded := trim_pad front blank_nil (trimStartMatches isWhitespace cs)
  rw [List.append_nil, ← whole] at padded
  exact padded.symm

theorem trim_trimEnd (cs : List Char) : trim (trimEndMatches isWhitespace cs) = trim cs := by
  obtain ⟨after, whole, back⟩ := trimEnd_split isWhitespace cs
  have padded := trim_pad blank_nil back (trimEndMatches isWhitespace cs)
  rw [List.nil_append, ← whole] at padded
  exact padded.symm

end Stallwatch.Text
