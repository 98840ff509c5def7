import Stallwatch.Json

/-! The reader always returns: it never goes back, so the bytes that are left bound its
calls, and `parse` gives fuel for all of them. -/
namespace Stallwatch.Json

open Utf8 Text

/-- Reading from `b` ends, in an error or with at most the bytes of `b` left. -/
def Ends {α : Type} (b : List UInt8) : Outcome String (α × List UInt8) → Prop
  | .ok (_, rest) => rest.length ≤ b.length
  | .err _ => True
  | .panic => False

theorem Ends.bind {α β : Type} {b b' : List UInt8} {r : Outcome String (α × List UInt8)}
    {next : α × List UInt8 → Outcome String (β × List UInt8)} (first : Ends b r)
    (step : ∀ a rest, rest.length ≤ b.length → Ends b' (next (a, rest))) : Ends b' (r >>= next) := by
  cases r with
  | ok result => exact step result.1 result.2 first
  | err e => trivial
  | panic => exact first

theorem Ends.mono {α : Type} {b b' : List UInt8} {r : Outcome String (α × List UInt8)}
    (h : Ends b r) (le : b.length ≤ b'.length) : Ends b' r := by
  cases r with
  | ok result => exact Nat.le_trans h le
  | err e => trivial
  | panic => exact h

theorem skipWs_length (b : List UInt8) : (skipWs b).length ≤ b.length :=
  (List.dropWhile_suffix _).length_le

theorem unicode_ends (b : List UInt8) : Ends b (unicode b) := by
  unfold unicode
  split
  · trivial
  split
  · trivial
  split
  · trivial
  · simp [Ends]

theorem escape_ends (b : List UInt8) : Ends b (escape b) := by
  cases b with
  | nil => trivial
  | cons c b =>
    have within : b.length ≤ (c :: b).length := by simp
    unfold escape
    dsimp only
    split
    all_goals first | exact within | exact (unicode_ends b).mono within | trivial

theorem utf8Len_pos (first : UInt8) : 0 < utf8Len first := by
  unfold utf8Len
  dsimp only
  split
  · decide
  split
  · decide
  split
  · decide
  · decide

/- Every turn of the string loop takes a byte. -/
theorem piece_ends (c : UInt8) (b : List UInt8) : Ends b (piece (c :: b)) := by
  have pos := utf8Len_pos c
  unfold piece
  dsimp only
  split
  · exact Nat.le_refl _
  · apply (escape_ends b).bind
    intro d rest shorter
    exact shorter
  split
  · trivial
  split
  · trivial
  · simp only [Ends, List.length_drop, List.length_cons]
    omega

theorem stringFrom_ends {fuel : ℕ} {acc : List Char} {b : List UInt8} (enough : b.length < fuel) :
    Ends b (stringFrom fuel acc b) := by
  induction fuel generalizing acc b with
  | zero => omega
  | succ fuel ih =>
    unfold stringFrom
    cases b with
    | nil => trivial
    | cons c b =>
      rw [List.length_cons] at enough
      apply (piece_ends c b).bind
      rintro (_ | cs) rest shorter
      · exact Nat.le_succ_of_le shorter
      · exact (@ih (acc ++ cs) _ (by omega)).mono (Nat.le_succ_of_le shorter)

theorem string_ends {b : List UInt8} (start : b ≠ []) : Ends b.tail (string b) := by
  cases b with
  | nil => contradiction
  | cons c b => exact stringFrom_ends (Nat.lt_succ_self _)

theorem number_ends (f : Rounding) (b : List UInt8) : Ends b (number f b) := by
  unfold number
  dsimp only
  split
  · trivial
  · simp only [Ends, List.length_drop]
    omega

theorem lit_ends (want : List Char) (out : Json) (b : List UInt8) : Ends b (lit want out b) := by
  unfold lit
  split
  · simp [Ends]
  · trivial

theorem tail_lt {b : List UInt8} {d : Char} (start : b.head?.map asChar = some d) :
    b.tail.length < b.length := by
  cases b with
  | nil => simp at start
  | cons c b => simp

/-- Every function of the reader returns, given `fuel`. -/
structure AllEnd (f : Rounding) (fuel : ℕ) : Prop where
  value : ∀ b, 3 * b.length + 1 ≤ fuel → Ends b (value f fuel b)
  object : ∀ b, 3 * b.length + 3 ≤ fuel → Ends b (object f fuel b)
  members : ∀ m b, 3 * b.length + 2 ≤ fuel → Ends b (members f fuel m b)
  array : ∀ b, 3 * b.length + 3 ≤ fuel → Ends b (array f fuel b)
  elements : ∀ v b, 3 * b.length + 2 ≤ fuel → Ends b (elements f fuel v b)

section
variable {f : Rounding} {fuel : ℕ} (ih : AllEnd f fuel)
include ih

theorem value_ends {b : List UInt8} (enough : 3 * b.length + 1 ≤ fuel + 1) :
    Ends b (value f (fuel + 1) b) := by
  have skipped := skipWs_length b
  unfold value
  cases start : skipWs b with
  | nil => trivial
  | cons c rest =>
    rw [start, List.length_cons] at skipped
    have within : (c :: rest).length ≤ b.length := skipped
    dsimp only
    split
    · exact (ih.object rest (by omega)).mono (by omega)
    · exact (ih.array rest (by omega)).mono (by omega)
    · apply (@string_ends (c :: rest) (by simp)).bind
      intro s rest' shorter
      exact Nat.le_trans shorter (Nat.le_of_succ_le skipped)
    · exact (lit_ends _ _ _).mono within
    · exact (lit_ends _ _ _).mono within
    · exact (lit_ends _ _ _).mono within
    · exact (number_ends f _).mono within

theorem object_ends {b : List UInt8} (enough : 3 * b.length + 3 ≤ fuel + 1) :
    Ends b (object f (fuel + 1) b) := by
  have skipped := skipWs_length b
  unfold object
  dsimp only
  split
  · exact Nat.le_trans (by simp) skipped
  · exact (ih.members [] (skipWs b) (by omega)).mono skipped

theorem array_ends {b : List UInt8} (enough : 3 * b.length + 3 ≤ fuel + 1) :
    Ends b (array f (fuel + 1) b) := by
  have skipped := skipWs_length b
  unfold array
  dsimp only
  split
  · exact Nat.le_trans (by simp) skipped
  · exact (ih.elements [] (skipWs b) (by omega)).mono skipped

theorem elements_ends {v : List Json} {b : List UInt8} (enough : 3 * b.length + 2 ≤ fuel + 1) :
    Ends b (elements f (fuel + 1) v b) := by
  unfold elements
  apply (ih.value b (by omega)).bind
  intro x rest shorter
  have skipped := skipWs_length rest
  dsimp only
  split
  · rename_i comma
    have taken := tail_lt comma
    exact (ih.elements _ _ (by omega)).mono (by omega)
  · exact Nat.le_trans (by simp) (skipped.trans shorter)
  · trivial

theorem members_ends {m : List (List Char × Json)} {b : List UInt8}
    (enough : 3 * b.length + 2 ≤ fuel + 1) : Ends b (members f (fuel + 1) m b) := by
  have skipped := skipWs_length b
  unfold members
  dsimp only
  split
  · rename_i quote
    have opened := tail_lt quote
    apply (string_ends (b := skipWs b) (by rintro none; simp [none] at quote)).bind
    intro k rest shorter
    have before := skipWs_length rest
    dsimp only
    split
    · rename_i colon
      have taken := tail_lt colon
      apply (ih.value (skipWs rest).tail (by omega)).bind
      intro x rest' after
      have ended := skipWs_length rest'
      dsimp only
      split
      · rename_i comma
        have passed := tail_lt comma
        exact (ih.members _ _ (by omega)).mono (by omega)
      · exact Nat.le_trans (by simp) (by omega : (skipWs rest').length ≤ b.length)
      · trivial
    · trivial
  · trivial

end

theorem allEnd (f : Rounding) (fuel : ℕ) : AllEnd f fuel := by
  induction fuel with
  | zero => constructor <;> intros <;> omega
  | succ fuel ih =>
    exact {
      value := fun _ => value_ends ih
      object := fun _ => object_ends ih
      members := fun _ _ => members_ends ih
      array := fun _ => array_ends ih
      elements := fun _ _ => elements_ends ih }

theorem parse_total (f : Rounding) (input : List Char) : parse f input ≠ .panic := by
  have ends := (allEnd f (3 * (bytes input).length + 1)).value (bytes input) le_rfl
  unfold parse
  cases result : value f (3 * (bytes input).length + 1) (bytes input) with
  | ok r =>
    rw [Outcome.ok_bind]
    dsimp only
    split
    · simp
    · simp
  | err e => simp
  | panic =>
    rw [result] at ends
    exact ends.elim

end Stallwatch.Json
