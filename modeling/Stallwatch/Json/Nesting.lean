import Stallwatch.Json.Walks

/-! How deep the reader goes: as many activations of `value` are open at once as values begin
inside each other in front of the input, and no number bounds them. -/
namespace Stallwatch.Json

open Utf8 Text

namespace Cursor

/-- The activation of `value` that a mark opens or closes. -/
def Mark.delta (m : Mark) : ℤ := if m.part = .value then (if m.entry then 1 else -1) else 0

/-- The activations of `value` that are open. -/
def opened (marks : List Mark) : ℤ := (marks.map Mark.delta).sum

/-- At no time are there more than `most`. -/
def NestsAtMost (most : ℕ) (marks : List Mark) : Prop := ∀ front, front <+: marks → opened front ≤ most

@[simp] theorem opened_nil : opened [] = 0 := rfl

@[simp] theorem opened_cons (m : Mark) (marks : List Mark) : opened (m :: marks) = m.delta + opened marks := by
  simp [opened]

@[simp] theorem opened_append (front marks : List Mark) :
    opened (front ++ marks) = opened front + opened marks := by
  simp [opened]

theorem prefix_append_cases {α : Type} {p as bs : List α} (front : p <+: as ++ bs) :
    p <+: as ∨ ∃ q, q <+: bs ∧ p = as ++ q := by
  rcases List.prefix_or_prefix_of_prefix front (List.prefix_append as bs) with inside | ⟨q, rfl⟩
  · exact .inl inside
  · exact .inr ⟨q, (List.prefix_append_right_inj as).mp front, rfl⟩

theorem prefix_enclosed {α : Type} {p as : List α} {a b : α} (front : p <+: a :: (as ++ [b])) :
    p = [] ∨ (∃ q, q <+: as ∧ p = a :: q) ∨ p = a :: (as ++ [b]) := by
  rcases List.prefix_cons_iff.mp front with rfl | ⟨q, rfl, inner⟩
  · exact .inl rfl
  rcases List.prefix_concat_iff.mp inner with rfl | inside
  · exact .inr (.inr rfl)
  · exact .inr (.inl ⟨q, inside, rfl⟩)

/-- What is open along marks that nest. -/
structure Profile (marks : List Mark) (n : ℕ) : Prop where
  settled : opened marks = 0
  within : ∀ front, front <+: marks → 0 ≤ opened front ∧ opened front ≤ n
  reached : ∃ front, front <+: marks ∧ opened front = n

theorem Profile.enclosed {part : Part} {marks : List Mark} {n k : ℕ} {i j : ℕ}
    (delta : ∀ i entry, (⟨part, entry, i⟩ : Mark).delta = if entry then (k : ℤ) else -k)
    (profile : Profile marks n) :
    Profile (⟨part, true, i⟩ :: (marks ++ [⟨part, false, j⟩])) (n + k) := by
  refine ⟨by simp [delta, profile.settled], fun front inside => ?_, ?_⟩
  · rcases prefix_enclosed inside with rfl | ⟨q, inner, rfl⟩ | rfl
    · simp
      omega
    · have bounds := profile.within q inner
      simp [delta]
      omega
    · simp [delta, profile.settled]
      omega
  · obtain ⟨q, inner, deepest⟩ := profile.reached
    refine ⟨⟨part, true, i⟩ :: q, ?_, by simp [delta, deepest]; omega⟩
    exact List.cons_prefix_cons.mpr ⟨rfl, inner.trans (List.prefix_append _ _)⟩

theorem Nests.profile {marks : List Mark} {n : ℕ} (nests : Nests marks n) : Profile marks n := by
  induction nests with
  | nil =>
    refine ⟨rfl, fun front inside => ?_, [], List.nil_prefix, rfl⟩
    rw [List.prefix_nil.mp inside]
    simp
  | value i j _ ih => exact @Profile.enclosed .value _ _ 1 i j (fun _ entry => by cases entry <;> rfl) ih
  | other i j part _ ih => exact @Profile.enclosed _ _ _ 0 i j (fun _ entry => by simp [Mark.delta, part]) ih
  | @append front marks m n _ _ first next =>
    refine ⟨by simp [first.settled, next.settled], fun p inside => ?_, ?_⟩
    · rcases prefix_append_cases inside with inner | ⟨q, inner, rfl⟩
      · have bounds := first.within p inner
        omega
      · have bounds := next.within q inner
        rw [opened_append, first.settled]
        omega
    · rcases le_total m n with less | less
      · obtain ⟨q, inner, deepest⟩ := next.reached
        refine ⟨front ++ q, (List.prefix_append_right_inj _).mpr inner, ?_⟩
        rw [opened_append, first.settled, deepest, max_eq_right less, zero_add]
      · obtain ⟨q, inner, deepest⟩ := first.reached
        refine ⟨q, inner.trans (List.prefix_append _ _), ?_⟩
        rw [deepest, max_eq_left less]

theorem Nests.atMost_iff {marks : List Mark} {n most : ℕ} (nests : Nests marks n) :
    NestsAtMost most marks ↔ n ≤ most := by
  obtain ⟨_, within, front, inside, deepest⟩ := nests.profile
  constructor
  · intro bounded
    have here := bounded front inside
    omega
  · intro less front inside
    have bounds := within front inside
    omega

end Cursor

section Grammar

variable (D : Dialect)

/-- A value that `P` holds of, maybe behind other elements. -/
def AtElement (P : List Char → Prop) (t : List Char) : Prop :=
  P t ∨ ∃ ts js u, Derives D .elements ts js ∧ t = ts ++ ',' :: u ∧ P u

/-- A key, a colon, and then a value that `P` holds of. -/
def AtField (P : List Char → Prop) (t : List Char) : Prop :=
  ∃ w k s w' u, Blank w ∧ D.string k s ∧ Blank w' ∧ t = w ++ (k ++ (w' ++ ':' :: u)) ∧ P u

/-- The same, maybe behind other members. -/
def AtMember (P : List Char → Prop) (t : List Char) : Prop :=
  AtField D P t ∨ ∃ ts es u, Derives D .members ts es ∧ t = ts ++ ',' :: u ∧ AtField D P u

def Closes (t : List Char) : Prop := ∃ w u, Blank w ∧ t = w ++ ']' :: u

/-- In front of the text `n` values begin inside each other, with whole ones at most between
the bracket of one and the beginning of the next. -/
def Reaches : ℕ → List Char → Prop
  | 0, _ => True
  | n + 1, t => n = 0 ∨ ∃ w u, Blank w ∧
      (t = w ++ '[' :: u ∧ ¬Closes u ∧ AtElement D (Reaches n) u ∨
        t = w ++ '{' :: u ∧ AtMember D (Reaches n) u)

variable {D} {P Q : List Char → Prop} {t : List Char}

/- The first element apart. -/
theorem atElement_iff : AtElement D P t ↔
    P t ∨ ∃ e j u, Derives D .element e j ∧ t = e ++ ',' :: u ∧ AtElement D P u := by
  constructor
  · rintro (here | ⟨ts, js, u, derived, rfl, holds⟩)
    · exact .inl here
    cases derived with
    | last element => exact .inr ⟨ts, _, u, element, rfl, .inl holds⟩
    | @more e ts j js first others =>
      exact .inr ⟨e, j, ts ++ ',' :: u, first, by simp, .inr ⟨ts, js, u, others, rfl, holds⟩⟩
  · rintro (here | ⟨e, j, u, derived, rfl, holds | ⟨ts, js, u, others, rfl, holds⟩⟩)
    · exact .inl here
    · exact .inr ⟨e, [j], u, .last derived, rfl, holds⟩
    · exact .inr ⟨e ++ ',' :: ts, j :: js, u, .more derived others, by simp, holds⟩

/- What follows the colon of the first member. -/
theorem atMember_iff : AtMember D P t ↔
    AtField D (fun u => P u ∨ ∃ e j v, Derives D .element e j ∧ u = e ++ ',' :: v ∧ AtMember D P v) t := by
  constructor
  · rintro (⟨w, k, s, w', u, before, key, after, rfl, holds⟩ | ⟨ts, es, u, derived, rfl, field⟩)
    · exact ⟨w, k, s, w', u, before, key, after, rfl, .inl holds⟩
    cases derived with
    | lastMember member =>
      cases member with
      | @member w k s w' e j before key after element =>
        exact ⟨w, k, s, w', e ++ ',' :: u, before, key, after, by simp, .inr ⟨e, j, u, element, rfl, .inl field⟩⟩
    | @moreMembers m ts e es first others =>
      cases first with
      | @member w k s w' e j before key after element =>
        exact ⟨w, k, s, w', e ++ ',' :: (ts ++ ',' :: u), before, key, after, by simp,
          .inr ⟨e, j, ts ++ ',' :: u, element, rfl, .inr ⟨ts, es, u, others, rfl, field⟩⟩⟩
  · rintro ⟨w, k, s, w', u, before, key, after, rfl, holds | ⟨e, j, v, element, rfl, next⟩⟩
    · exact .inl ⟨w, k, s, w', u, before, key, after, rfl, holds⟩
    have member := Derives.member before key after element
    rcases next with field | ⟨ts, es, u, others, rfl, field⟩
    · exact .inr ⟨_, [(s, j)], v, .lastMember member, by simp, field⟩
    · exact .inr ⟨_, (s, j) :: es, u, .moreMembers member others, by simp, field⟩

theorem AtField.imp (within : ∀ u, (bytes u).length < (bytes t).length → P u → Q u) (field : AtField D P t) :
    AtField D Q t := by
  obtain ⟨w, k, s, w', u, before, key, after, rfl, holds⟩ := field
  refine ⟨w, k, s, w', u, before, key, after, rfl, within u ?_ holds⟩
  simp only [bytes_append, bytes_ascii (by decide : ':'.toNat < 0x80), List.length_append, List.length_cons]
  omega

end Grammar

/- What the reader finds behind the blanks. -/
theorem skipWs_iff {c : Char} (ascii : c.toNat < 0x80) (solid : c ∉ [' ', '\t', '\n', '\r'])
    {t u : List Char} : skipWs (bytes t) = bytes (c :: u) ↔ ∃ w, Blank w ∧ t = w ++ c :: u := by
  constructor
  · intro skipped
    obtain ⟨w, v, rfl, blank, skip⟩ := skipWs_sound t
    exact ⟨w, blank, by rw [bytes_injective (skip.symm.trans skipped)]⟩
  · rintro ⟨w, blank, rfl⟩
    rw [bytes_append, skipWs_blank blank, bytes_ascii ascii, skipWs_char ascii solid]

theorem head_iff {c : Char} (ascii : c.toNat < 0x80) {t : List Char} :
    (skipWs (bytes t)).head?.map asChar = some c ↔ ∃ u, skipWs (bytes t) = bytes (c :: u) := by
  constructor
  · intro head
    obtain ⟨w, v, rfl, blank, skip⟩ := skipWs_sound t
    rw [skip] at head
    obtain ⟨u, rfl, _⟩ := head_ascii ascii head
    exact ⟨u, skip⟩
  · rintro ⟨u, same⟩
    rw [same, bytes_ascii ascii, head_char ascii]

open Cursor (deeper valueDepth objectDepth membersDepth arrayDepth elementsDepth)

theorem le_deeper {α : Type} {n m : ℕ} {r : Outcome String α} {next : α → ℕ} :
    n + 1 ≤ deeper m r next ↔ n + 1 ≤ m ∨ ∃ a, r = .ok a ∧ n + 1 ≤ next a := by
  cases r with
  | ok a => simp [deeper]
  | err e => simp [deeper]
  | panic => simp [deeper]

section Depth

variable {f : Rounding} {fuel n : ℕ} {t : List Char}

theorem valueDepth_skip (b : List UInt8) : valueDepth f fuel (skipWs b) = valueDepth f fuel b := by
  cases fuel with
  | zero => rfl
  | succ fuel => rw [valueDepth, valueDepth, skipWs_skipWs]

theorem elementsDepth_skip (b : List UInt8) : elementsDepth f fuel (skipWs b) = elementsDepth f fuel b := by
  cases fuel with
  | zero => rfl
  | succ fuel => rw [elementsDepth, elementsDepth, valueDepth_skip, value_skip]

theorem membersDepth_skip (b : List UInt8) : membersDepth f fuel (skipWs b) = membersDepth f fuel b := by
  cases fuel with
  | zero => rfl
  | succ fuel => rw [membersDepth, membersDepth, skipWs_skipWs]

theorem element_iff (enough : 3 * (bytes t).length + 1 ≤ fuel) {u : List Char} :
    (∃ read, value f fuel (bytes t) = .ok read ∧ skipWs read.2 = bytes (',' :: u)) ↔
      ∃ e j, Derives (loose f) .element e j ∧ t = e ++ ',' :: u := by
  constructor
  · rintro ⟨⟨j, left⟩, read, skipped⟩
    obtain ⟨w, v, rest, rfl, before, rfl, derived⟩ := (sound f fuel).value read
    obtain ⟨w', after, rfl⟩ := (skipWs_iff (by decide) (by decide)).mp skipped
    exact ⟨w ++ (v ++ w'), j, .element before derived after, by simp⟩
  · rintro ⟨e, j, derived, rfl⟩
    obtain ⟨w', after, reads⟩ := Padded.value (derives_read derived)
    have stops : Stops (bytes (',' :: u)) := by
      rw [bytes_ascii (by decide)]
      exact stops_char (by decide) (by decide) _
    rw [bytes_append] at enough ⊢
    rw [List.length_append] at enough
    refine ⟨_, reads fuel _ (by omega) stops, ?_⟩
    rw [← bytes_append]
    exact (skipWs_iff (by decide) (by decide)).mpr ⟨w', after, rfl⟩

theorem field_iff {P : List Char → Prop} : AtField (loose f) P t ↔ ∃ v read u,
    skipWs (bytes t) = bytes ('"' :: v) ∧ string (bytes ('"' :: v)) = .ok read ∧
      skipWs read.2 = bytes (':' :: u) ∧ P u := by
  constructor
  · rintro ⟨w, k, s, w', u, before, key, after, rfl, holds⟩
    have read := key.quotes (bytes (w' ++ ':' :: u))
    obtain ⟨body, rfl, _⟩ := key
    rw [← bytes_append] at read
    exact ⟨_, _, u, (skipWs_iff (by decide) (by decide)).mpr ⟨w, before, rfl⟩, read,
      (skipWs_iff (by decide) (by decide)).mpr ⟨w', after, rfl⟩, holds⟩
  · rintro ⟨v, ⟨s, left⟩, u, skipped, read, colon, holds⟩
    obtain ⟨w, before, rfl⟩ := (skipWs_iff (by decide) (by decide)).mp skipped
    obtain ⟨k, rest, split, rfl, key⟩ := string_sound (f := f) (by rw [bytes_ascii (by decide)]; rfl) read
    obtain ⟨w', after, rfl⟩ := (skipWs_iff (by decide) (by decide)).mp colon
    exact ⟨w, k, s, w', u, before, key, after, by rw [split], holds⟩

/-- Each function goes as deep as the text behind the cursor reaches. -/
structure Deep (f : Rounding) (fuel : ℕ) : Prop where
  value : ∀ {t n}, 3 * (bytes t).length + 1 ≤ fuel →
    (n ≤ valueDepth f fuel (bytes t) ↔ Reaches (loose f) n t)
  object : ∀ {t n}, 3 * (bytes t).length + 3 ≤ fuel →
    (n + 1 ≤ objectDepth f fuel (bytes t) ↔ AtMember (loose f) (Reaches (loose f) (n + 1)) t)
  members : ∀ {t n}, 3 * (bytes t).length + 2 ≤ fuel →
    (n + 1 ≤ membersDepth f fuel (bytes t) ↔ AtMember (loose f) (Reaches (loose f) (n + 1)) t)
  array : ∀ {t n}, 3 * (bytes t).length + 3 ≤ fuel →
    (n + 1 ≤ arrayDepth f fuel (bytes t) ↔ ¬Closes t ∧ AtElement (loose f) (Reaches (loose f) (n + 1)) t)
  elements : ∀ {t n}, 3 * (bytes t).length + 2 ≤ fuel →
    (n + 1 ≤ elementsDepth f fuel (bytes t) ↔ AtElement (loose f) (Reaches (loose f) (n + 1)) t)

/- What is read if a character comes next, and only then. -/
theorem le_ahead {x : ℕ} {c : Char} (ascii : c.toNat < 0x80) {t : List Char} :
    n + 1 ≤ (if (skipWs (bytes t)).head?.map asChar = some c then x else 0) ↔
      ∃ u, skipWs (bytes t) = bytes (c :: u) ∧ n + 1 ≤ x := by
  rw [exists_and_right, ← head_iff ascii]
  by_cases here : (skipWs (bytes t)).head?.map asChar = some c
  · rw [if_pos here, and_iff_right here]
  · rw [if_neg here]
    exact iff_of_false (by omega) fun both => here both.1

/- A value, and what is read behind it. -/
theorem behind_iff {next : List UInt8 → ℕ} {Q : List Char → Prop} (enough : 3 * (bytes t).length + 1 ≤ fuel)
    (deep : ∀ u, (bytes u).length < (bytes t).length → (n + 1 ≤ next (bytes u) ↔ Q u)) :
    (∃ read, value f fuel (bytes t) = .ok read ∧
      n + 1 ≤ if (skipWs read.2).head?.map asChar = some ',' then next (skipWs read.2).tail else 0) ↔
      ∃ e j u, Derives (loose f) .element e j ∧ t = e ++ ',' :: u ∧ Q u := by
  have shorter : ∀ {e : List Char} u, (bytes u).length < (bytes (e ++ ',' :: u)).length := by
    intro e u
    rw [bytes_append, bytes_ascii (by decide), List.length_append, List.length_cons]
    omega
  constructor
  · rintro ⟨⟨j, left⟩, read, reached⟩
    obtain ⟨_, _, rest, _, _, rfl, _⟩ := (sound f fuel).value read
    obtain ⟨u, comma, reached⟩ := (le_ahead (by decide)).mp reached
    rw [comma, tail_char (by decide)] at reached
    obtain ⟨e, j, derived, rfl⟩ := (element_iff enough).mp ⟨_, read, comma⟩
    exact ⟨e, j, u, derived, rfl, (deep u (shorter u)).mp reached⟩
  · rintro ⟨e, j, u, derived, rfl, holds⟩
    obtain ⟨⟨j, left⟩, read, comma⟩ := (element_iff enough).mpr ⟨e, j, derived, rfl⟩
    obtain ⟨_, _, rest, _, _, rfl, _⟩ := (sound f fuel).value read
    refine ⟨_, read, (le_ahead (by decide)).mpr ⟨u, comma, ?_⟩⟩
    rw [comma, tail_char (by decide)]
    exact (deep u (shorter u)).mpr holds

theorem elements_deep (ih : Deep f fuel) (enough : 3 * (bytes t).length + 2 ≤ fuel + 1) :
    n + 1 ≤ elementsDepth f (fuel + 1) (bytes t) ↔ AtElement (loose f) (Reaches (loose f) (n + 1)) t := by
  have fits : 3 * (bytes t).length + 1 ≤ fuel := by omega
  rw [elementsDepth, le_deeper, ih.value fits, atElement_iff]
  exact or_congr Iff.rfl (behind_iff fits fun u shorter => ih.elements (by omega))

theorem array_deep (ih : Deep f fuel) (enough : 3 * (bytes t).length + 3 ≤ fuel + 1) :
    n + 1 ≤ arrayDepth f (fuel + 1) (bytes t) ↔
      ¬Closes t ∧ AtElement (loose f) (Reaches (loose f) (n + 1)) t := by
  have closes : (skipWs (bytes t)).head?.map asChar = some ']' ↔ Closes t := by
    rw [head_iff (by decide), Closes, exists_comm]
    exact exists_congr fun u => skipWs_iff (by decide) (by decide)
  rw [arrayDepth]
  by_cases closed : Closes t
  · rw [if_pos (closes.mpr closed)]
    exact iff_of_false (by omega) fun both => both.1 closed
  · rw [if_neg (mt closes.mp closed), elementsDepth_skip, ih.elements (by omega), and_iff_right closed]

theorem members_deep (ih : Deep f fuel) (enough : 3 * (bytes t).length + 2 ≤ fuel + 1) :
    n + 1 ≤ membersDepth f (fuel + 1) (bytes t) ↔ AtMember (loose f) (Reaches (loose f) (n + 1)) t := by
  rw [membersDepth, le_ahead (by decide), atMember_iff, field_iff]
  have outer := skipWs_length (bytes t)
  refine exists_congr fun v => ?_
  simp only [exists_and_left]
  refine and_congr_right fun quote => ?_
  rw [quote, le_deeper, or_iff_right (by omega)]
  refine exists_congr fun key => and_congr_right fun read => ?_
  obtain ⟨name, left⟩ := key
  obtain ⟨_, rest, _, rfl, _⟩ := string_sound (f := f) (by rw [bytes_ascii (by decide)]; rfl) read
  have inner := string_ends (b := bytes ('"' :: v)) (by rw [bytes_ascii (by decide)]; simp)
  have passed := skipWs_length (bytes rest)
  dsimp only
  rw [le_ahead (by decide)]
  refine exists_congr fun u => and_congr_right fun colon => ?_
  rw [read, tail_char (by decide)] at inner
  rw [quote, bytes_ascii (by decide), List.length_cons] at outer
  rw [colon, bytes_ascii (by decide), List.length_cons] at passed
  have within : (bytes rest).length ≤ (bytes v).length := inner
  rw [colon, tail_char (by decide), le_deeper, ih.value (by omega), behind_iff (by omega) fun u shorter => ih.members (by omega)]
  simp only [exists_and_left]

theorem object_deep (ih : Deep f fuel) (enough : 3 * (bytes t).length + 3 ≤ fuel + 1) :
    n + 1 ≤ objectDepth f (fuel + 1) (bytes t) ↔ AtMember (loose f) (Reaches (loose f) (n + 1)) t := by
  rw [objectDepth]
  by_cases closed : (skipWs (bytes t)).head?.map asChar = some '}'
  · rw [if_pos closed, atMember_iff, field_iff]
    refine iff_of_false (by omega) ?_
    rintro ⟨v, _, _, quote, _⟩
    rw [quote, bytes_ascii (by decide), head_char (by decide)] at closed
    contradiction
  · rw [if_neg closed, membersDepth_skip, ih.members (by omega)]

/- What a text begins with behind its blanks. -/
theorem reaches_iff {left : List Char} (skip : skipWs (bytes t) = bytes left) : Reaches (loose f) (n + 2) t ↔
    (∃ u, left = '[' :: u ∧ ¬Closes u ∧ AtElement (loose f) (Reaches (loose f) (n + 1)) u) ∨
      ∃ u, left = '{' :: u ∧ AtMember (loose f) (Reaches (loose f) (n + 1)) u := by
  have begins : ∀ c : Char, c.toNat < 0x80 → c ∉ [' ', '\t', '\n', '\r'] → ∀ u,
      (∃ w, Blank w ∧ t = w ++ c :: u) ↔ left = c :: u := by
    intro c ascii solid u
    rw [← skipWs_iff ascii solid, skip]
    exact ⟨bytes_injective, fun same => same ▸ rfl⟩
  rw [Reaches, or_iff_right (Nat.succ_ne_zero n), exists_comm, ← exists_or]
  refine exists_congr fun u => ?_
  rw [← begins '[' (by decide) (by decide), ← begins '{' (by decide) (by decide)]
  simp only [and_or_left, exists_or, ← and_assoc, exists_and_right]

theorem value_deep (ih : Deep f fuel) (enough : 3 * (bytes t).length + 1 ≤ fuel + 1) :
    n ≤ valueDepth f (fuel + 1) (bytes t) ↔ Reaches (loose f) n t := by
  rw [valueDepth]
  obtain _ | _ | n := n
  · exact iff_of_true (Nat.zero_le _) trivial
  · exact iff_of_true (Nat.le_add_left _ _) (.inl rfl)
  have outer := skipWs_length (bytes t)
  obtain ⟨w, left, split, blank, skip⟩ := skipWs_sound t
  rw [Nat.add_le_add_iff_right, reaches_iff skip, skip]
  rw [skip] at outer
  cases left with
  | nil => exact iff_of_false (by simp) (by simp)
  | cons c u =>
    rcases head_cases c u with ⟨low, front⟩ | ⟨x, xs, front, wide⟩
    · rw [front, List.length_cons] at outer
      rw [front]
      dsimp only
      rw [asChar_ascii low]
      split
      · rw [ih.object (by omega)]
        simp
      · rw [ih.array (by omega)]
        simp
      · rename_i brace bracket
        refine iff_of_false (by omega) ?_
        rintro (⟨u, same, _⟩ | ⟨u, same, _⟩)
        · exact bracket (List.cons.inj same).1
        · exact brace (List.cons.inj same).1
    · rw [front]
      dsimp only
      split
      · exact absurd ‹_› (wide_ne wide (by decide))
      · exact absurd ‹_› (wide_ne wide (by decide))
      · refine iff_of_false (by omega) ?_
        rintro (⟨v, same, _⟩ | ⟨v, same, _⟩)
        all_goals
          cases same
          rw [bytes_ascii (by decide)] at front
          rw [← (List.cons.inj front).1] at wide
          exact absurd wide (by decide)

theorem deep (f : Rounding) (fuel : ℕ) : Deep f fuel := by
  induction fuel with
  | zero => constructor <;> intros <;> omega
  | succ fuel ih =>
    exact {
      value := value_deep ih
      object := object_deep ih
      members := members_deep ih
      array := array_deep ih
      elements := elements_deep ih }

end Depth

theorem reaches_brackets (D : Dialect) (n : ℕ) : Reaches D (n + 1) (List.replicate n '[') := by
  induction n with
  | zero => exact .inl rfl
  | succ n ih =>
    refine .inr ⟨[], List.replicate n '[', rfl, .inl ⟨rfl, ?_, .inl ih⟩⟩
    rintro ⟨w, u, blank, same⟩
    have listed : ']' ∈ List.replicate n '[' := by rw [same]; simp
    exact absurd (List.eq_of_mem_replicate listed) (by decide)

theorem atMost_iff (f : Rounding) (most : ℕ) (input : List Char) :
    Cursor.NestsAtMost most (Cursor.parse f input).2.marks ↔ ¬Reaches (loose f) (most + 1) input := by
  obtain ⟨_, _, rest, ⟨marks, noted, nests, _⟩, _⟩ := Cursor.parse_agrees f input
  rw [noted, List.nil_append, nests.atMost_iff, ← (deep f _).value le_rfl, Cursor.parseDepth]
  omega

theorem unbounded (f : Rounding) (most : ℕ) :
    ¬Cursor.NestsAtMost most (Cursor.parse f (List.replicate most '[')).2.marks :=
  fun bounded => (atMost_iff f most _).mp bounded (reaches_brackets _ most)

/-- As many activations of `value` nest as values begin inside each other in front of the
input, and no number bounds them for every input. -/
theorem nesting_iff (f : Rounding) :
    (∀ most input, Cursor.NestsAtMost most (Cursor.parse f input).2.marks ↔
      ¬Reaches (loose f) (most + 1) input) ∧
    ¬∃ most, ∀ input, Cursor.NestsAtMost most (Cursor.parse f input).2.marks :=
  ⟨atMost_iff f, fun ⟨most, bounded⟩ => unbounded f most (bounded _)⟩

/-- Brackets that are opened and not closed, as many as the number that is to bound them. -/
theorem not_nesting : ¬∃ most, ∀ input, Cursor.NestsAtMost most (Cursor.parse .exact input).2.marks :=
  fun ⟨most, bounded⟩ => unbounded .exact most (bounded _)

end Stallwatch.Json
