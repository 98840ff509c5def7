import Stallwatch.Json.Reads

/-! The texts the reader takes: its grammar, and that it reads every text of it as the value
the rules build. -/
namespace Stallwatch.Json

open Utf8 Text

/-- The dialect of the reader. Numbers are what the float parser takes of the characters a
number can have, and escapes what the radix parser takes; every other character stands
for itself. -/
def loose (f : Rounding) : Dialect where
  number t n := t.all isNumberChar = true ∧ F64.parse f t = some n
  string := Quoted (Piece (fun _ => True) codePoint)

theorem reads_null {f : Rounding} : Reads f ['n', 'u', 'l', 'l'] null := by
  refine ⟨⟨'n', _, rfl, by decide, by decide⟩, ?_⟩
  intro fuel rest enough _
  obtain ⟨fuel, rfl⟩ := Nat.exists_eq_add_of_le' (by omega : 1 ≤ fuel)
  rfl

/-- What the reader does with a text of the grammar. -/
def Read (f : Rounding) : (n : Nonterminal) → List Char → Meaning n → Prop
  | .value, t, j => Reads f t j
  | .element, t, j => Padded f t j
  | .elements, t, js => ∃ texts, texts ≠ [] ∧ t = join texts ∧ List.Forall₂ (Padded f) texts js
  | .member, t, e => MemberRead f t e
  | .members, t, es => ∃ texts, texts ≠ [] ∧ t = join texts ∧ List.Forall₂ (MemberRead f) texts es

theorem derives_read {f : Rounding} {n : Nonterminal} {t : List Char} {m : Meaning n}
    (h : Derives (loose f) n t m) : Read f n t m := by
  induction h with
  | null => exact reads_null
  | true => exact reads_bool true
  | false => exact reads_bool false
  | number token => exact reads_number token.1 token.2
  | string quoted =>
    have quotes := quoted.quotes
    obtain ⟨body, rfl, _⟩ := quoted
    exact reads_string quotes
  | emptyArray blank => exact reads_emptyArray blank
  | array _ ih =>
    obtain ⟨texts, some, rfl, reads⟩ := ih
    exact reads_padded some reads
  | emptyObject blank => exact reads_emptyObject blank
  | object _ ih =>
    obtain ⟨texts, some, rfl, reads⟩ := ih
    exact reads_braced some reads
  | element before _ after ih => exact ⟨_, _, _, before, after, rfl, ih⟩
  | last _ ih => exact ⟨[_], List.cons_ne_nil _ _, rfl, .cons ih .nil⟩
  | more _ _ first others =>
    obtain ⟨texts, some, rfl, reads⟩ := others
    exact ⟨_ :: texts, List.cons_ne_nil _ _, (join_concat _ some).symm, .cons first reads⟩
  | member before quoted after _ ih =>
    have quotes := quoted.quotes
    obtain ⟨body, rfl, _⟩ := quoted
    exact ⟨_, _, _, _, before, after, rfl, quotes, ih⟩
  | lastMember _ ih => exact ⟨[_], List.cons_ne_nil _ _, rfl, .cons ih .nil⟩
  | moreMembers _ _ first others =>
    obtain ⟨texts, some, rfl, reads⟩ := others
    exact ⟨_ :: texts, List.cons_ne_nil _ _, (join_concat _ some).symm, .cons first reads⟩

/-- The reader takes every text of its grammar, as the value the rules build. -/
theorem parse_derives {f : Rounding} {t : List Char} {j : Json}
    (h : Derives (loose f) .element t j) : parse f t = .ok j :=
  parse_padded (derives_read h)

end Stallwatch.Json
