import Mathlib.Algebra.Group.Nat.Defs
import Mathlib.Data.List.Basic
import Mathlib.Tactic.Common

/-! The string operations of the source's standard library, on lists of characters. -/
namespace Stallwatch.Text

/-- The characters of the White_Space property. -/
def isWhitespace (c : Char) : Bool :=
  let n := c.toNat
  (0x09 ≤ n && n ≤ 0x0D) || n == 0x20 || n == 0x85 || n == 0xA0 || n == 0x1680 ||
    (0x2000 ≤ n && n ≤ 0x200A) || n == 0x2028 || n == 0x2029 || n == 0x202F || n == 0x205F ||
    n == 0x3000

def trimStartMatches (p : Char → Bool) (cs : List Char) : List Char := cs.dropWhile p

def trimEndMatches (p : Char → Bool) (cs : List Char) : List Char :=
  (cs.reverse.dropWhile p).reverse

def trim (cs : List Char) : List Char := trimEndMatches isWhitespace (trimStartMatches isWhitespace cs)

def trimMatches (p : Char → Bool) (cs : List Char) : List Char :=
  trimEndMatches p (trimStartMatches p cs)

def splitWhitespace (cs : List Char) : List (List Char) :=
  (cs.splitOnP isWhitespace).filter (· ≠ [])

def stripPrefix (pre cs : List Char) : Option (List Char) :=
  if pre.isPrefixOf cs then some (cs.drop pre.length) else none

def stripSuffix (suf cs : List Char) : Option (List Char) :=
  if suf.isSuffixOf cs then some (cs.take (cs.length - suf.length)) else none

/-- The text without the copies of `suf` at its end. -/
def trimEndText (suf : List Char) (cs : List Char) : List Char :=
  if _shorter : suf ≠ [] ∧ suf.isSuffixOf cs = true ∧ 0 < cs.length then
    trimEndText suf (cs.take (cs.length - suf.length))
  else cs
termination_by cs.length
decreasing_by
  have pos := List.length_pos_iff.mpr _shorter.1
  rw [List.length_take]
  omega

/-- Both sides of the first `c`. -/
def splitOnce (c : Char) (cs : List Char) : Option (List Char × List Char) :=
  match cs.dropWhile (· ≠ c) with
  | [] => none
  | _ :: after => some (cs.takeWhile (· ≠ c), after)

/-- Both sides of the last `c`. -/
def rsplitOnce (c : Char) (cs : List Char) : Option (List Char × List Char) :=
  match cs.reverse.dropWhile (· ≠ c) with
  | [] => none
  | _ :: before => some (before.reverse, (cs.reverse.takeWhile (· ≠ c)).reverse)

/-- Terminated by `\n` or `\r\n`; an empty rest after the last newline is no line. -/
def lines (cs : List Char) : List (List Char) :=
  let parts := cs.splitOn '\n'
  parts.dropLast.map (fun line => (stripSuffix ['\r'] line).getD line) ++
    (parts.getLast?.filter (· ≠ [])).toList

def asciiLower (cs : List Char) : List Char := cs.map Char.toLower

def eqIgnoreAsciiCase (as bs : List Char) : Bool := asciiLower as == asciiLower bs

def stripPlus : List Char → List Char
  | '+' :: rest => rest
  | cs => cs

/-- An unsigned decimal below `2 ^ bits`, with an optional plus sign. -/
def parseUnsigned (bits : Nat) (cs : List Char) : Option Nat :=
  let digits := stripPlus cs
  let n := Nat.ofDigitChars 10 digits 0
  if digits ≠ [] ∧ digits.all Char.isDigit = true ∧ n < 2 ^ bits then some n else none

/-- A signed decimal of 64 bits. -/
def parseInt64 (cs : List Char) : Option Int64 :=
  let (negative, digits) := match cs with
    | '-' :: rest => (true, rest)
    | _ => (false, stripPlus cs)
  let n := Nat.ofDigitChars 10 digits 0
  if digits ≠ [] ∧ digits.all Char.isDigit = true ∧ n < 2 ^ 63 + negative.toNat then
    some (Int64.ofInt (if negative then -n else n))
  else none

def hexDigit (c : Char) : Option Nat :=
  let n := c.toNat
  if c.isDigit then some (n - 48)
  else if 97 ≤ n ∧ n ≤ 102 then some (n - 87)
  else if 65 ≤ n ∧ n ≤ 70 then some (n - 55)
  else none

/-- `from_str_radix(_, 16)`, which takes a plus sign too. -/
def parseHex (bits : Nat) (cs : List Char) : Option Nat :=
  match (stripPlus cs).mapM hexDigit with
  | none | some [] => none
  | some digits =>
    let n := digits.foldl (fun n d => 16 * n + d) 0
    if n < 2 ^ bits then some n else none

/- Induction over the pieces between the copies of `c`. -/
theorem split_induct {α : Type*} [DecidableEq α] {motive : List α → Prop} (c : α)
    (whole : ∀ s, c ∉ s → motive s)
    (cut : ∀ as bs, c ∉ as → motive as → motive bs → motive (as ++ c :: bs)) (s : List α) :
    motive s := by
  induction h : s.length using Nat.strongRecOn generalizing s with
  | ind n ih =>
    subst h
    by_cases member : c ∈ s
    · obtain ⟨as, bs, rfl, first⟩ := List.eq_append_cons_of_mem member
      exact cut as bs first (whole as first) (ih bs.length (by simp; omega) bs rfl)
    · exact whole s member

theorem length_splitOn {α : Type*} [DecidableEq α] (c : α) (s : List α) :
    (s.splitOn c).length = s.count c + 1 := by
  induction s using split_induct c with
  | whole s none =>
    rw [List.splitOn_eq_singleton none, List.count_eq_zero.mpr none]
    rfl
  | cut as bs first _ ih =>
    rw [List.splitOn_append_cons_self_of_not_mem first, List.length_cons, ih, List.count_append,
      List.count_eq_zero.mpr first, List.count_cons_self]
    omega

theorem digit_ascii {c : Char} (digit : c.isDigit = true) : c.toNat < 0x80 := by
  have nine : c.toNat ≤ 57 := by
    simp only [Char.isDigit, Bool.and_eq_true, decide_eq_true_eq, UInt32.le_iff_toNat_le] at digit
    exact digit.2
  omega

theorem hexDigit_range {c : Char} {n : ℕ} (digit : hexDigit c = some n) :
    48 ≤ c.toNat ∧ c.toNat ≤ 70 ∨ 97 ≤ c.toNat ∧ c.toNat ≤ 102 := by
  unfold hexDigit at digit
  dsimp only at digit
  split at digit
  · rename_i decimal
    simp only [Char.isDigit, Bool.and_eq_true, decide_eq_true_eq, UInt32.le_iff_toNat_le] at decimal
    exact .inl ⟨decimal.1, Nat.le_trans decimal.2 (by decide)⟩
  split at digit
  · omega
  split at digit
  · omega
  · contradiction

theorem hexDigit_ascii {c : Char} {n : ℕ} (digit : hexDigit c = some n) : c.toNat < 0x80 := by
  have range := hexDigit_range digit
  omega

theorem mapM_ascii {cs : List Char} {ns : List ℕ} (digits : cs.mapM hexDigit = some ns) :
    ∀ c ∈ cs, c.toNat < 0x80 := by
  induction cs generalizing ns with
  | nil => simp
  | cons c cs ih =>
    rw [List.mapM_cons, Option.bind_eq_bind, Option.bind_eq_some_iff] at digits
    obtain ⟨d, first, rest⟩ := digits
    obtain ⟨ds, others, _⟩ := Option.bind_eq_some_iff.mp rest
    exact List.forall_mem_cons.mpr ⟨hexDigit_ascii first, ih others⟩

theorem parseHex_digits {bits n : ℕ} {cs : List Char} (parsed : parseHex bits cs = some n) :
    ∃ d ds, (stripPlus cs).mapM hexDigit = some (d :: ds) := by
  unfold parseHex at parsed
  split at parsed
  · contradiction
  · contradiction
  · rename_i digits some read
    obtain ⟨d, ds, rfl⟩ := List.exists_cons_of_ne_nil some
    exact ⟨d, ds, read⟩

theorem parseHex_ascii {bits n : ℕ} {cs : List Char} (parsed : parseHex bits cs = some n) :
    ∀ c ∈ cs, c.toNat < 0x80 := by
  obtain ⟨d, ds, digits⟩ := parseHex_digits parsed
  have ascii := mapM_ascii digits
  unfold stripPlus at ascii
  split at ascii
  · exact List.forall_mem_cons.mpr ⟨by decide, ascii⟩
  · exact ascii

/-- The text of a natural number. -/
def decimal (n : Nat) : List Char := Nat.toDigits 10 n

theorem decimal_isDigit {n : Nat} {c : Char} (h : c ∈ decimal n) : c.isDigit = true :=
  Nat.isDigit_of_mem_toDigits (by decide) (by decide) h

theorem decimal_all (n : Nat) : (decimal n).all Char.isDigit = true :=
  List.all_eq_true.mpr fun _ h => decimal_isDigit h

theorem decimal_ne_nil (n : Nat) : decimal n ≠ [] := Nat.toDigits_ne_nil

theorem decimal_value (n : Nat) : Nat.ofDigitChars 10 (decimal n) 0 = n :=
  Nat.ofDigitChars_ten_toDigits

theorem decimal_cons (n : Nat) : ∃ c cs, decimal n = c :: cs ∧ c.isDigit = true := by
  cases h : decimal n with
  | nil => exact absurd h (decimal_ne_nil n)
  | cons c cs => exact ⟨c, cs, rfl, decimal_isDigit (by rw [h]; exact List.mem_cons_self)⟩

theorem digitChar_lead : ∀ n < 10, n ≠ 0 → n.digitChar ≠ '0' := by decide

/- Only zero is written with a zero in front. -/
theorem decimal_lead {n : Nat} (pos : n ≠ 0) : ∃ c cs, decimal n = c :: cs ∧ c ≠ '0' := by
  induction n using Nat.strongRecOn with
  | ind n ih =>
    rw [decimal, Nat.toDigits_eq_if (by decide)]
    split
    · rename_i small
      exact ⟨_, [], rfl, digitChar_lead n small pos⟩
    · rename_i large
      obtain ⟨c, cs, digits, lead⟩ := ih (n / 10) (by omega) (by omega)
      rw [decimal] at digits
      rw [digits]
      exact ⟨c, _, rfl, lead⟩

theorem stripPlus_digits {cs : List Char} (digits : cs.all Char.isDigit = true) :
    stripPlus cs = cs := by
  unfold stripPlus
  split
  · simp at digits
  · rfl

theorem parseUnsigned_decimal (bits n : Nat) (h : n < 2 ^ bits) :
    parseUnsigned bits (decimal n) = some n := by
  have value := decimal_value n
  simp only [parseUnsigned, stripPlus_digits (decimal_all n), decimal_all, value, ne_eq,
    decimal_ne_nil, not_false_eq_true, h, and_self, if_true]

theorem stripSuffix_eq_none {suf cs : List Char} (h : ¬ suf <:+ cs) : stripSuffix suf cs = none := by
  simp [stripSuffix, h]

theorem splitOnce_first {c : Char} {key : List Char} (first : c ∉ key) (value : List Char) :
    splitOnce c (key ++ c :: value) = some (key, value) := by
  have others : ∀ a ∈ key, decide (a ≠ c) = true := fun a member =>
    decide_eq_true fun same => first (same ▸ member)
  rw [splitOnce, List.dropWhile_append_of_pos others, List.takeWhile_append_of_pos others]
  simp

theorem splitOnce_none {c : Char} {cs : List Char} (none : c ∉ cs) : splitOnce c cs = .none := by
  have others : ∀ a ∈ cs, decide (a ≠ c) = true := fun a member =>
    decide_eq_true fun same => none (same ▸ member)
  have all : (cs ++ []).dropWhile (· ≠ c) = [] := List.dropWhile_append_of_pos others
  rw [List.append_nil] at all
  rw [splitOnce, all]

theorem rsplitOnce_last {c : Char} (as : List Char) {bs : List Char} (last : c ∉ bs) :
    rsplitOnce c (as ++ c :: bs) = some (as, bs) := by
  have others : ∀ b ∈ bs.reverse, decide (b ≠ c) = true := fun b member =>
    decide_eq_true fun same => last (same ▸ List.mem_reverse.mp member)
  have turned : (as ++ c :: bs).reverse = bs.reverse ++ c :: as.reverse := by simp
  rw [rsplitOnce, turned, List.dropWhile_append_of_pos others, List.takeWhile_append_of_pos others]
  simp

theorem lines_cons (line rest : List Char) (clean : '\n' ∉ line)
    (ends : line.getLast? ≠ some '\r') : lines (line ++ '\n' :: rest) = line :: lines rest := by
  have kept : stripSuffix ['\r'] line = none := by
    apply stripSuffix_eq_none
    rintro ⟨before, rfl⟩
    exact ends (by simp)
  obtain ⟨part, parts, split⟩ := List.exists_cons_of_ne_nil (List.splitOn_ne_nil '\n' rest)
  simp only [lines, List.splitOn_append_cons_self_of_not_mem clean, split]
  simp [kept]

/- Lines written one after another are the lines read back. -/
theorem lines_write (ls : List (List Char)) (clean : ∀ l ∈ ls, '\n' ∉ l)
    (ends : ∀ l ∈ ls, l.getLast? ≠ some '\r') :
    lines (ls.flatMap fun l => l ++ ['\n']) = ls := by
  induction ls with
  | nil => rfl
  | cons l ls ih =>
    have rest := ih (fun x h => clean x (by simp [h])) (fun x h => ends x (by simp [h]))
    have first := lines_cons l (ls.flatMap fun l => l ++ ['\n']) (clean l (by simp))
      (ends l (by simp))
    simpa [rest] using first

end Stallwatch.Text
