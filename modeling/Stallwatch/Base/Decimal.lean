import Mathlib.Data.NNRat.Defs
import Mathlib.Data.List.TakeWhile
import Stallwatch.Base.Float
import Stallwatch.Base.Text

/-! Floating-point numbers as decimal text, read and written.
Reading computes the exact decimal value and rounds it once. Writing with a fixed
number of places rounds the exact value half to even. -/
namespace Stallwatch.F64

open Text

/-- An optional sign. -/
def sign : List Char → Bool × List Char
  | '-' :: rest => (true, rest)
  | '+' :: rest => (false, rest)
  | cs => (false, cs)

def scale (n : ℕ) : ℤ → ℚ≥0
  | .ofNat e => n * 10 ^ e
  | .negSucc e => n / 10 ^ (e + 1)

/-- What follows the mantissa: nothing, or an exponent with at least one digit. -/
def exponent : List Char → Option ℤ
  | [] => some 0
  | c :: rest =>
    let (negative, digits) := sign rest
    if (c = 'e' ∨ c = 'E') ∧ digits ≠ [] ∧ digits.all Char.isDigit = true then
      let n : ℕ := Nat.ofDigitChars 10 digits 0
      some (if negative then -(n : ℤ) else n)
    else none

/-- The digits on both sides of an optional point, and the rest. -/
def mantissa (cs : List Char) : List Char × List Char × List Char :=
  let int := cs.takeWhile Char.isDigit
  match cs.dropWhile Char.isDigit with
  | '.' :: rest => (int, rest.takeWhile Char.isDigit, rest.dropWhile Char.isDigit)
  | rest => (int, [], rest)

def parseNumber (f : Rounding) (negative : Bool) (cs : List Char) : Option F64 :=
  let (int, frac, rest) := mantissa cs
  if int = [] ∧ frac = [] then none
  else (exponent rest).map fun e =>
    ofMagnitude negative (f.round (scale (Nat.ofDigitChars 10 (int ++ frac) 0) (e - frac.length)))

/-- `str::parse::<f64>`. -/
def parse (f : Rounding) (cs : List Char) : Option F64 :=
  let (negative, rest) := sign cs
  if eqIgnoreAsciiCase rest ['i', 'n', 'f'] ∨
      eqIgnoreAsciiCase rest ['i', 'n', 'f', 'i', 'n', 'i', 't', 'y'] then some (.infinite negative)
  else if eqIgnoreAsciiCase rest ['n', 'a', 'n'] then some .nan
  else parseNumber f negative rest

theorem sign_digit {c : Char} (cs : List Char) (digit : c.isDigit = true) :
    sign (c :: cs) = (false, c :: cs) := by
  unfold sign
  split
  · rename_i h; rw [(List.cons.inj h).1] at digit; exact absurd digit (by decide)
  · rename_i h; rw [(List.cons.inj h).1] at digit; exact absurd digit (by decide)
  · rfl

theorem toLower_digit {c : Char} (digit : c.isDigit = true) : c.toLower = c := by
  have high : ¬ (c.val ≥ 'A'.val ∧ c.val ≤ 'Z'.val) := by
    have zero : '0'.val.toNat = 48 := rfl
    have nine : '9'.val.toNat = 57 := rfl
    have upper : 'A'.val.toNat = 65 := rfl
    simp only [Char.isDigit, Bool.and_eq_true, decide_eq_true_eq, ge_iff_le,
      UInt32.le_iff_toNat_le] at digit ⊢
    omega
  exact dif_neg high

theorem word_digit {c w : Char} (cs ws : List Char) (digit : c.isDigit = true)
    (letter : w.toLower.isDigit = false) : eqIgnoreAsciiCase (c :: cs) (w :: ws) = false := by
  simp only [eqIgnoreAsciiCase, asciiLower, List.map_cons, toLower_digit digit, beq_eq_false_iff_ne]
  intro h
  rw [(List.cons.inj h).1, letter] at digit
  contradiction

/- A digit after the sign makes it a number. -/
theorem parse_digit (f : Rounding) {c : Char} (cs : List Char) (digit : c.isDigit = true) :
    parse f (c :: cs) = parseNumber f false (c :: cs) ∧
      parse f ('-' :: c :: cs) = parseNumber f true (c :: cs) := by
  have words := fun w ws (letter : Char.isDigit (Char.toLower w) = false) =>
    word_digit cs ws digit letter
  constructor
  · simp [parse, sign_digit cs digit, words 'i' _ rfl, words 'n' _ rfl]
  · simp [parse, sign, words 'i' _ rfl, words 'n' _ rfl]

theorem mantissa_point {int frac : List Char} (hi : int.all Char.isDigit = true)
    (hf : frac.all Char.isDigit = true) : mantissa (int ++ '.' :: frac) = (int, frac, []) := by
  have digits := List.all_eq_true.mp hi
  have places := List.all_eq_true.mp hf
  have point : ('.' : Char).isDigit = false := rfl
  simp only [mantissa, List.takeWhile_append_of_pos digits, List.dropWhile_append_of_pos digits,
    List.takeWhile_cons, List.dropWhile_cons, point, Bool.false_eq_true, if_false,
    List.append_nil]
  rw [List.takeWhile_eq_self_iff.mpr places, List.dropWhile_eq_nil_iff.mpr places]

theorem mantissa_int {int : List Char} (hi : int.all Char.isDigit = true) :
    mantissa int = (int, [], []) := by
  have digits := List.all_eq_true.mp hi
  simp only [mantissa, List.dropWhile_eq_nil_iff.mpr digits, List.takeWhile_eq_self_iff.mpr digits]

theorem parse_decimal (f : Rounding) (n : ℕ) :
    parse f (decimal n) = some (ofMagnitude false (f.round n)) := by
  obtain ⟨c, cs, hd, digit⟩ := decimal_cons n
  have number : parse f (decimal n) = parseNumber f false (decimal n) := by
    rw [hd]; exact (parse_digit f cs digit).1
  rw [number, parseNumber, mantissa_int (decimal_all n)]
  simp [decimal_ne_nil, exponent, scale, decimal_value]

/-- Half to even. -/
def roundHalfEven (q : ℚ≥0) : ℕ :=
  let n := q.num / q.den
  let r := q.num % q.den
  if 2 * r < q.den then n else if q.den < 2 * r then n + 1 else if n % 2 = 0 then n else n + 1

/-- The digits of `n` with zeros in front up to `width`. -/
def padded (width n : ℕ) : List Char :=
  List.replicate (width - (decimal n).length) '0' ++ decimal n

def places (digits n : ℕ) : List Char :=
  if digits = 0 then [] else '.' :: padded digits (n % 10 ^ digits)

/-- `format!("{:.digits$}", x)`. -/
def format (digits : ℕ) : F64 → List Char
  | .nan => ['N', 'a', 'N']
  | .infinite negative => (if negative then ['-'] else []) ++ ['i', 'n', 'f']
  | .finite negative q =>
    let n := roundHalfEven (q * 10 ^ digits)
    (if negative then ['-'] else []) ++ decimal (n / 10 ^ digits) ++ places digits n

/-- A finite number as it reads back after `format digits`. -/
def recorded (f : Rounding) (digits : ℕ) : F64 → F64
  | .finite negative q =>
    ofMagnitude negative (f.round (roundHalfEven (q * 10 ^ digits) / 10 ^ digits))
  | x => x

theorem padded_all (width n : ℕ) : (padded width n).all Char.isDigit = true := by
  have zeros : ∀ c ∈ List.replicate (width - (decimal n).length) '0', c.isDigit = true := by
    intro c h
    rw [List.eq_of_mem_replicate h]
    rfl
  rw [padded, List.all_append, List.all_eq_true.mpr zeros, decimal_all]
  rfl

/-- The characters that numbers are written with. -/
def written (c : Char) : Bool := c.isDigit || ['-', '.', 'N', 'a', 'i', 'n', 'f'].contains c

theorem written_digits {cs : List Char} (digits : cs.all Char.isDigit = true) : cs.all written = true :=
  List.all_eq_true.mpr fun c member => by simp [written, List.all_eq_true.mp digits c member]

theorem format_written (digits : ℕ) (x : F64) : (format digits x).all written = true := by
  cases x with
  | nan => rfl
  | infinite negative => cases negative <;> rfl
  | finite negative q =>
    have sign : (if negative then ['-'] else []).all written = true := by cases negative <;> rfl
    have places : ∀ n, (places digits n).all written = true := by
      intro n
      unfold F64.places
      split
      · rfl
      · rw [List.all_cons, written_digits (padded_all _ _)]
        rfl
    simp only [format, List.all_append, sign, written_digits (decimal_all _), places, Bool.and_self]

theorem format_ne_nil (digits : ℕ) (x : F64) : format digits x ≠ [] := by
  cases x with
  | nan => exact List.cons_ne_nil _ _
  | infinite negative => exact List.append_ne_nil_of_right_ne_nil _ (List.cons_ne_nil _ _)
  | finite negative q =>
    exact List.append_ne_nil_of_left_ne_nil
      (List.append_ne_nil_of_right_ne_nil _ (decimal_ne_nil _)) _

theorem padded_length {width n : ℕ} (pos : 0 < width) (h : n < 10 ^ width) :
    (padded width n).length = width := by
  have fits : (decimal n).length ≤ width :=
    (Nat.length_toDigits_le_iff (by decide) pos).mpr h
  simp only [padded, List.length_append, List.length_replicate]
  omega

theorem padded_value (width n a : ℕ) :
    Nat.ofDigitChars 10 (padded width n) a = 10 ^ (padded width n).length * a + n := by
  have value := decimal_value n
  rw [@Nat.ofDigitChars_eq_ofDigitChars_zero (padded width n) a]
  congr 1
  rw [padded, Nat.ofDigitChars_append, Nat.ofDigitChars_replicate_zero, Nat.mul_zero, value]

/- The written digits are those of the rounded multiple of ten to the number of places. -/
theorem parseNumber_places (f : Rounding) (negative : Bool) (digits n : ℕ) :
    parseNumber f negative (decimal (n / 10 ^ digits) ++ places digits n) =
      some (ofMagnitude negative (f.round (n / 10 ^ digits))) := by
  unfold places
  split
  · rename_i none
    subst none
    rw [List.append_nil, parseNumber, mantissa_int (decimal_all _)]
    simp [decimal_ne_nil, exponent, scale, decimal_value]
  · rename_i some
    obtain ⟨d, rfl⟩ := Nat.exists_eq_succ_of_ne_zero some
    have length := padded_length (Nat.succ_pos d) (Nat.mod_lt n (Nat.pos_of_ne_zero
      (pow_ne_zero (d + 1) (by decide : (10 : ℕ) ≠ 0))))
    have value := padded_value (d + 1) (n % 10 ^ (d + 1)) (n / 10 ^ (d + 1))
    rw [length, Nat.div_add_mod] at value
    rw [parseNumber, mantissa_point (decimal_all _) (padded_all _ _)]
    simp only [decimal_ne_nil, false_and, if_false, exponent, Option.map_some, length,
      Nat.ofDigitChars_append, decimal_value, value]
    rfl

theorem parse_format (f : Rounding) (digits : ℕ) {x : F64} (finite : x.isFinite = true) :
    parse f (format digits x) = some (recorded f digits x) := by
  cases x with
  | nan => contradiction
  | infinite negative => contradiction
  | finite negative q =>
    simp only [format, recorded]
    have number := parseNumber_places f negative digits (roundHalfEven (q * 10 ^ digits))
    obtain ⟨c, cs, hd, digit⟩ := decimal_cons (roundHalfEven (q * 10 ^ digits) / 10 ^ digits)
    rw [hd] at number ⊢
    cases negative with
    | false => exact (parse_digit f _ digit).1.trans number
    | true => exact (parse_digit f _ digit).2.trans number

end Stallwatch.F64
