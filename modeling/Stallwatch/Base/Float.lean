import Mathlib.Algebra.Order.Ring.WithTop
import Mathlib.Algebra.Order.Ring.Rat
import Mathlib.Data.NNRat.Floor
import Mathlib.Data.Rat.Cast.Order
import Mathlib.Algebra.Order.Field.Basic
import Mathlib.Tactic.Common

/-! Sign and magnitude arithmetic under an arbitrary rounding.
An operation computes the exact magnitude and rounds it once. Results that do not
depend on how that is done are stated for every rounding; a statement in exact
rationals takes the rounding that changes nothing. -/
namespace Stallwatch

/-- Rounding of magnitudes, with `⊤` for overflow. Monotone, and exact on the
numbers binary64 represents. -/
structure Rounding where
  round : ℚ≥0 → WithTop ℚ≥0
  mono : Monotone round
  representable : ∀ m e : ℕ, m < 2 ^ 53 → e ≤ 971 → round (m * 2 ^ e : ℕ) = ((m * 2 ^ e : ℕ) : ℚ≥0)

namespace Rounding

/-- Every rational is kept as it is. -/
def exact : Rounding where
  round q := q
  mono _ _ h := WithTop.coe_le_coe.mpr h
  representable _ _ _ _ := rfl

variable (f : Rounding)

theorem round_nat {n : ℕ} (h : n < 2 ^ 53) : f.round (n : ℚ≥0) = (n : ℚ≥0) := by
  simpa using f.representable n 0 h (by decide)

@[simp] theorem round_zero : f.round 0 = 0 := by simpa using f.round_nat (n := 0) (by decide)

theorem round_pos {q : ℚ≥0} (h : 1 ≤ q) : 0 < f.round q := by
  have one : f.round 1 = 1 := by simpa using f.round_nat (n := 1) (by decide)
  exact lt_of_lt_of_le (by rw [one]; exact WithTop.coe_lt_coe.mpr one_pos) (f.mono h)

/- Rounding does not leave a bound that is a power of two. -/
theorem round_le {q : ℚ≥0} {e : ℕ} (he : e ≤ 971) (small : q ≤ ((2 ^ e : ℕ) : ℚ≥0)) :
    ∃ r : ℚ≥0, f.round q = r ∧ r ≤ ((2 ^ e : ℕ) : ℚ≥0) := by
  have top : f.round ((2 ^ e : ℕ) : ℚ≥0) = ((2 ^ e : ℕ) : ℚ≥0) := by
    simpa using f.representable 1 e (by decide) he
  have below := f.mono small
  rw [top] at below
  exact WithTop.le_coe_iff.mp below

theorem round_one_le {q : ℚ≥0} (large : 1 ≤ q) {r : ℚ≥0} (rounded : f.round q = r) : 1 ≤ r := by
  have one : f.round 1 = ((1 : ℚ≥0) : WithTop ℚ≥0) := by simpa using f.round_nat (n := 1) (by decide)
  have mono := f.mono large
  rw [one, rounded] at mono
  exact WithTop.coe_le_coe.mp mono

/- Every 64-bit count stays finite. -/
theorem round_u64 {n : ℕ} (h : n < 2 ^ 64) : ∃ q : ℚ≥0, f.round (n : ℚ≥0) = q := by
  obtain ⟨q, hq, _⟩ := f.round_le (e := 64) (q := n) (by decide) (by exact_mod_cast h.le)
  exact ⟨q, hq⟩

end Rounding

/-- A floating-point datum. The sign of a zero is kept. -/
inductive F64 where
  | finite (negative : Bool) (magnitude : ℚ≥0)
  | infinite (negative : Bool)
  | nan
  deriving DecidableEq

namespace F64

def isFinite : F64 → Bool
  | .finite _ _ => true
  | _ => false

def ofMagnitude (negative : Bool) : WithTop ℚ≥0 → F64
  | some q => .finite negative q
  | none => .infinite negative

@[simp] theorem ofMagnitude_coe (negative : Bool) (q : ℚ≥0) :
    ofMagnitude negative (q : WithTop ℚ≥0) = .finite negative q := rfl

@[simp] theorem ofMagnitude_top (negative : Bool) :
    ofMagnitude negative (⊤ : WithTop ℚ≥0) = .infinite negative := rfl

/-- A whole number that is written in the code. -/
def whole (n : ℕ) : F64 := .finite false n

/-- `n as f64`. -/
def ofNat (f : Rounding) (n : ℕ) : F64 := ofMagnitude false (f.round n)

/-- Opposite numbers of one magnitude add up to positive zero. -/
def add (f : Rounding) : F64 → F64 → F64
  | .finite s a, .finite t b =>
    if s = t then ofMagnitude s (f.round (a + b))
    else if a = b then .finite false 0
    else if b < a then ofMagnitude s (f.round (a - b))
    else ofMagnitude t (f.round (b - a))
  | .infinite s, .infinite t => if s = t then .infinite s else .nan
  | .infinite s, .finite _ _ => .infinite s
  | .finite _ _, .infinite t => .infinite t
  | _, _ => .nan

def neg : F64 → F64
  | .finite s a => .finite (!s) a
  | .infinite s => .infinite (!s)
  | .nan => .nan

def sub (f : Rounding) (a b : F64) : F64 := add f a b.neg

def mul (f : Rounding) : F64 → F64 → F64
  | .finite s a, .finite t b => ofMagnitude (s ^^ t) (f.round (a * b))
  | .finite s a, .infinite t => if a = 0 then .nan else .infinite (s ^^ t)
  | .infinite s, .finite t b => if b = 0 then .nan else .infinite (s ^^ t)
  | .infinite s, .infinite t => .infinite (s ^^ t)
  | _, _ => .nan

def div (f : Rounding) : F64 → F64 → F64
  | .finite s a, .finite t b =>
    if b = 0 then if a = 0 then .nan else .infinite (s ^^ t)
    else ofMagnitude (s ^^ t) (f.round (a / b))
  | .finite s _, .infinite t => .finite (s ^^ t) 0
  | .infinite s, .finite t _ => .infinite (s ^^ t)
  | _, _ => .nan

/-- `x as u64`, which rounds towards zero and stops at the bounds. -/
def asU64 : F64 → UInt64
  | .finite false q => .ofNat (min (q.num / q.den) (2 ^ 64 - 1))
  | .infinite false => .ofNat (2 ^ 64 - 1)
  | _ => 0

/-- `x as i64`, which rounds towards zero and stops at the bounds. -/
def asI64 : F64 → Int64
  | .finite false q => .ofNat (min (q.num / q.den) (2 ^ 63 - 1))
  | .finite true q => .ofInt (-(min (q.num / q.den) (2 ^ 63) : ℕ))
  | .infinite false => .maxValue
  | .infinite true => .minValue
  | .nan => 0

def abs : F64 → F64
  | .finite _ q => .finite false q
  | .infinite _ => .infinite false
  | .nan => .nan

/-- `x.fract()`; nothing is left of a whole number but positive zero. -/
def fract : F64 → F64
  | .finite s q => .finite (s && q.den != 1) (q - (q.num / q.den : ℕ))
  | _ => .nan

/-- `x.round()`: the nearest whole number, halves away from zero. -/
def round : F64 → F64
  | .finite s q => .finite s ((2 * q.num + q.den) / (2 * q.den) : ℕ)
  | x => x

/-- The place of a datum on the extended line; a NaN has none. -/
def place : F64 → Option (WithBot (WithTop ℚ))
  | .finite s a => some (((if s then -(a : ℚ) else a : ℚ) : WithTop ℚ) : WithBot (WithTop ℚ))
  | .infinite true => some ⊥
  | .infinite false => some (⊤ : WithTop ℚ)
  | .nan => none

def lt (a b : F64) : Bool :=
  match a.place, b.place with
  | some x, some y => decide (x < y)
  | _, _ => false

/-- The comparison `a >= b`, false where either is NaN. -/
def atLeast (a b : F64) : Bool :=
  match a.place, b.place with
  | some x, some y => decide (y ≤ x)
  | _, _ => false

/-- The comparison `a == b`, in which the zeros are one and a NaN is nothing. -/
def same (a b : F64) : Bool :=
  match a.place, b.place with
  | some x, some y => decide (x = y)
  | _, _ => false

/-- Comparison by `partial_cmp` with NaN taken as equal: is `a` not before `b` in
descending order? -/
def ge (a b : F64) : Bool := !a.lt b

theorem lt_ofMagnitude (p q : WithTop ℚ≥0) :
    lt (ofMagnitude false p) (ofMagnitude false q) = decide (p < q) := by
  induction p using WithTop.recTopCoe <;> induction q using WithTop.recTopCoe <;>
    simp [lt, place, WithBot.coe_lt_coe, WithTop.coe_lt_coe]
  exact WithBot.coe_lt_coe.mpr (WithTop.coe_lt_top _)

/-- Distance from zero; of no use where there is none. -/
def magnitude : F64 → ℚ≥0
  | .finite _ q => q
  | _ => 0

/-- A share of something: finite, and zero or more. -/
structure NonNegative (x : F64) : Prop where
  finite : x.isFinite = true
  above : x.atLeast (.whole 0) = true

@[simp] theorem lt_finite (p q : ℚ≥0) : lt (.finite false p) (.finite false q) = decide (p < q) := by
  rw [← ofMagnitude_coe, ← ofMagnitude_coe, lt_ofMagnitude]
  simp only [WithTop.coe_lt_coe]

@[simp] theorem atLeast_finite (p q : ℚ≥0) :
    atLeast (.finite false p) (.finite false q) = decide (q ≤ p) := by
  simp [atLeast, place, WithBot.coe_le_coe, WithTop.coe_le_coe]

theorem not_lt_of_atLeast {a b : F64} (above : a.atLeast b = true) : a.lt b = false := by
  unfold atLeast at above
  unfold lt
  split at above
  · exact decide_eq_false (not_lt.mpr (of_decide_eq_true above))
  · contradiction

/- A negative zero is the only other one. -/
theorem NonNegative.cases {x : F64} (nonNegative : x.NonNegative) :
    x = .finite false x.magnitude ∨ x = .finite true 0 := by
  obtain ⟨finite, above⟩ := nonNegative
  match x with
  | .finite false q => exact .inl rfl
  | .finite true q =>
    right
    simp only [atLeast, place, whole, ↓reduceIte, Bool.false_eq_true, WithBot.coe_le_coe,
      decide_eq_true_eq] at above
    have le := WithTop.coe_le_coe.mp above
    rw [Nat.cast_zero, NNRat.cast_zero, Left.nonneg_neg_iff] at le
    rw [show q = 0 from le_antisymm (by exact_mod_cast le) zero_le]

/-- The greater of two shares, as the code compares them. -/
theorem NonNegative.max_eq {x : F64} (nonNegative : x.NonNegative) (p : ℚ≥0) :
    (if lt (.finite false p) x then x else .finite false p) = .finite false (max p x.magnitude) := by
  rcases nonNegative.cases with plain | zero
  · rw [plain, lt_finite]
    by_cases less : p < x.magnitude
    · rw [if_pos (by simpa using less), magnitude, max_eq_right less.le]
    · rw [if_neg (by simpa using less), magnitude, max_eq_left (not_lt.mp less)]
  · have least : lt (.finite false p) (.finite true 0) = false := by
      rw [show lt (.finite false p) (.finite true 0) = lt (.finite false p) (.finite false 0) by
        simp [lt, place], lt_finite]
      exact decide_eq_false (not_lt.mpr zero_le)
    rw [zero, least, if_neg Bool.false_ne_true, magnitude, max_eq_left zero_le]

def hundred : F64 := .finite false 100

/-- `part as f64 / whole as f64 * 100.0`. -/
def percent (f : Rounding) (part whole : ℕ) : F64 :=
  mul f (div f (ofNat f part) (ofNat f whole)) hundred

/-- The magnitude `percent` arrives at. -/
def share (f : Rounding) (part whole : ℕ) : WithTop ℚ≥0 :=
  match f.round part, f.round whole with
  | some a, some b =>
    match f.round (a / b) with
    | some q => f.round (q * 100)
    | none => ⊤
  | _, _ => ⊤

theorem percent_eq (f : Rounding) {part whole : ℕ} (hp : part < 2 ^ 64) (hw : whole < 2 ^ 64)
    (pos : 0 < whole) : percent f part whole = ofMagnitude false (share f part whole) := by
  obtain ⟨a, ha⟩ := f.round_u64 hp
  obtain ⟨b, hb⟩ := f.round_u64 hw
  have nonzero : b ≠ 0 := by
    have h := f.round_pos (q := whole) (by exact_mod_cast pos)
    rw [hb] at h
    exact (WithTop.coe_lt_coe.mp h).ne'
  have sharing : share f part whole =
      (match f.round (a / b) with
        | some q => f.round (q * 100)
        | none => ⊤) := by
    simp only [share, ha, hb]
  have dividing : div f (ofNat f part) (ofNat f whole) = ofMagnitude false (f.round (a / b)) := by
    simp [div, ofNat, ha, hb, nonzero]
  rw [percent, sharing, dividing]
  cases f.round (a / b) with
  | top => simp [mul, hundred]
  | coe q => simp [mul, hundred]

/- Whole multiples of the window are exact under every rounding. -/
theorem percent_mul (f : Rounding) {k w : ℕ} (pos : 0 < w) (hw : w < 2 ^ 53)
    (hp : k * w < 2 ^ 53) (hk : k * 100 < 2 ^ 53) :
    percent f (k * w) w = .finite false ((k * 100 : ℕ) : ℚ≥0) := by
  have nonzero : (w : ℚ≥0) ≠ 0 := Nat.cast_ne_zero.mpr pos.ne'
  have quotient : ((k * w : ℕ) : ℚ≥0) / (w : ℚ≥0) = (k : ℚ≥0) := by
    rw [Nat.cast_mul, mul_div_cancel_right₀ _ nonzero]
  have product : (k : ℚ≥0) * 100 = ((k * 100 : ℕ) : ℚ≥0) := by push_cast; rfl
  simp only [percent, ofNat, f.round_nat hp, f.round_nat hw, ofMagnitude_coe, div, if_neg nonzero,
    quotient, f.round_nat (show k < 2 ^ 53 by omega), mul, hundred, product, f.round_nat hk, Bool.xor_false]

@[simp] theorem share_exact (part whole : ℕ) :
    share .exact part whole = ((part / whole * 100 : ℚ≥0) : WithTop ℚ≥0) := rfl

/- A part that fits into the whole is at most one hundred percent of it. -/
theorem share_le (f : Rounding) {part whole : ℕ} (hw : whole < 2 ^ 64) (le : part ≤ whole) :
    share f part whole ≤ ((100 : ℚ≥0) : WithTop ℚ≥0) := by
  obtain ⟨a, ha⟩ := f.round_u64 (le.trans_lt hw)
  obtain ⟨b, hb⟩ := f.round_u64 hw
  have part_le : a ≤ b := by
    have mono := f.mono (show (part : ℚ≥0) ≤ whole by exact_mod_cast le)
    rw [ha, hb] at mono
    exact WithTop.coe_le_coe.mp mono
  have quotient : f.round (a / b) ≤ ((1 : ℚ≥0) : WithTop ℚ≥0) := by
    have mono := f.mono (div_le_one_of_le₀ part_le zero_le)
    rwa [show f.round 1 = ((1 : ℚ≥0) : WithTop ℚ≥0) by simpa using f.round_nat (n := 1) (by decide)]
      at mono
  obtain ⟨q, hq, small⟩ := WithTop.le_coe_iff.mp quotient
  have mono := f.mono (show q * 100 ≤ (100 : ℕ) by simpa using mul_le_mul_left small 100)
  rw [f.round_nat (n := 100) (by decide)] at mono
  simpa only [share, ha, hb, hq, Nat.cast_ofNat] using mono

/- A share of a window that is not empty is a number. -/
theorem percent_finite (f : Rounding) {part whole : ℕ} (hp : part < 2 ^ 64) (hw : whole < 2 ^ 64)
    (pos : 0 < whole) : (percent f part whole).isFinite = true := by
  obtain ⟨a, ha, part_le⟩ := f.round_le (e := 64) (q := part) (by decide) (by exact_mod_cast hp.le)
  obtain ⟨b, hb, _⟩ := f.round_le (e := 64) (q := whole) (by decide) (by exact_mod_cast hw.le)
  have one_le := f.round_one_le (by exact_mod_cast pos) hb
  have quotient_le : a / b ≤ ((2 ^ 64 : ℕ) : ℚ≥0) := (div_le_self zero_le one_le).trans part_le
  obtain ⟨q, hq, small⟩ := f.round_le (by decide) quotient_le
  have product_le : q * 100 ≤ ((2 ^ 71 : ℕ) : ℚ≥0) := by
    calc q * 100 ≤ ((2 ^ 64 : ℕ) : ℚ≥0) * 100 := mul_le_mul_left small 100
      _ ≤ ((2 ^ 71 : ℕ) : ℚ≥0) := by norm_num
  obtain ⟨r, hr, _⟩ := f.round_le (by decide) product_le
  rw [percent_eq f hp hw pos]
  simp only [share, ha, hb, hq, hr]
  rfl

end F64

end Stallwatch
