import Stallwatch.Base.Float
import Mathlib.Data.UInt

/-! Spans of time: whole seconds and less than a second more. -/
namespace Stallwatch

structure Duration where
  secs : UInt64
  nanos : ℕ
  below : nanos < 10 ^ 9
  deriving DecidableEq

namespace Duration

def fromSecs (secs : UInt64) : Duration := ⟨secs, 0, by decide⟩

def fromMicros (usec : UInt64) : Duration :=
  ⟨usec / 1000000, usec.toNat % 1000000 * 1000, by omega⟩

def asSecs (d : Duration) : UInt64 := d.secs

def asNanos (d : Duration) : ℕ := d.secs.toNat * 10 ^ 9 + d.nanos

def asSecsF64 (f : Rounding) (d : Duration) : F64 :=
  F64.add f (F64.ofNat f d.secs.toNat) (F64.div f (F64.ofNat f d.nanos) (.whole 1000000000))

def lt (a b : Duration) : Bool := a.secs < b.secs || (a.secs = b.secs && a.nanos < b.nanos)

theorem lt_iff (a b : Duration) : a.lt b = true ↔ a.asNanos < b.asNanos := by
  have left := a.below
  have right := b.below
  simp only [lt, asNanos, Bool.or_eq_true, Bool.and_eq_true, decide_eq_true_eq,
    UInt64.lt_iff_toNat_lt, ← UInt64.toNat_inj]
  omega

def min (a b : Duration) : Duration := if b.lt a then b else a

def max (a b : Duration) : Duration := if b.lt a then a else b

/-- `d.clamp(low, high)`, for bounds that are in order. -/
def clamp (d low high : Duration) : Duration := if d.lt low then low else if high.lt d then high else d

/-- `d / 2`. -/
def half (d : Duration) : Duration :=
  ⟨d.secs / 2, d.nanos / 2 + (d.secs.toNat % 2 * 10 ^ 9 + d.nanos % 2) / 2, by have below := d.below; omega⟩

/-- `d.as_micros() as u64`. -/
def asMicros (d : Duration) : UInt64 := .ofNat (d.secs.toNat * 10 ^ 6 + d.nanos / 1000)

@[simp] theorem asNanos_fromMicros (usec : UInt64) : (fromMicros usec).asNanos = 1000 * usec.toNat := by
  simp only [asNanos, fromMicros, UInt64.toNat_div, UInt64.reduceToNat]
  omega

theorem asNanos_min (a b : Duration) : (a.min b).asNanos = a.asNanos ⊓ b.asNanos := by
  unfold min
  split
  · rename_i less
    exact (inf_eq_right.mpr ((lt_iff _ _).mp less).le).symm
  · rename_i less
    exact (inf_eq_left.mpr (not_lt.mp (mt (lt_iff _ _).mpr less))).symm

theorem asNanos_max (a b : Duration) : (a.max b).asNanos = a.asNanos ⊔ b.asNanos := by
  unfold max
  split
  · rename_i less
    exact (sup_eq_left.mpr ((lt_iff _ _).mp less).le).symm
  · rename_i less
    exact (sup_eq_right.mpr (not_lt.mp (mt (lt_iff _ _).mpr less))).symm

theorem asNanos_clamp (d : Duration) {low high : Duration} (order : low.asNanos ≤ high.asNanos) :
    (d.clamp low high).asNanos = low.asNanos ⊔ d.asNanos ⊓ high.asNanos := by
  simp only [clamp, lt_iff]
  split
  · omega
  split
  · omega
  · omega

theorem asNanos_half (d : Duration) : d.half.asNanos = d.asNanos / 2 := by
  simp only [half, asNanos, UInt64.toNat_div, UInt64.reduceToNat]
  omega

theorem toNat_asMicros {d : Duration} (fits : d.asNanos < 2 ^ 64 * 1000) :
    d.asMicros.toNat = d.asNanos / 1000 := by
  have same : d.secs.toNat * 10 ^ 6 + d.nanos / 1000 = d.asNanos / 1000 := by
    rw [asNanos]
    omega
  rw [asMicros, same]
  exact UInt64.toNat_ofNat_of_lt' (by rw [UInt64.size]; omega)

end Duration

end Stallwatch
