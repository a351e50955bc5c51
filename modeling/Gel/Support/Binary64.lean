import Mathlib.Algebra.Order.Group.Nat
import Mathlib.Algebra.Ring.Nat

/-!
# Binary64 — double precision numbers by their bits

A finite number is a sign and a magnitude, which is a multiple of `2 ^ -1074`.  `toUInt64?` is the
conversion to an unsigned word: it drops the fraction, and has no result for what is not finite or
does not fit.

* `toUInt64?_eq_zero_iff`: what is converted to zero.
* `isSome_toUInt64?_iff`: what is converted at all.
-/

namespace Binary64

/-- The biased exponent. -/
def exponent (b : UInt64) : Nat := b.toNat / 2 ^ 52 % 2 ^ 11

/-- The bits of the significand behind the point. -/
def fraction (b : UInt64) : Nat := b.toNat % 2 ^ 52

def isNegative (b : UInt64) : Bool := 2 ^ 63 ≤ b.toNat

/-- Neither an infinity nor a NaN. -/
def IsFinite (b : UInt64) : Prop := exponent b ≠ 2047

instance (b : UInt64) : Decidable (IsFinite b) := inferInstanceAs (Decidable (_ ≠ _))

/-- The magnitude of a finite number in units of `2 ^ -1074`; an exponent of zero is that of the
subnormal numbers. -/
def magnitude (b : UInt64) : Nat :=
  if exponent b = 0 then fraction b else (2 ^ 52 + fraction b) * 2 ^ (exponent b - 1)

/-- The number of units in one. -/
def one : Nat := 2 ^ 1074

theorem one_pos : 0 < one := Nat.pow_pos (Nat.succ_pos 1)

/-- The magnitude is less than `n`. -/
def Below (b : UInt64) (n : Nat) : Prop := magnitude b < n * one

instance (b : UInt64) (n : Nat) : Decidable (Below b n) := inferInstanceAs (Decidable (_ < _))

/-- The magnitude without its fraction. -/
def truncate (b : UInt64) : Nat := magnitude b / one

theorem truncate_lt_iff {b : UInt64} {n : Nat} : truncate b < n ↔ Below b n :=
  Nat.div_lt_iff_lt_mul one_pos

theorem truncate_eq_zero_iff {b : UInt64} : truncate b = 0 ↔ Below b 1 := by
  rw [← truncate_lt_iff, Nat.lt_one_iff]

/-- The conversion to an unsigned word. -/
def toUInt64? (b : UInt64) : Option UInt64 :=
  if exponent b = 2047 then none
  else if truncate b = 0 then some 0
  else if isNegative b then none
  else if truncate b < 2 ^ 64 then some (.ofNat (truncate b))
  else none

/-- What is converted: less than one in magnitude, or positive and less than `2 ^ 64`. -/
theorem isSome_toUInt64?_iff {b : UInt64} : (toUInt64? b).isSome = true ↔
    IsFinite b ∧ (Below b 1 ∨ isNegative b = false ∧ Below b (2 ^ 64)) := by
  rw [← truncate_eq_zero_iff, ← truncate_lt_iff, toUInt64?, IsFinite]
  by_cases he : exponent b = 2047
  · simp [he]
  by_cases ht : truncate b = 0
  · simp [he, ht]
  by_cases hn : isNegative b = true
  · simp [he, ht, hn]
  simp [he, ht, hn]

/-- What is converted to zero: less than one in magnitude. -/
theorem toUInt64?_eq_zero_iff {b : UInt64} : toUInt64? b = some 0 ↔ IsFinite b ∧ Below b 1 := by
  rw [← truncate_eq_zero_iff, toUInt64?, IsFinite]
  by_cases he : exponent b = 2047
  · simp [he]
  by_cases ht : truncate b = 0
  · simp [he, ht]
  rw [if_neg he, if_neg ht]
  refine iff_of_false (fun h => ?_) (fun h => ht h.2)
  by_cases hn : isNegative b = true
  · rw [if_pos hn] at h
    cases h
  rw [if_neg hn] at h
  by_cases hlt : truncate b < 2 ^ 64
  · rw [if_pos hlt] at h
    have hzero : (UInt64.ofNat (truncate b)).toNat = 0 := by rw [Option.some.inj h]; rfl
    rw [UInt64.toNat_ofNat', Nat.mod_eq_of_lt hlt] at hzero
    exact ht hzero
  · rw [if_neg hlt] at h
    cases h

/-- One half is truncated to zero, one and a half to one. -/
example : toUInt64? 0x3fe0000000000000 = some 0 ∧ toUInt64? 0x3ff8000000000000 = some 1 := by
  decide +kernel

end Binary64
