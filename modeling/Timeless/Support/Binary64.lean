import Mathlib.Algebra.Order.Group.Int
import Mathlib.Algebra.Ring.Nat
import Mathlib.Order.Lattice

/-!
# Binary64 — the order of the 64-bit floats

A float is the word of its bits: the sign, eleven bits of exponent, fifty-two of significand. Below
the sign, greater words stand for greater numbers, so the word without its sign, negated if the sign
is set, orders the floats as their numbers do. Both zeros are the same number. The words beyond the
infinity stand for no number.
-/

namespace Support.Binary64

/-- The word without the sign. -/
def magnitude (v : UInt64) : Nat :=
  v.toNat % 2 ^ 63

/-- The word of the positive infinity. -/
def infinity : Nat := 0x7ff0000000000000

/-- The place of the float among the numbers, if it is one. -/
def number (v : UInt64) : Option Int :=
  if infinity < magnitude v then none
  else if 2 ^ 63 ≤ v.toNat then some (-(magnitude v : Int))
  else some (magnitude v)

/-- The whole part of a significand under an exponent. -/
def scaled (significand exponent : Nat) : Nat :=
  if 1075 ≤ exponent then significand * 2 ^ (exponent - 1075)
  else significand / 2 ^ (1075 - max exponent 1)

/-- The float without its fraction, if it is finite: eleven bits of exponent above fifty-two of
significand, which has one more bit unless the exponent is nought. -/
def truncated (v : UInt64) : Int :=
  let exponent := magnitude v / 2 ^ 52
  let significand := magnitude v % 2 ^ 52 + if exponent = 0 then 0 else 2 ^ 52
  if 2 ^ 63 ≤ v.toNat then -(scaled significand exponent : Int) else scaled significand exponent

def isFinite (v : UInt64) : Bool :=
  magnitude v < infinity

theorem scaled_lt {significand exponent : Nat} (hs : significand < 2 ^ 53) (he : exponent ≤ 1085) :
    scaled significand exponent < 2 ^ 63 := by
  rw [scaled]
  by_cases h : 1075 ≤ exponent
  · rw [if_pos h]
    calc significand * 2 ^ (exponent - 1075) ≤ (2 ^ 53 - 1) * 2 ^ 10 :=
          Nat.mul_le_mul (Nat.le_sub_one_of_lt hs) (Nat.pow_le_pow_right (by decide) (by omega))
      _ < 2 ^ 63 := by decide
  · rw [if_neg h]
    exact (Nat.div_le_self _ _).trans_lt (hs.trans (by decide))

/-- A float that is less than 2^63 in size is cut off to an integer that is. -/
theorem truncated_lt {v : UInt64} (h : magnitude v < 0x43e0000000000000) :
    -2 ^ 63 < truncated v ∧ truncated v < 2 ^ 63 := by
  have hsignificand :
      magnitude v % 2 ^ 52 + (if magnitude v / 2 ^ 52 = 0 then 0 else 2 ^ 52) < 2 ^ 53 := by
    split_ifs <;> omega
  have hlt := scaled_lt hsignificand (show magnitude v / 2 ^ 52 ≤ 1085 by omega)
  rw [truncated]
  split_ifs at hlt ⊢ <;> omega

/-- Both zeros are one number, and there are floats that are none. -/
example : number 0 = number 0x8000000000000000 ∧ number 0x7ff8000000000000 = none := by decide

end Support.Binary64
