import Mathlib.Algebra.Order.Ring.Int
import Timeless.Support.Outcome

/-!
# Checked — 64-bit integers as integers with a range

A signed 64-bit integer is an integer in the range `InI64`. The operations of a program say what
happens at the ends of the range: a checked one has no result there, a saturating one stays at the
end.
-/

namespace Support

def i64Min : Int := -2 ^ 63

def i64Max : Int := 2 ^ 63 - 1

/-- The integer is one of 64 bits. -/
def InI64 (x : Int) : Prop :=
  i64Min ≤ x ∧ x ≤ i64Max

instance (x : Int) : Decidable (InI64 x) := by
  unfold InI64
  infer_instance

/-- A result that is none outside of the range. -/
def checked (x : Int) : Option Int :=
  if InI64 x then some x else none

def saturating (x : Int) : Int :=
  max i64Min (min i64Max x)

theorem checked_pos {x : Int} (h : InI64 x) : checked x = some x :=
  if_pos h

theorem checked_neg {x : Int} (h : ¬InI64 x) : checked x = none :=
  if_neg h

end Support
