import Timeless.Support.Bytes
import Timeless.Support.Outcome

/-!
# Bitmap — presence bitmaps

One bit per entry, lowest bit first, padded with zeros to whole bytes. A sparse column stores the
values of the entries that have one and a bitmap that says which they are.

* `decodeBitmap_encodeBitmap`: a bitmap comes back.
-/

namespace Timeless.Codec

open Support

/-- The bytes for so many bits. -/
def bitmapLen (n : Nat) : Nat :=
  (n + 7) / 8

/-- Up to eight bits as the number they are the low binary digits of. -/
def bitmapByte (bits : List Bool) : Nat :=
  bits.foldr (fun b n => b.toNat + 2 * n) 0

/-- Eight bits to a byte, the first in the lowest place. -/
def encodeBitmap (bits : List Bool) : List UInt8 :=
  (List.range (bitmapLen bits.length)).map fun j =>
    UInt8.ofNat (bitmapByte ((bits.drop (8 * j)).take 8))

/-- The bits, if the padding is zero. -/
def decodeBitmap (bytes : List UInt8) (n : Nat) : Except String (List Bool) := do
  let got := bytes.length
  let expected := bitmapLen n
  rejectIf (got ≠ expected) s!"bitmap: {got} byte(s), expected {expected} for {n} bits"
  -- the padding bits of the last byte must be zero
  rejectIf (n % 8 ≠ 0 ∧ (bytes.getLastD 0).toNat / 2 ^ (n % 8) ≠ 0)
    "bitmap: nonzero padding bits in final byte"
  return (List.range n).map fun i => (bytes.getD (i / 8) 0).toNat.testBit (i % 8)

theorem testBit_bitmapByte (bits : List Bool) (k : Nat) :
    (bitmapByte bits).testBit k = bits.getD k false := by
  induction bits generalizing k with
  | nil => simp [bitmapByte]
  | cons b bits ih =>
      have hstep : bitmapByte (b :: bits) = b.toNat + 2 * bitmapByte bits := rfl
      rw [hstep]
      cases k with
      | zero => cases b <;> simp [Nat.testBit_zero]
      | succ k =>
          rw [Nat.testBit_succ, List.getD_cons_succ, ← ih]
          congr 1
          cases b
          · simp
          · simp
            omega

theorem bitmapByte_lt (bits : List Bool) : bitmapByte bits < 2 ^ bits.length := by
  induction bits with
  | nil => simp [bitmapByte]
  | cons b bits ih =>
      have hstep : bitmapByte (b :: bits) = b.toNat + 2 * bitmapByte bits := rfl
      rw [hstep, List.length_cons, Nat.pow_succ]
      have : b.toNat ≤ 1 := Bool.toNat_le b
      omega

theorem toNat_encodeBitmap_getD {bits : List Bool} {j : Nat} (hj : j < bitmapLen bits.length) :
    ((encodeBitmap bits).getD j 0).toNat = bitmapByte ((bits.drop (8 * j)).take 8) := by
  have hlt : bitmapByte ((bits.drop (8 * j)).take 8) < 256 := by
    refine (bitmapByte_lt _).trans_le (Nat.pow_le_pow_right (by decide) ?_ : _ ≤ 2 ^ 8)
    rw [List.length_take]
    exact min_le_left _ _
  simp [encodeBitmap, List.getD_eq_getElem?_getD, hj, Nat.mod_eq_of_lt hlt]

/-- **Bitmaps.** A bitmap comes back. -/
theorem decodeBitmap_encodeBitmap (bits : List Bool) :
    decodeBitmap (encodeBitmap bits) bits.length = .ok bits := by
  have hlen : (encodeBitmap bits).length = bitmapLen bits.length := by simp [encodeBitmap]
  have hpad : ¬(bits.length % 8 ≠ 0 ∧
      ((encodeBitmap bits).getLastD 0).toNat / 2 ^ (bits.length % 8) ≠ 0) := by
    rintro ⟨hmod, hne⟩
    -- the last byte holds the bits behind the last multiple of eight
    have hj : bits.length / 8 < bitmapLen bits.length := by unfold bitmapLen; omega
    have hlast : (encodeBitmap bits).getLastD 0 = (encodeBitmap bits).getD (bits.length / 8) 0 := by
      have hidx : (encodeBitmap bits).length - 1 = bits.length / 8 := by
        rw [hlen, bitmapLen]; omega
      rw [List.getLastD_eq_getLast?, List.getLast?_eq_getElem?, hidx, List.getD_eq_getElem?_getD]
    rw [hlast, toNat_encodeBitmap_getD hj] at hne
    refine hne (Nat.div_eq_of_lt ((bitmapByte_lt _).trans_le ?_))
    refine Nat.pow_le_pow_right (by decide) ?_
    rw [List.length_take, List.length_drop]
    omega
  rw [decodeBitmap, rejectIf_neg (by simp [hlen]), ok_bind, rejectIf_neg hpad, ok_bind]
  refine congrArg Except.ok (List.ext_getElem (by simp) fun i hi _ => ?_)
  have hib : i < bits.length := by simpa using hi
  rw [List.getElem_map, List.getElem_range,
    toNat_encodeBitmap_getD (by unfold bitmapLen; omega), testBit_bitmapByte]
  have hmod : i % 8 < 8 := Nat.mod_lt _ (by decide)
  rw [List.getD_eq_getElem?_getD, List.getElem?_take_of_lt hmod, List.getElem?_drop,
    Nat.div_add_mod, List.getElem?_eq_getElem hib, Option.getD_some]

end Timeless.Codec
