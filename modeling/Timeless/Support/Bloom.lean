import Mathlib.Data.List.GetD
import Mathlib.Data.Nat.Bitwise

/-!
# Bloom — sets of positions in a row of bytes

A filter is a row of bytes, eight positions in each, lowest bit first. What is put into it is a list
of positions; to ask for something is to ask whether all its positions are set.

* `test_insert`: a position is set exactly if it was, or if it was put in and is in range;
* `covers_insert_self`, `covers_insert`: what was put in is found, then and after everything that is
  put in later.
-/

namespace Support.Bloom

variable (bits : List UInt8)

def set (p : Nat) : List UInt8 :=
  bits.modify (p / 8) fun b => UInt8.ofNat (b.toNat ||| 1 <<< (p % 8))

def test (p : Nat) : Bool :=
  (bits.getD (p / 8) 0).toNat.testBit (p % 8)

def insert (ps : List Nat) : List UInt8 :=
  ps.foldl set bits

/-- Are all positions set? -/
def covers (ps : List Nat) : Bool :=
  ps.all (test bits)

@[simp] theorem length_set (p : Nat) : (set bits p).length = bits.length := by
  simp [set]

@[simp] theorem length_insert (ps : List Nat) :
    (insert bits ps).length = bits.length := by
  induction ps generalizing bits with
  | nil => rfl
  | cons p ps ih => exact (ih _).trans (length_set bits p)

/-- A byte with one more bit. -/
theorem toNat_or_bit (b : UInt8) {k : Nat} (hk : k < 8) :
    (UInt8.ofNat (b.toNat ||| 1 <<< k)).toNat = b.toNat ||| 2 ^ k := by
  rw [Nat.one_shiftLeft, UInt8.toNat_ofNat', Nat.mod_eq_of_lt]
  exact Nat.or_lt_two_pow b.toNat_lt (Nat.pow_lt_pow_right (by decide) hk)

theorem test_set (p q : Nat) :
    test (set bits p) q = (test bits q || decide (q = p ∧ q / 8 < bits.length)) := by
  have hsame : q = p ↔ p / 8 = q / 8 ∧ p % 8 = q % 8 := by omega
  by_cases hbyte : p / 8 = q / 8
  · by_cases hlt : q / 8 < bits.length
    · have hget : (set bits p).getD (q / 8) 0 =
          UInt8.ofNat ((bits.getD (q / 8) 0).toNat ||| 1 <<< (p % 8)) := by
        simp [set, hbyte, List.getD_eq_getElem?_getD, hlt]
      rw [test, hget, toNat_or_bit _ (Nat.mod_lt _ (by decide)), Nat.testBit_or, Nat.testBit_two_pow,
        test]
      simp [hsame, hbyte, hlt]
    · have hnone : ∀ l : List UInt8, l.length = bits.length → l.getD (q / 8) 0 = 0 := fun l hl =>
        List.getD_eq_default _ _ (by omega)
      rw [test, test, hnone _ (length_set bits p), hnone _ rfl]
      simp [hlt]
  · have hget : (set bits p).getD (q / 8) 0 = bits.getD (q / 8) 0 := by
      simp [set, List.getD_eq_getElem?_getD, hbyte]
    rw [test, hget, test]
    simp [hsame, hbyte]

/-- **Insertion.** What is set after positions were put in. -/
theorem test_insert (ps : List Nat) (q : Nat) :
    test (insert bits ps) q = (test bits q || decide (q ∈ ps ∧ q / 8 < bits.length)) := by
  induction ps generalizing bits with
  | nil => simp [insert]
  | cons p ps ih =>
      have hstep : insert bits (p :: ps) = insert (set bits p) ps := rfl
      rw [hstep, ih, test_set, length_set, Bool.or_assoc, ← Bool.decide_or]
      simp only [List.mem_cons, or_and_right]

/-- What was inserted is found. -/
theorem covers_insert_self {bits : List UInt8} {ps : List Nat}
    (h : ∀ p ∈ ps, p / 8 < bits.length) : covers (insert bits ps) ps = true := by
  refine List.all_eq_true.mpr fun p hp => ?_
  rw [test_insert]
  simp [hp, h p hp]

/-- Inserting loses nothing. -/
theorem covers_insert {bits : List UInt8} {qs : List Nat} (h : covers bits qs = true)
    (ps : List Nat) : covers (insert bits ps) qs = true := by
  refine List.all_eq_true.mpr fun q hq => ?_
  rw [test_insert, List.all_eq_true.mp h q hq, Bool.true_or]

end Support.Bloom
