import Mathlib.Data.Nat.Digits.Lemmas

/-!
# Decimal — numbers as zero-padded decimal text

* `padded_value`: a non-empty string of decimal digits is its value, padded to its length;
* `decimal_append_inj`: a number can be told from what follows it.
-/

namespace Support

/-- A number in decimal. -/
def decimal (n : Nat) : List Char :=
  if n = 0 then ['0'] else (Nat.digits 10 n).reverse.map Nat.digitChar

/-- Zeros in front, up to a width. -/
def padTo (w : Nat) (ds : List Char) : List Char :=
  List.replicate (w - ds.length) '0' ++ ds

/-- The value of a string of digits. -/
def decimalValue (ds : List Char) : Nat :=
  ds.foldl (fun n ch => n * 10 + (ch.toNat - 48)) 0

/-- Little-endian digits are those of their value, followed by zeros. -/
theorem digits_append_zeros {ds : List Nat} (hds : ∀ d ∈ ds, d < 10) :
    Nat.digits 10 (Nat.ofDigits 10 ds) ++
      List.replicate (ds.length - (Nat.digits 10 (Nat.ofDigits 10 ds)).length) 0 = ds := by
  induction ds with
  | nil => simp
  | cons d ds ih =>
      have hd := hds d List.mem_cons_self
      have hrest := ih fun d' hd' => hds d' (List.mem_cons_of_mem _ hd')
      rw [Nat.ofDigits_cons]
      by_cases hzero : d ≠ 0 ∨ Nat.ofDigits 10 ds ≠ 0
      · rw [Nat.digits_add 10 (by decide) _ _ hd hzero, List.cons_append, List.length_cons,
          List.length_cons, Nat.add_sub_add_right, hrest]
      · push Not at hzero
        obtain ⟨rfl, hvalue⟩ := hzero
        rw [hvalue] at hrest ⊢
        rw [← hrest]
        simp [List.replicate_succ]

theorem decimalValue_eq (t : List Char) :
    decimalValue t = Nat.ofDigits 10 (t.map fun ch => ch.toNat - 48).reverse := by
  have hfold : ∀ (t : List Char) (n : Nat),
      t.foldl (fun n ch => n * 10 + (ch.toNat - 48)) n =
        Nat.ofDigits 10 (t.map fun ch => ch.toNat - 48).reverse + 10 ^ t.length * n := by
    intro t
    induction t with
    | nil => simp
    | cons ch t ih =>
        intro n
        rw [List.foldl_cons, ih, List.map_cons, List.reverse_cons, Nat.ofDigits_append]
        simp only [List.length_reverse, List.length_map, Nat.ofDigits_singleton, List.length_cons,
          pow_succ]
        ring
  simpa [decimalValue] using hfold t 0

theorem digitChar_sub {ch : Char} (h : 48 ≤ ch.toNat ∧ ch.toNat ≤ 57) :
    Nat.digitChar (ch.toNat - 48) = ch := by
  apply Char.toNat_inj.mp
  rw [Nat.toNat_digitChar_of_lt_ten (by omega)]
  omega

/-- **Padding.** A string of digits is its value again, padded to its length. -/
theorem padded_value {t : List Char} (hne : t ≠ [])
    (ht : ∀ ch ∈ t, 48 ≤ ch.toNat ∧ ch.toNat ≤ 57) :
    padTo t.length (decimal (decimalValue t)) = t := by
  have hdigit : ∀ d ∈ (t.map fun ch => ch.toNat - 48).reverse, d < 10 := by
    intro d hd
    obtain ⟨ch, hch, rfl⟩ := List.mem_map.mp (List.mem_reverse.mp hd)
    have := ht ch hch
    omega
  have hback : (t.map fun ch => ch.toNat - 48).map Nat.digitChar = t := by
    rw [List.map_map]
    exact (List.map_congr_left fun ch hch => digitChar_sub (ht ch hch)).trans (List.map_id t)
  have hall := digits_append_zeros hdigit
  rw [← decimalValue_eq, List.length_reverse, List.length_map] at hall
  have hrev := congrArg (fun ds => ds.reverse.map Nat.digitChar) hall
  rw [List.reverse_reverse, hback, List.reverse_append, List.reverse_replicate, List.map_append,
    List.map_replicate] at hrev
  rw [padTo, decimal]
  split_ifs with hzero
  · -- all digits are zero, and one of them is written out
    have hpos : 0 < t.length := List.length_pos_iff.mpr hne
    rw [hzero, Nat.digits_zero, List.length_nil, Nat.sub_zero, List.reverse_nil, List.map_nil,
      List.append_nil] at hrev
    rw [List.length_singleton, ← List.replicate_succ', Nat.sub_add_cancel hpos]
    exact hrev
  · rw [List.length_map, List.length_reverse]
    exact hrev

theorem decimal_digit {n : Nat} : ∀ ch ∈ decimal n, 48 ≤ ch.toNat ∧ ch.toNat ≤ 57 := by
  intro ch hch
  rw [decimal] at hch
  split_ifs at hch with h
  · obtain rfl := List.mem_singleton.mp hch
    decide
  · obtain ⟨d, hd, rfl⟩ := List.mem_map.mp hch
    have hlt : d < 10 := Nat.digits_lt_base (by decide) (List.mem_reverse.mp hd)
    rw [Nat.toNat_digitChar_of_lt_ten hlt]
    omega

theorem decimalValue_decimal (n : Nat) : decimalValue (decimal n) = n := by
  rw [decimal]
  split_ifs with h
  · rw [h]
    rfl
  · have hback : ((Nat.digits 10 n).reverse.map Nat.digitChar).map (fun ch => ch.toNat - 48) =
        (Nat.digits 10 n).reverse := by
      rw [List.map_map]
      refine (List.map_congr_left fun d hd => ?_).trans (List.map_id _)
      have hlt : d < 10 := Nat.digits_lt_base (by decide) (List.mem_reverse.mp hd)
      rw [Function.comp_apply, Nat.toNat_digitChar_of_lt_ten hlt, id_eq]
      omega
    rw [decimalValue_eq, hback, List.reverse_reverse, Nat.ofDigits_digits]

theorem decimal_not_mem {n : Nat} {ch : Char} (h : ¬(48 ≤ ch.toNat ∧ ch.toNat ≤ 57)) :
    ch ∉ decimal n :=
  fun hmem => h (decimal_digit ch hmem)

/-- A number of at most `w` digits, padded to `w` of them. -/
theorem padTo_decimal {w n : Nat} (hw : 0 < w) (h : n < 10 ^ w) :
    (padTo w (decimal n)).length = w ∧ (∀ ch ∈ padTo w (decimal n), ch.isDigit = true) ∧
      decimalValue (padTo w (decimal n)) = n := by
  have hlength : (decimal n).length ≤ w := by
    rw [decimal]
    split_ifs with hzero
    · exact hw
    · rw [List.length_map, List.length_reverse]
      exact (Nat.digits_length_le_iff (by decide) n).mpr h
  have hzeros (k : Nat) : (List.replicate k '0').foldl (fun n ch => n * 10 + (ch.toNat - 48)) 0 = 0 := by
    induction k with
    | zero => rfl
    | succ k ih => rw [List.replicate_succ, List.foldl_cons]; exact ih
  refine ⟨?_, fun ch hch => ?_, ?_⟩
  · rw [padTo, List.length_append, List.length_replicate, Nat.sub_add_cancel hlength]
  · rcases List.mem_append.mp hch with hch | hch
    · rw [List.eq_of_mem_replicate hch]
      rfl
    · simpa [Char.isDigit, UInt32.le_iff_toNat_le] using decimal_digit ch hch
  · rw [padTo, decimalValue, List.foldl_append, hzeros]
    exact decimalValue_decimal n

/-- A number can be told from what follows it, up to a character that is no digit. -/
theorem decimal_append_inj {n m : Nat} {ch : Char} (h : ¬(48 ≤ ch.toNat ∧ ch.toNat ≤ 57))
    {s t : List Char} (heq : decimal n ++ ch :: s = decimal m ++ ch :: t) : n = m ∧ s = t := by
  have hcut (k : Nat) (u : List Char) :
      (decimal k ++ ch :: u).takeWhile (fun c => c ≠ ch) = decimal k := by
    rw [List.takeWhile_append_of_pos fun c hc => by
      simpa using fun hch : c = ch => decimal_not_mem h (hch ▸ hc)]
    simp
  have hdigits := hcut n s
  rw [heq, hcut] at hdigits
  have hvalue := congrArg decimalValue hdigits
  rw [decimalValue_decimal, decimalValue_decimal] at hvalue
  subst hvalue
  exact ⟨rfl, (List.cons.inj (List.append_cancel_left heq)).2⟩

/-- The number of a text of digits, which may have a plus in front, if it is below `2 ^ 64`. -/
def parseU64 (t : List Char) : Option Nat :=
  let digits := if t.head? = some '+' then t.tail else t
  if digits ≠ [] ∧ digits.all Char.isDigit ∧ decimalValue digits < 2 ^ 64 then
    some (decimalValue digits)
  else none

theorem parseU64_decimal (n : UInt64) : parseU64 (decimal n.toNat) = some n.toNat := by
  have hne : decimal n.toNat ≠ [] := by
    rw [decimal]
    split_ifs with h
    · simp
    · simpa using Nat.digits_ne_nil_iff_ne_zero.mpr h
  have hdigits : (decimal n.toNat).all Char.isDigit = true := by
    rw [List.all_eq_true]
    intro ch hch
    simpa [Char.isDigit, UInt32.le_iff_toNat_le] using decimal_digit ch hch
  have hplus : (decimal n.toNat).head? ≠ some '+' :=
    fun h => decimal_not_mem (by decide) (List.mem_of_mem_head? h)
  rw [parseU64, if_neg hplus, decimalValue_decimal, if_pos ⟨hne, hdigits, n.toNat_lt⟩]

end Support
