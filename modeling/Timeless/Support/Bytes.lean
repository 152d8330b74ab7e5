import Mathlib.Data.List.Basic
import Mathlib.Data.Nat.Basic
import Mathlib.Tactic.Ring

/-!
# Bytes — little-endian numbers, fixed-width chunks and UTF-8 text

What a binary format is written with, over plain lists of bytes.

A number of `w` bytes is written least significant byte first (`leBytes`) and read back by
`leNat`; a run of equally wide records is cut up by `chunksExact`; a text is a list of
characters whose bytes are its UTF-8 encoding (`utf8`), and a byte string is a text only if it
decodes (`fromUtf8`).

* `leNat_leBytes`, `leBytes_leNat`: a number below `256 ^ w` survives its `w` bytes, and `w` bytes
  survive the number they hold;
* `i64OfLe_i64Le`: so does every 64-bit integer;
* `chunksExact_flatMap`, `flatten_chunksExact`: cutting a concatenation of equally wide records gives
  the records, and the records of a list are the list;
* `fromUtf8_utf8`, `utf8_of_fromUtf8`: a text survives its bytes, and bytes that decode the text;
* `utf8_ascii`, `high_of_mem_utf8EncodeChar`: a character's first byte says whether it is ASCII,
  and then it is the only byte, or not, and then no byte of it is.
-/

namespace Support

/-! ### Little-endian numbers -/

/-- The `w` low bytes of `n`, least significant first. -/
def leBytes : Nat → Nat → List UInt8
  | 0, _ => []
  | w + 1, n => UInt8.ofNat n :: leBytes w (n / 256)

/-- The number whose little-endian bytes are given. -/
def leNat : List UInt8 → Nat
  | [] => 0
  | b :: bs => b.toNat + 256 * leNat bs

@[simp] theorem length_leBytes (w n : Nat) : (leBytes w n).length = w := by
  induction w generalizing n with
  | zero => rfl
  | succ w ih => simp [leBytes, ih]

theorem leNat_leBytes_mod (w n : Nat) : leNat (leBytes w n) = n % 256 ^ w := by
  induction w generalizing n with
  | zero => simp [leBytes, leNat, Nat.mod_one]
  | succ w ih =>
      have hb : (UInt8.ofNat n).toNat = n % 256 := by simp
      rw [leBytes, leNat, ih, hb, Nat.pow_succ', Nat.mod_mul]

/-- **Reading back.** A number that fits its width is read back unchanged. -/
theorem leNat_leBytes {w n : Nat} (h : n < 256 ^ w) : leNat (leBytes w n) = n := by
  rw [leNat_leBytes_mod, Nat.mod_eq_of_lt h]

theorem leNat_lt (bs : List UInt8) : leNat bs < 256 ^ bs.length := by
  induction bs with
  | nil => simp [leNat]
  | cons b bs ih =>
      have hb : b.toNat < 256 := b.toNat_lt
      rw [leNat, List.length_cons, Nat.pow_succ']
      omega

theorem leBytes_leNat (bs : List UInt8) : leBytes bs.length (leNat bs) = bs := by
  induction bs with
  | nil => rfl
  | cons b bs ih =>
      have hb : b.toNat < 256 := b.toNat_lt
      have hlow : UInt8.ofNat (b.toNat + 256 * leNat bs) = b := by
        apply UInt8.toNat_inj.mp
        rw [UInt8.toNat_ofNat']
        omega
      have hrest : (b.toNat + 256 * leNat bs) / 256 = leNat bs := by omega
      rw [List.length_cons, leNat, leBytes, hlow, hrest, ih]

/-- The eight bytes of a 64-bit integer, in two's complement. -/
def i64Le (v : Int64) : List UInt8 :=
  leBytes 8 v.toBitVec.toNat

/-- The 64-bit integer held by eight bytes. -/
def i64OfLe (bs : List UInt8) : Int64 :=
  Int64.ofBitVec (BitVec.ofNat 64 (leNat bs))

@[simp] theorem length_i64Le (v : Int64) : (i64Le v).length = 8 :=
  length_leBytes 8 _

@[simp] theorem i64OfLe_i64Le (v : Int64) : i64OfLe (i64Le v) = v := by
  have hlt : v.toBitVec.toNat < 256 ^ 8 := v.toBitVec.isLt
  simp [i64OfLe, i64Le, leNat_leBytes hlt]

/-! ### Fixed-width records -/

/-- The whole records of `k` elements at the front of a list; a shorter rest is dropped. -/
def chunksExact {α : Type} (k : Nat) (l : List α) : List (List α) :=
  (List.range (l.length / k)).map fun i => (l.drop (i * k)).take k

variable {α β : Type} {f : α → List β} {k : Nat}

theorem length_flatMap_const (hf : ∀ x, (f x).length = k) (xs : List α) :
    (xs.flatMap f).length = xs.length * k := by
  induction xs with
  | nil => simp
  | cons x xs ih => simp [hf, ih]; ring

/-- Items of one width are found again. -/
theorem chunksExact_flatMap (hk : 0 < k) (hf : ∀ x, (f x).length = k) (xs : List α) :
    chunksExact k (xs.flatMap f) = xs.map f := by
  induction xs with
  | nil => simp [chunksExact, Nat.div_eq_of_lt hk]
  | cons x xs ih =>
      have hlen : ((x :: xs).flatMap f).length / k = xs.length + 1 := by
        rw [length_flatMap_const hf, List.length_cons, Nat.mul_div_cancel _ hk]
      have hlen' : (xs.flatMap f).length / k = xs.length := by
        rw [length_flatMap_const hf, Nat.mul_div_cancel _ hk]
      unfold chunksExact at ih ⊢
      rw [hlen, List.range_succ_eq_map, List.map_cons, List.map_cons, ← ih, hlen', List.map_map]
      congr 1
      · simp [hf]
      · refine List.map_congr_left fun i _ => ?_
        -- record `i + 1` starts one record later
        have hdrop : (i + 1) * k = (f x).length + i * k := by rw [hf]; ring
        simp only [Function.comp_apply, Nat.succ_eq_add_one, List.flatMap_cons]
        rw [hdrop, List.drop_append, List.drop_eq_nil_of_le (by omega)]
        simp

theorem flatten_chunksExact {l : List α} (h : l.length % k = 0) :
    (chunksExact k l).flatten = l := by
  have hfront : ∀ m, m * k ≤ l.length →
      ((List.range m).map fun i => (l.drop (i * k)).take k).flatten = l.take (m * k) := by
    intro m hm
    induction m with
    | zero => simp
    | succ m ih =>
        have hm' : m * k ≤ l.length := by rw [Nat.succ_mul] at hm; omega
        rw [List.range_succ, List.map_append, List.flatten_append, ih hm', Nat.succ_mul,
          List.take_add]
        simp
  rw [chunksExact, hfront _ (Nat.div_mul_le_self _ _), Nat.div_mul_cancel (Nat.dvd_of_mod_eq_zero h),
    List.take_length]

theorem length_of_mem_chunksExact {l b : List α} (h : b ∈ chunksExact k l) :
    b.length = k := by
  obtain ⟨i, hi, rfl⟩ := List.mem_map.mp h
  have hlt : (i + 1) * k ≤ l.length :=
    (Nat.mul_le_mul_right k (List.mem_range.mp hi)).trans (Nat.div_mul_le_self _ _)
  rw [Nat.succ_mul] at hlt
  rw [List.length_take, List.length_drop]
  omega

/-- Integers written one after another are read back in pieces of eight bytes. -/
theorem i64s_back (values : List Int64) :
    (chunksExact 8 (values.flatMap i64Le)).map i64OfLe = values := by
  rw [chunksExact_flatMap (by decide) length_i64Le, List.map_map]
  simp [Function.comp_def]

/-- What is found at the place of one of several pieces of equal length. -/
theorem slice_flatMap (hf : ∀ x, (f x).length = k) {xs : List α} {i : Nat} (hi : i < xs.length) :
    ((xs.flatMap f).drop (i * k)).take k = f xs[i] := by
  induction xs generalizing i with
  | nil => exact absurd hi (Nat.not_lt_zero i)
  | cons x xs ih =>
      rw [List.flatMap_cons]
      cases i with
      | zero =>
          rw [Nat.zero_mul, List.drop_zero, List.take_append_of_le_length (hf x).ge,
            List.take_of_length_le (hf x).le, List.getElem_cons_zero]
      | succ i =>
          have hdrop : (i + 1) * k = (f x).length + i * k := by rw [hf, Nat.succ_mul, Nat.add_comm]
          rw [hdrop, List.drop_append, List.drop_eq_nil_of_le (Nat.le_add_right _ _),
            List.nil_append, Nat.add_sub_cancel_left, List.getElem_cons_succ]
          exact ih (Nat.lt_of_succ_lt_succ hi)

/-- Byte strings of one length. -/
abbrev FixedBytes (w : Nat) : Type := { bs : List UInt8 // bs.length = w }

/-- A byte string of the length; zeros in place of any other. -/
def FixedBytes.ofList (w : Nat) (bs : List UInt8) : FixedBytes w :=
  if h : bs.length = w then ⟨bs, h⟩ else ⟨List.replicate w 0, List.length_replicate⟩

theorem FixedBytes.ofList_val {w : Nat} (b : FixedBytes w) : FixedBytes.ofList w b.val = b := by
  rw [ofList, dif_pos b.property]

/-! ### Text -/

/-- Text is a list of characters (Unicode scalar values). -/
abbrev Text := List Char

/-- The UTF-8 bytes of a text. -/
def utf8 (t : Text) : List UInt8 :=
  t.flatMap String.utf8EncodeChar

/-- The text a byte string encodes, if it is well-formed UTF-8. -/
def fromUtf8 (bs : List UInt8) : Option Text :=
  bs.toByteArray.utf8Decode?.map Array.toList

@[simp] theorem utf8_nil : utf8 [] = [] := rfl

@[simp] theorem utf8_cons (c : Char) (t : Text) :
    utf8 (c :: t) = String.utf8EncodeChar c ++ utf8 t := rfl

@[simp] theorem utf8_append (s t : Text) : utf8 (s ++ t) = utf8 s ++ utf8 t := by
  simp [utf8]

@[simp] theorem fromUtf8_utf8 (t : Text) : fromUtf8 (utf8 t) = some t := by
  have h : (utf8 t).toByteArray = t.utf8Encode := rfl
  simp [fromUtf8, h, List.utf8Decode?_utf8Encode]

theorem utf8_of_fromUtf8 {bs : List UInt8} {t : Text} (h : fromUtf8 bs = some t) : utf8 t = bs := by
  obtain ⟨chars, hchars, rfl⟩ := Option.map_eq_some_iff.mp h
  have hsome : bs.toByteArray.utf8Decode?.isSome := by rw [hchars]; rfl
  have henc := ByteArray.utf8Encode_get_utf8Decode? (h := hsome)
  simp only [hchars, Option.get_some] at henc
  have hbytes : (utf8 chars.toList).toByteArray = bs.toByteArray := henc
  simpa using congrArg ByteArray.data hbytes

theorem utf8_injective : Function.Injective utf8 := by
  intro s t h
  have := congrArg fromUtf8 h
  simpa using this

/-- The first byte of a character. -/
def lead (c : Char) : UInt8 :=
  (String.utf8EncodeChar c).headD 0

/-- A character whose first byte is ASCII is that byte. -/
theorem utf8_ascii {c : Char} (h : (lead c).toNat < 128) : String.utf8EncodeChar c = [lead c] := by
  simp only [lead, String.utf8EncodeChar] at h ⊢
  split_ifs at h ⊢ with h₁ h₂ h₃
  · rfl
  all_goals
    simp only [List.headD_cons, UInt8.toNat_ofNat'] at h
    omega

/-- Every byte of a character whose first byte is not ASCII is above the ASCII range. -/
theorem high_of_mem_utf8EncodeChar {c : Char} (h : 128 ≤ (lead c).toNat) :
    ∀ b ∈ String.utf8EncodeChar c, 128 ≤ b.toNat := by
  simp only [lead, String.utf8EncodeChar] at h ⊢
  split_ifs at h ⊢ with h₁ h₂ h₃
  · simp only [List.headD_cons, UInt8.toNat_ofNat'] at h
    omega
  all_goals
    simp only [List.mem_cons, List.not_mem_nil, or_false, forall_eq_or_imp, forall_eq,
      UInt8.toNat_ofNat']
    omega

end Support
