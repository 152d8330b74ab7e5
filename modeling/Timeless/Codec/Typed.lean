import Timeless.Codec.Bitmap
import Timeless.Codec.Column

/-!
# Typed — every typed column comes back, bit for bit

The columns of `timeless-codec` are integers, floats, strings, bytes, byte strings of one width and
bitmaps. A float is its bits: the codec compares and computes nothing with it, so that every pattern
comes back, those of the many NaNs among them.

A decoder is given a slice of a larger buffer. What it must not do is to read a column from too much
or too little of it: a frame with anything after it, or cut short anywhere, is refused (`Exact`), as
is a bitmap of the wrong number of bytes.

* `decodeF64_encodeF64`: float columns come back;
* `typedColumns_exact`: so do all six, exactly.
-/

namespace Timeless.Codec

open Support

/-! ### Floats -/

/-- The numeric compressor (pco) for floats, given by their bits. -/
structure FloatPco where
  compress : List UInt64 → Except String (List UInt8)
  decompressInto : List UInt8 → Nat → Except String (List UInt64 × Bool × Nat)

/-- What the compressor's documentation promises. -/
structure FloatPco.Lossless (pco : FloatPco) : Prop where
  back : ∀ {nums : List UInt64} {z : List UInt8}, pco.compress nums = .ok z →
    pco.decompressInto z nums.length = .ok (nums, true, nums.length)

/-- A compressor that stores its input as it is. -/
def FloatPco.storing : FloatPco where
  compress nums := .ok (nums.flatMap fun bits => leBytes 8 bits.toNat)
  decompressInto z n :=
    let nums := (chunksExact 8 z).map fun b => UInt64.ofNat (leNat b)
    .ok (nums.take n, decide (nums.length ≤ n), min n nums.length)

/-- Compress, with the error as the codec words it. -/
def FloatPco.compressColumn (pco : FloatPco) (nums : List UInt64) : Except String (List UInt8) :=
  (pco.compress nums).mapError fun e => s!"pco compress failed: {e}"

/-- Decompress exactly so many floats. -/
def FloatPco.decompressCapped (pco : FloatPco) (bytes : List UInt8) (n : Nat) (what : String) :
    Except String (List UInt64) :=
  match pco.decompressInto bytes n with
  | .error e => .error s!"pco decompress of {what} failed: {e}"
  | .ok (out, finished, processed) =>
      if !finished || processed != n then
        .error s!"pco decompress of {what}: stream holds {processed} values, expected {n}"
      else .ok out

/-- Floats in pco. -/
def encF64Pco : UInt8 := 3

/-- Floats in zstd. -/
def encF64Zstd : UInt8 := 4

/-- The eight bytes of a float. -/
def f64Le (bits : UInt64) : List UInt8 :=
  leBytes 8 bits.toNat

/-- A float out of eight bytes. -/
def f64OfLe (bs : List UInt8) : UInt64 :=
  UInt64.ofNat (leNat bs)

/-- Floats in eight bytes each. -/
def f64sToLeBytes (values : List UInt64) : List UInt8 :=
  values.flatMap f64Le

variable (c : Compressors) (pco : FloatPco)

/-- Floats in the encoding that is smaller on a sample. -/
def encodeF64 (values : List UInt64) (level : Int) : Except String ColumnEnc := do
  if values.isEmpty then
    return ⟨encF64Zstd, ← zstdCompress c [] level⟩
  encodeAdaptive pco.compressColumn (fun nums => zstdCompress c (f64sToLeBytes nums) level) encF64Pco
    encF64Zstd values

/-- The floats of a column. -/
def decodeF64 (bytes : List UInt8) (n : Nat) : Except String (List UInt64) := do
  let (enc, payload) ← readColumnFrame bytes "f64 column"
  let out ←
    if enc = encF64Pco then pco.decompressCapped payload n "f64 column"
    else if enc = encF64Zstd then do
      let raw ← zstdDecompressCapped c payload "f64 column" (n * 8)
      let len := raw.length
      rejectIf (len % 8 ≠ 0) s!"f64 column: {len} bytes is not a multiple of 8"
      pure ((chunksExact 8 raw).map f64OfLe)
    else throw s!"f64 column: unknown encoding id {enc}"
  let got := out.length
  rejectIf (got ≠ n) s!"f64 column: decoded {got} values, expected {n}"
  return out

variable {c pco}

theorem f64OfLe_f64Le (bits : UInt64) : f64OfLe (f64Le bits) = bits := by
  rw [f64OfLe, f64Le, leNat_leBytes bits.toNat_lt, UInt64.ofNat_toNat]

@[simp] theorem length_f64Le (bits : UInt64) : (f64Le bits).length = 8 :=
  length_leBytes 8 _

theorem chunks_f64sToLeBytes (values : List UInt64) :
    (chunksExact 8 (f64sToLeBytes values)).map f64OfLe = values := by
  rw [f64sToLeBytes, chunksExact_flatMap (by decide) length_f64Le, List.map_map]
  simp [Function.comp_def, f64OfLe_f64Le]

theorem FloatPco.storing_lossless : FloatPco.storing.Lossless where
  back := by
    intro nums z h
    obtain rfl := Except.ok.inj h
    have hback : ((chunksExact 8 (nums.flatMap fun bits => leBytes 8 bits.toNat)).map fun b =>
        UInt64.ofNat (leNat b)) = nums := chunks_f64sToLeBytes nums
    simp only [FloatPco.storing, hback]
    simp

variable {e : ColumnEnc} {b : List UInt8}

theorem encodeF64_ok {values : List UInt64} {level : Int} (h : encodeF64 c pco values level = .ok e) :
    (e.encoding = encF64Pco ∧ pco.compressColumn values = .ok e.payload) ∨
      (e.encoding = encF64Zstd ∧ zstdCompress c (f64sToLeBytes values) level = .ok e.payload) := by
  unfold encodeF64 at h
  by_cases hemp : values.isEmpty = true
  · obtain rfl : values = [] := by simpa using hemp
    obtain ⟨z, hz, rfl⟩ := bind_pure_eq_ok.mp h
    exact .inr ⟨rfl, hz⟩
  · rw [if_neg hemp] at h
    exact encodeAdaptive_ok h

/-- **Float columns.** Whichever strategy won, every bit comes back. -/
theorem decodeF64_encodeF64 (hc : c.Lossless) (hpco : pco.Lossless) {values : List UInt64}
    {level : Int} (he : encodeF64 c pco values level = .ok e) (hb : e.toBytes = .ok b) :
    decodeF64 c pco b values.length = .ok values := by
  simp only [decodeF64, readColumnFrame_toBytes hb, ok_bind]
  rcases encodeF64_ok he with ⟨henc, hp⟩ | ⟨henc, hz⟩
  · rw [FloatPco.compressColumn, mapError_eq_ok] at hp
    rw [if_pos henc, FloatPco.decompressCapped, hpco.back hp]
    simp
  · have hlen : (f64sToLeBytes values).length = values.length * 8 :=
      length_flatMap_const length_f64Le values
    have hne : e.encoding ≠ encF64Pco := by rw [henc]; decide
    have hmod : (f64sToLeBytes values).length % 8 = 0 := by rw [hlen, Nat.mul_mod_left]
    rw [if_neg hne, if_pos henc, zstd_roundtrip hc hz _ hlen.le]
    simp only [ok_bind, pure_eq_ok, ne_eq, hmod, chunks_f64sToLeBytes, not_true_eq_false,
      rejectIf_neg, not_false_eq_true]

/-! ### Exactly the bytes written -/

/-- A decoder returns a value for some bytes, and refuses them with anything behind them and all that
they begin with. -/
structure Exact {α : Type} (decode : List UInt8 → Except String α) (b : List UInt8) (a : α) :
    Prop where
  back : decode b = .ok a
  noMore : ∀ tail, tail ≠ [] → ∃ e, decode (b ++ tail) = .error e
  noLess : ∀ front tail, tail ≠ [] → b = front ++ tail → ∃ e, decode front = .error e

/-- No frame begins with another. -/
theorem toBytes_append {e' : ColumnEnc} {tail : List UInt8} (h : e.toBytes = .ok b)
    (h' : e'.toBytes = .ok (b ++ tail)) : tail = [] := by
  obtain ⟨hlen, rfl⟩ := toBytes_eq_ok.mp h
  obtain ⟨hlen', hb⟩ := toBytes_eq_ok.mp h'
  rw [List.cons_append, List.cons.injEq, List.append_assoc] at hb
  obtain ⟨hstart, hpayload⟩ := List.append_inj hb.2 (by simp)
  have hsize : e.payload.length = e'.payload.length := by
    have hnat := congrArg leNat hstart
    rwa [leNat_leBytes (lt_of_le_u32Max hlen), leNat_leBytes (lt_of_le_u32Max hlen')] at hnat
  have hsum := congrArg List.length hpayload
  rw [List.length_append] at hsum
  exact List.length_eq_zero_iff.mp (by omega)

theorem readColumnFrame_error {bytes : List UInt8} {what : String}
    (h : ∀ e : ColumnEnc, e.toBytes ≠ .ok bytes) : ∃ err, readColumnFrame bytes what = .error err :=
  error_of_not_ok fun frame hframe => h ⟨frame.1, frame.2⟩ (readColumnFrame_eq_ok.mp hframe)

/-- A decoder that reads a frame first reads exactly the frame. -/
theorem exact_of_frame {α : Type} {what : String} {k : UInt8 × List UInt8 → Except String α} {a : α}
    (hb : e.toBytes = .ok b) (hback : (readColumnFrame b what >>= k) = .ok a) :
    Exact (fun bytes => readColumnFrame bytes what >>= k) b a := by
  refine ⟨hback, fun tail hne => ?_, fun front tail hne hsplit => ?_⟩
  · exact bind_error _ (readColumnFrame_error fun e' he' => hne (toBytes_append hb he'))
  · exact bind_error _ (readColumnFrame_error fun e' he' => hne (toBytes_append he' (hsplit ▸ hb)))

/-- A bitmap is as long as it says. -/
theorem exact_bitmap (bits : List Bool) :
    Exact (fun bytes => decodeBitmap bytes bits.length) (encodeBitmap bits) bits := by
  have hlen : (encodeBitmap bits).length = bitmapLen bits.length := by simp [encodeBitmap]
  refine ⟨decodeBitmap_encodeBitmap bits, fun tail hne => ?_, fun front tail hne hsplit => ?_⟩
  · have := List.length_pos_iff.mpr hne
    refine bind_error _ ⟨_, rejectIf_pos ?_ _⟩
    rw [List.length_append]
    omega
  · have := List.length_pos_iff.mpr hne
    rw [hsplit, List.length_append] at hlen
    exact bind_error _ ⟨_, rejectIf_pos (by omega) _⟩

/-- **Typed columns.** Whatever the values and whichever representation is picked, a column that the
encoder accepts, and for strings the decoder's cap admits, is decoded to its values from exactly its
bytes. -/
theorem typedColumns_exact (hc : c.Lossless) (hpco : pco.Lossless) (level : Int) (e : ColumnEnc)
    (b : List UInt8) (hb : e.toBytes = .ok b) :
    (∀ values, encodeI64 c values level = .ok e → Exact (decodeI64 c · values.length) b values) ∧
      (∀ values, encodeF64 c pco values level = .ok e →
        Exact (decodeF64 c pco · values.length) b values) ∧
      (∀ strs n, encodeStr c strs n level = .ok e → StrColumnFits strs →
        Exact (decodeStr c · n) b strs) ∧
      (∀ values, encodeU8 c values level = .ok e → Exact (decodeU8 c · values.length) b values) ∧
      (∀ data n width, encodeFixedBytes c data width level = .ok e → data.length = n * width →
        Exact (decodeFixedBytes c · n width) b data) ∧
      ∀ bits, Exact (fun bytes => decodeBitmap bytes bits.length) (encodeBitmap bits) bits := by
  refine ⟨fun values he => ?_, fun values he => ?_, fun strs n he hfit => ?_, fun values he => ?_,
    fun data n width he hlen => ?_, exact_bitmap⟩
  · exact exact_of_frame hb (decodeI64_encodeI64 hc he hb)
  · exact exact_of_frame hb (decodeF64_encodeF64 hc hpco he hb)
  · exact exact_of_frame hb (decodeStr_encodeStr hc he hb hfit)
  · exact exact_of_frame hb (decodeU8_encodeU8 hc he hb)
  · exact exact_of_frame hb (decodeFixedBytes_encodeFixedBytes hc he hb hlen)

/-- A NaN with a payload. -/
theorem typedColumns_exact_nan :
    Exact (decodeF64 .storing .storing · 1) [4, 8, 0, 0, 0, 1, 0, 0, 0, 0, 0, 0xf8, 0x7f]
      [0x7ff8000000000001] := by
  have hencode (bits : UInt64) :
      encodeF64 .storing .storing [bits] 3 = .ok ⟨encF64Zstd, f64sToLeBytes [bits]⟩ := rfl
  have hbytes : f64sToLeBytes [0x7ff8000000000001] = [1, 0, 0, 0, 0, 0, 0xf8, 0x7f] := by
    decide +kernel
  refine (typedColumns_exact Compressors.storing_lossless FloatPco.storing_lossless 3 _ _ ?_).2.1 _
    (hencode _)
  rw [hbytes]
  rfl

end Timeless.Codec
