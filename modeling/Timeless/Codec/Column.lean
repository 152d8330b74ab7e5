import Mathlib.Data.List.Dedup
import Mathlib.Data.List.Sort
import Timeless.Codec.Reader
import Timeless.Support.Outcome

/-!
# Column — typed columns behind a frame

`timeless-codec` stores a column of integers, strings or small bytes as one frame: an encoding id,
a four-byte payload length and the payload. An encoder has two strategies for each type and keeps
the smaller; the id says which one, so that a decoder never guesses.

The two compressors are not part of the repository. They are the fields of `Compressors`, and what
their documentation promises is `Compressors.Lossless`: what was compressed comes back, and a
decompression that would exceed the size it was given is an error.

* `decodeI64_encodeI64`, `decodeU8_encodeU8`: integer and byte columns come back, whichever
  strategy won, and so do columns of fixed width (`decodeFixedBytes_encodeFixedBytes`);
* `decodeStr_encodeStr`: so does a string column whose uncompressed parts are within the decoder's
  cap (`StrColumnFits`);
* `decodeStr_over`: one that is not is an error, never a shorter column;
* `decodeStr_eq_ok`: whatever bytes the string decoder is given, it accepts those that hold the number
  of strings it is told (`HoldsStrings`), and returns them.
-/

namespace Timeless.Codec

open Support

/-! ### Compressors -/

/-- The general-purpose compressor (zstd) and the numeric one (pco), as the codec calls them. The
numeric decompressor fills a buffer of the given size and says whether the stream was finished and
how many values it held. -/
structure Compressors where
  zstdCompress : List UInt8 → Int → Except String (List UInt8)
  zstdDecompress : List UInt8 → Nat → Except String (List UInt8)
  pcoCompress : List Int64 → Except String (List UInt8)
  pcoDecompressInto : List UInt8 → Nat → Except String (List Int64 × Bool × Nat)

/-- What the compressors' documentation promises. -/
structure Compressors.Lossless (c : Compressors) : Prop where
  zstd : ∀ {data z : List UInt8} {level : Int}, c.zstdCompress data level = .ok z →
    ∀ cap, data.length ≤ cap → c.zstdDecompress z cap = .ok data
  zstd_over : ∀ {data z : List UInt8} {level : Int}, c.zstdCompress data level = .ok z →
    ∀ cap, cap < data.length → ∃ e, c.zstdDecompress z cap = .error e
  pco : ∀ {nums : List Int64} {z : List UInt8}, c.pcoCompress nums = .ok z →
    c.pcoDecompressInto z nums.length = .ok (nums, true, nums.length)

/-- Compressors that store their input as it is. -/
def Compressors.storing : Compressors where
  zstdCompress data _ := .ok data
  zstdDecompress z cap := if z.length ≤ cap then .ok z else .error "output exceeds the limit"
  pcoCompress nums := .ok (nums.flatMap i64Le)
  pcoDecompressInto z n :=
    let nums := (chunksExact 8 z).map i64OfLe
    .ok (nums.take n, decide (nums.length ≤ n), min n nums.length)

theorem Compressors.storing_lossless : Compressors.storing.Lossless where
  zstd := by
    intro data z level h cap hcap
    obtain ⟨rfl⟩ := Except.ok.inj h
    exact if_pos hcap
  zstd_over := by
    intro data z level h cap hcap
    obtain ⟨rfl⟩ := Except.ok.inj h
    exact ⟨_, if_neg (not_le.mpr hcap)⟩
  pco := by
    intro nums z h
    obtain ⟨rfl⟩ := Except.ok.inj h
    simp only [Compressors.storing, i64s_back]
    simp

/-- Differences of integers, in pco. -/
def encI64DeltaPco : UInt8 := 1

/-- Differences of integers, in zstd. -/
def encI64DeltaZstd : UInt8 := 2

/-- Texts by their places in a dictionary. -/
def encStrDict : UInt8 := 5

/-- Texts one after another. -/
def encStrZstd : UInt8 := 6

/-- Bytes in runs. -/
def encU8Rle : UInt8 := 7

/-- Bytes as they are. -/
def encU8Zstd : UInt8 := 8

/-- Values of one width. -/
def encFixedZstd : UInt8 := 9

/-- How many values decide between two encodings. -/
def sampleLen : Nat := 65536

/-- The entries that a decoder accepts in a block. -/
def maxBlockEntries : Nat := 2 ^ 20

/-- The bytes that a decoder lets a column grow to. -/
def decompressMaxBytes : Nat := 64 * 2 ^ 20

/-- The largest length that fits into four bytes. -/
def u32Max : Nat := 2 ^ 32 - 1

variable (c : Compressors)

/-- Compress, with the error as the codec words it. -/
def zstdCompress (data : List UInt8) (level : Int) : Except String (List UInt8) :=
  (c.zstdCompress data level).mapError fun e => s!"zstd compress failed: {e}"

/-- Decompress to so many bytes at most. -/
def zstdDecompressCapped (data : List UInt8) (what : String) (cap : Nat) :
    Except String (List UInt8) :=
  (c.zstdDecompress data cap).mapError fun e => s!"zstd decompress of {what} failed: {e}"

/-- Decompress to the size of any column at most. -/
def zstdDecompress (data : List UInt8) (what : String) : Except String (List UInt8) :=
  zstdDecompressCapped c data what decompressMaxBytes

/-- Compress numbers. -/
def pcoCompress (nums : List Int64) : Except String (List UInt8) :=
  (c.pcoCompress nums).mapError fun e => s!"pco compress failed: {e}"

/-- Decompress exactly so many numbers. -/
def pcoDecompressCapped (bytes : List UInt8) (n : Nat) (what : String) :
    Except String (List Int64) :=
  match c.pcoDecompressInto bytes n with
  | .error e => .error s!"pco decompress of {what} failed: {e}"
  | .ok (out, finished, processed) =>
      if !finished || processed != n then
        .error s!"pco decompress of {what}: stream holds {processed} values, expected {n}"
      else .ok out

/-- A header with too many entries is refused. -/
def checkEntryCount (n : Nat) (what : String) : Except String Unit :=
  rejectIf (maxBlockEntries < n) s!"{what}: entry count {n} exceeds limit {maxBlockEntries}"

/-- A length that has to fit into four bytes. -/
def u32Len (len : Nat) (what : String) : Except String Nat :=
  if len ≤ u32Max then .ok len else .error s!"{what}: {len} byte(s) exceeds u32::MAX"

/-- A count that the bytes at hand cannot hold is refused. -/
def validateMinimumEncodedLen (count width available : Nat) (what : String) :
    Except String Unit :=
  let minimum := count * width
  rejectIf (available < minimum)
    s!"{what}: {count} entries require at least {minimum} bytes, but only {available} available"

/-! ### Frames -/

/-- One encoded column: the winning strategy's id and its output. -/
structure ColumnEnc where
  encoding : UInt8
  payload : List UInt8

/-- The encoding, the length and the payload of a column. -/
def ColumnEnc.toBytes (e : ColumnEnc) : Except String (List UInt8) := do
  let len ← u32Len e.payload.length "column payload"
  return e.encoding :: (leBytes 4 len ++ e.payload)

/-- The encoding and the payload of a column that ends where its length says. -/
def readColumnFrame (bytes : List UInt8) (what : String) : Except String (UInt8 × List UInt8) :=
  Reader.run bytes do
    let enc ← u8 what
    let len ← u32 what
    let payload ← take len what
    let left ← remaining
    rejectIf (left ≠ 0) s!"{what}: {left} trailing byte(s) after column payload"
    return (enc, payload)

/-! ### Integer columns -/

/-- The first value, then wrapping differences. -/
def deltas (prev : Int64) : List Int64 → List Int64
  | [] => []
  | v :: vs => (v - prev) :: deltas v vs

/-- The running wrapping sum that inverts `deltas`. -/
def undelta (prev : Int64) : List Int64 → List Int64
  | [] => []
  | d :: ds => (prev + d) :: undelta (prev + d) ds

/-- Integers in eight bytes each. -/
def i64sToLeBytes (values : List Int64) : List UInt8 :=
  values.flatMap i64Le

/-- Differences in the encoding that is smaller on a sample. -/
def encodeI64 (values : List Int64) (level : Int) : Except String ColumnEnc := do
  if values.isEmpty then
    return ⟨encI64DeltaZstd, ← zstdCompress c [] level⟩
  let ds := deltas 0 values
  let sample := ds.take sampleLen
  let sampleIsAll := sample.length == ds.length
  let pcoSample ← pcoCompress c sample
  let zstdSample ← zstdCompress c (i64sToLeBytes sample) level
  -- ties go to zstd
  if pcoSample.length < zstdSample.length then
    let payload ← if sampleIsAll then pure pcoSample else pcoCompress c ds
    return ⟨encI64DeltaPco, payload⟩
  else
    let payload ← if sampleIsAll then pure zstdSample else zstdCompress c (i64sToLeBytes ds) level
    return ⟨encI64DeltaZstd, payload⟩

/-- The choice between two compressors of a non-empty column: both encode a sample, and the one whose
sample is smaller encodes the column. -/
def encodeAdaptive {α : Type} (pco zstd : List α → Except String (List UInt8)) (pcoId zstdId : UInt8)
    (values : List α) : Except String ColumnEnc := do
  let sample := values.take sampleLen
  let sampleIsAll := sample.length == values.length
  let pcoSample ← pco sample
  let zstdSample ← zstd sample
  -- ties go to zstd
  if pcoSample.length < zstdSample.length then
    let payload ← if sampleIsAll then pure pcoSample else pco values
    return ⟨pcoId, payload⟩
  else
    let payload ← if sampleIsAll then pure zstdSample else zstd values
    return ⟨zstdId, payload⟩

/-- The integers of a column. -/
def decodeI64 (bytes : List UInt8) (n : Nat) : Except String (List Int64) := do
  let (enc, payload) ← readColumnFrame bytes "i64 column"
  let ds ←
    if enc = encI64DeltaPco then pcoDecompressCapped c payload n "i64 column"
    else if enc = encI64DeltaZstd then do
      let raw ← zstdDecompressCapped c payload "i64 column" (n * 8)
      let len := raw.length
      rejectIf (len % 8 ≠ 0) s!"i64 column: {len} bytes is not a multiple of 8"
      pure ((chunksExact 8 raw).map i64OfLe)
    else throw s!"i64 column: unknown encoding id {enc}"
  let got := ds.length
  rejectIf (got ≠ n) s!"i64 column: decoded {got} values, expected {n}"
  return undelta 0 ds

/-! ### Run lengths -/

/-- Run-length pairs of `run` copies of `cur` followed by a list; a run stops at `u32::MAX`. -/
def rle {α : Type} [BEq α] (cur : α) (run : Nat) : List α → List (Nat × α)
  | [] => [(run, cur)]
  | v :: vs => if v == cur && run < u32Max then rle cur (run + 1) vs else (run, cur) :: rle v 1 vs

/-- The values a list of runs stands for. -/
def expand {α : Type} (runs : List (Nat × α)) : List α :=
  runs.flatMap fun r => List.replicate r.1 r.2

/-! ### String columns -/

/-- The order of `str`: by bytes, which for UTF-8 is by code points. -/
def textLe : Text → Text → Bool
  | [], _ => true
  | _ :: _, [] => false
  | a :: s, b :: t => a.toNat < b.toNat || (a == b && textLe s t)

/-- The distinct strings in order: the keys of the encoder's `BTreeMap`. -/
def sortedKeys (strs : List Text) : List Text :=
  strs.dedup.insertionSort fun a b => textLe a b = true

/-- Strings written one after another, each behind its length. -/
def concatPrefixed (tooLong : String) : List Text → Except String (List UInt8)
  | [] => .ok []
  | s :: ss => do
      rejectIf (u32Max < (utf8 s).length) tooLong
      let rest ← concatPrefixed tooLong ss
      return lenPrefixed s ++ rest

/-- Whether the sample's distinct strings are few enough for a dictionary. -/
def dictWorthy (strs : List Text) : Bool :=
  let sample := strs.take sampleLen
  sample.dedup.length * 8 ≤ sample.length * 1

/-- A run of one dictionary code, as two four-byte numbers. -/
def codeRunBytes (r : Nat × Nat) : List UInt8 :=
  leBytes 4 r.1 ++ leBytes 4 r.2

/-- The runs of dictionary codes of a column. -/
def codeRuns (strs : List Text) : List (Nat × Nat) :=
  match strs.map fun s => (sortedKeys strs).idxOf s with
  | [] => []
  | code :: codes => rle code 1 codes

/-- Texts with a dictionary if it pays, else one after another. -/
def encodeStr (strs : List Text) (n : Nat) (level : Int) : Except String ColumnEnc := do
  let got := strs.length
  rejectIf (got ≠ n) s!"encode_str: iterator yielded {got} strings, caller said {n}"
  if n = 0 then
    return ⟨encStrZstd, ← zstdCompress c [] level⟩
  if dictWorthy strs then
    let table := sortedKeys strs
    rejectIf (u32Max < table.length) "encode_str: more than u32::MAX distinct strings"
    let dictBlob ← concatPrefixed "encode_str: string longer than u32::MAX bytes" table
    let dictZstd ← zstdCompress c dictBlob level
    let codesZstd ← zstdCompress c ((codeRuns strs).flatMap codeRunBytes) level
    let count ← u32Len table.length "encode_str: dict entry count"
    let dictLen ← u32Len dictZstd.length "encode_str: dictionary"
    return ⟨encStrDict, leBytes 4 count ++ (leBytes 4 dictLen ++ (dictZstd ++ codesZstd))⟩
  else
    let concat ← concatPrefixed "encode_str: string longer than u32::MAX bytes" strs
    return ⟨encStrZstd, ← zstdCompress c concat level⟩

/-- The dictionary strategy's payload, taken apart: entry count, dictionary and codes. -/
def readDictPayload (payload : List UInt8) : Except String (Nat × List UInt8 × List UInt8) :=
  Reader.run payload do
    let dictCount ← u32 "dict count"
    let dictZstdLen ← u32 "dict zstd length"
    let dictZstd ← take dictZstdLen "dict bytes"
    let codesZstd ← take (← remaining) "code bytes"
    return (dictCount, dictZstd, codesZstd)

/-- The dictionary's entries. -/
def readDict (dictCount : Nat) (dictRaw : List UInt8) : Except String (List Text) :=
  Reader.run dictRaw do
    let dict ← readTexts "dict entry length" "dict entry bytes"
      (fun i => s!"string column: dict entry {i} is not valid UTF-8") dictCount 0
    let left ← remaining
    rejectIf (left ≠ 0) "string column: trailing bytes in dictionary"
    return dict

/-- The `(run, code)` pairs of a code stream. -/
def readCodeRuns (codesRaw : List UInt8) : Except String (List (Nat × Nat)) := do
  rejectIf (codesRaw.length % 8 ≠ 0) "string column: RLE stream is not (u32,u32) pairs"
  return (chunksExact 8 codesRaw).map fun pair => (leNat (pair.take 4), leNat (pair.drop 4))

/-- Every run is positive, names a dictionary entry and stays within the count; returns the sum. -/
def checkCodeRuns (dictLen n : Nat) : (expanded : Nat) → List (Nat × Nat) → Except String Nat
  | expanded, [] => .ok expanded
  | expanded, (run, code) :: pairs => do
      rejectIf (dictLen ≤ code) s!"string column: code {code} out of range (dict has {dictLen})"
      rejectIf (run = 0 ∨ n < expanded + run)
        s!"string column: RLE runs sum past expected count {n}"
      checkCodeRuns dictLen n (expanded + run) pairs

/-- The texts of a column. -/
def decodeStr (bytes : List UInt8) (n : Nat) : Except String (List Text) := do
  let (enc, payload) ← readColumnFrame bytes "string column"
  if enc = encStrZstd then
    let raw ← zstdDecompressCapped c payload "string column" decompressMaxBytes
    validateMinimumEncodedLen n 4 raw.length "string column"
    Reader.run raw do
      let out ← readTexts "string length" "string bytes"
        (fun i => s!"string column: value {i} is not valid UTF-8") n 0
      let left ← remaining
      rejectIf (left ≠ 0) "string column: trailing bytes after last string"
      return out
  else if enc = encStrDict then
    let (dictCount, dictZstd, codesZstd) ← readDictPayload payload
    let dictRaw ← zstdDecompressCapped c dictZstd "string dictionary" decompressMaxBytes
    validateMinimumEncodedLen dictCount 4 dictRaw.length "string dictionary"
    let dict ← readDict dictCount dictRaw
    let codesRaw ← zstdDecompressCapped c codesZstd "string codes" decompressMaxBytes
    let pairs ← readCodeRuns codesRaw
    let expanded ← checkCodeRuns dict.length n 0 pairs
    rejectIf (expanded ≠ n) s!"string column: RLE expanded to {expanded} values, expected {n}"
    return (expand pairs).map fun code => dict.getD code []
  else throw s!"string column: unknown encoding id {enc}"

/-! ### Byte columns -/

/-- A run of one byte value. -/
def byteRunBytes (r : Nat × UInt8) : List UInt8 :=
  leBytes 4 r.1 ++ [r.2]

/-- Bytes in runs if that is not longer. -/
def encodeU8 (values : List UInt8) (level : Int) : Except String ColumnEnc :=
  match values with
  | [] => return ⟨encU8Zstd, ← zstdCompress c [] level⟩
  | v :: vs => do
      let pairs := (rle v 1 vs).flatMap byteRunBytes
      let zstdPayload ← zstdCompress c values level
      if pairs.length ≤ zstdPayload.length then
        return ⟨encU8Rle, pairs⟩
      else
        return ⟨encU8Zstd, zstdPayload⟩

/-- Append each run while it stays within the expected count. -/
def expandByteRuns (n : Nat) : (out : List UInt8) → List (Nat × UInt8) → Except String (List UInt8)
  | out, [] => .ok out
  | out, (run, val) :: pairs => do
      rejectIf (run = 0 ∨ n < out.length + run)
        s!"u8 column: RLE runs sum past expected count {n}"
      expandByteRuns n (out ++ List.replicate run val) pairs

/-- The bytes of a column. -/
def decodeU8 (bytes : List UInt8) (n : Nat) : Except String (List UInt8) := do
  let (enc, payload) ← readColumnFrame bytes "u8 column"
  if enc = encU8Rle then
    rejectIf (payload.length % 5 ≠ 0) "u8 column: RLE stream is not (u32,u8) pairs"
    let out ← expandByteRuns n []
      ((chunksExact 5 payload).map fun pair => (leNat (pair.take 4), pair.getD 4 0))
    let got := out.length
    rejectIf (got ≠ n) s!"u8 column: RLE expanded to {got} values, expected {n}"
    return out
  else if enc = encU8Zstd then
    let raw ← zstdDecompressCapped c payload "u8 column" n
    let got := raw.length
    rejectIf (got ≠ n) s!"u8 column: {got} bytes, expected {n}"
    return raw
  else throw s!"u8 column: unknown encoding id {enc}"

/-! ### Columns of fixed width -/

/-- A column of values of one width. -/
def encodeFixedBytes (data : List UInt8) (width : Nat) (level : Int) :
    Except String ColumnEnc := do
  rejectIf (width = 0) "encode_fixed_bytes: width must be > 0"
  let len := data.length
  rejectIf (len % width ≠ 0) s!"encode_fixed_bytes: {len} bytes is not a multiple of width {width}"
  return ⟨encFixedZstd, ← zstdCompress c data level⟩

/-- The bytes of a column of values of one width. -/
def decodeFixedBytes (bytes : List UInt8) (n width : Nat) : Except String (List UInt8) := do
  let (enc, payload) ← readColumnFrame bytes "fixed-bytes column"
  if enc = encFixedZstd then
    let want := n * width
    let raw ← zstdDecompressCapped c payload "fixed-bytes column" want
    let got := raw.length
    rejectIf (got ≠ want)
      s!"fixed-bytes column: {got} bytes, expected {want} ({n} x {width})"
    return raw
  else throw s!"fixed-bytes column: unknown encoding id {enc}"

/-! ### Reading frames back -/

variable {c} {data z payload : List UInt8} {cap n : Nat} {what : String} {α : Type}

theorem zstd_roundtrip (hc : c.Lossless) {level : Int} (h : zstdCompress c data level = .ok z)
    (what : String) (hcap : data.length ≤ cap) : zstdDecompressCapped c z what cap = .ok data := by
  rw [zstdCompress, mapError_eq_ok] at h
  rw [zstdDecompressCapped, mapError_eq_ok]
  exact hc.zstd h cap hcap

theorem zstd_over (hc : c.Lossless) {level : Int} (h : zstdCompress c data level = .ok z)
    (what : String) (hcap : cap < data.length) :
    ∃ e, zstdDecompressCapped c z what cap = .error e := by
  rw [zstdCompress, mapError_eq_ok] at h
  exact mapError_error _ (hc.zstd_over h cap hcap)

theorem pco_roundtrip (hc : c.Lossless) {nums : List Int64} (h : pcoCompress c nums = .ok z)
    (what : String) :
    pcoDecompressCapped c z nums.length what = .ok nums := by
  rw [pcoCompress, mapError_eq_ok] at h
  simp [pcoDecompressCapped, hc.pco h]

theorem u32Len_eq_ok {len : Nat} :
    u32Len len what = .ok n ↔ len ≤ u32Max ∧ n = len := by
  unfold u32Len
  split_ifs with h
  · simp [h, eq_comm]
  · simp [h]

variable {e : ColumnEnc} {level : Int} {b : List UInt8} {strs : List Text}

theorem toBytes_eq_ok :
    e.toBytes = .ok b ↔
      e.payload.length ≤ u32Max ∧ b = e.encoding :: (leBytes 4 e.payload.length ++ e.payload) := by
  simp only [ColumnEnc.toBytes, bind_eq_ok, u32Len_eq_ok]
  constructor
  · rintro ⟨n, ⟨hle, rfl⟩, h⟩
    exact ⟨hle, by simpa using h.symm⟩
  · rintro ⟨hle, rfl⟩
    exact ⟨_, ⟨hle, rfl⟩, rfl⟩

theorem readColumnFrame_toBytes (h : e.toBytes = .ok b) (what : String) :
    readColumnFrame b what = .ok (e.encoding, e.payload) := by
  obtain ⟨hlen, rfl⟩ := toBytes_eq_ok.mp h
  have hlt : e.payload.length < 2 ^ 32 := by unfold u32Max at hlen; omega
  refine Reads.run ?_
  rw [← List.singleton_append]
  refine (reads_u8 e.encoding what _).bind ?_
  refine (reads_u32 hlt what _).bind ?_
  rw [← List.append_nil e.payload]
  refine (reads_take (by simp) what _).bind ?_
  rw [List.append_nil]
  exact reads_end (e.encoding, e.payload) _

variable {bytes : List UInt8}

/-- A frame is accepted exactly if it is one that is written. -/
theorem readColumnFrame_eq_ok {enc : UInt8} :
    readColumnFrame bytes what = .ok (enc, payload) ↔
      ColumnEnc.toBytes ⟨enc, payload⟩ = .ok bytes := by
  refine ⟨fun h => ?_, fun h => readColumnFrame_toBytes h what⟩
  obtain ⟨r, h⟩ := run_eq_ok.mp h
  obtain ⟨enc', r₁, henc, h⟩ := of_read h
  obtain ⟨len, r₂, hlen, h⟩ := of_read h
  obtain ⟨payload', r₃, hpayload, h⟩ := of_read h
  obtain ⟨heq, hend⟩ := end_eq_ok h
  obtain ⟨rfl, rfl⟩ := Prod.mk.inj heq
  obtain ⟨hlt, hrest⟩ := u32_eq_ok hlen
  obtain ⟨rfl, hrest'⟩ := take_eq_ok hpayload
  have hbytes : bytes = enc' :: r₁.rest := u8_eq_ok henc
  refine toBytes_eq_ok.mpr ⟨Nat.le_of_lt_succ hlt, ?_⟩
  rw [hbytes, hrest, hrest', hend, List.append_nil]

/-! ### Integer columns come back -/

theorem length_deltas (prev : Int64) (vs : List Int64) : (deltas prev vs).length = vs.length := by
  induction vs generalizing prev with
  | nil => rfl
  | cons v vs ih => simp [deltas, ih]

theorem undelta_deltas (prev : Int64) (vs : List Int64) : undelta prev (deltas prev vs) = vs := by
  induction vs generalizing prev with
  | nil => rfl
  | cons v vs ih =>
      have hv : prev + (v - prev) = v := by rw [Int64.add_comm, Int64.sub_add_cancel]
      simp [deltas, undelta, hv, ih]

theorem length_i64sToLeBytes (vs : List Int64) : (i64sToLeBytes vs).length = vs.length * 8 :=
  length_flatMap_const length_i64Le vs

/-- What is chosen is one of the two compressors' output for the whole column. -/
theorem encodeAdaptive_ok {pco zstd : List α → Except String (List UInt8)} {pcoId zstdId : UInt8}
    {values : List α} (h : encodeAdaptive pco zstd pcoId zstdId values = .ok e) :
    (e.encoding = pcoId ∧ pco values = .ok e.payload) ∨
      (e.encoding = zstdId ∧ zstd values = .ok e.payload) := by
  obtain ⟨pcoSample, hp, h⟩ := of_bind h
  obtain ⟨zstdSample, hz, h⟩ := of_bind h
  -- when the sample is the column, its encoding is reused
  have hall : (values.take sampleLen).length = values.length → values.take sampleLen = values :=
    fun hlen => List.IsPrefix.eq_of_length (List.take_prefix _ _) hlen
  split_ifs at h with hlt hsame hsame
  · obtain ⟨rfl⟩ := Except.ok.inj h
    exact .inl ⟨rfl, hall (by simpa using hsame) ▸ hp⟩
  · obtain ⟨z, hz', rfl⟩ := bind_pure_eq_ok.mp h
    exact .inl ⟨rfl, hz'⟩
  · obtain ⟨rfl⟩ := Except.ok.inj h
    exact .inr ⟨rfl, hall (by simpa using hsame) ▸ hz⟩
  · obtain ⟨z, hz', rfl⟩ := bind_pure_eq_ok.mp h
    exact .inr ⟨rfl, hz'⟩

theorem encodeI64_ok {values : List Int64} (h : encodeI64 c values level = .ok e) :
    (e.encoding = encI64DeltaPco ∧ pcoCompress c (deltas 0 values) = .ok e.payload) ∨
      (e.encoding = encI64DeltaZstd ∧
        zstdCompress c (i64sToLeBytes (deltas 0 values)) level = .ok e.payload) := by
  unfold encodeI64 at h
  by_cases hemp : values.isEmpty = true
  · obtain rfl : values = [] := by simpa using hemp
    simp only [List.isEmpty_nil, if_true, bind_eq_ok, pure_eq_ok, Except.ok.injEq] at h
    obtain ⟨z, hz, rfl⟩ := h
    exact .inr ⟨rfl, hz⟩
  · rw [if_neg hemp] at h
    have hadaptive : encodeAdaptive (pcoCompress c)
        (fun ds => zstdCompress c (i64sToLeBytes ds) level) encI64DeltaPco encI64DeltaZstd
        (deltas 0 values) = .ok e := h
    exact encodeAdaptive_ok hadaptive

/-- **Integer columns.** Whichever strategy won, the column comes back. -/
theorem decodeI64_encodeI64 (hc : c.Lossless) {values : List Int64}
    (he : encodeI64 c values level = .ok e) (hb : e.toBytes = .ok b) :
    decodeI64 c b values.length = .ok values := by
  have hlen : (deltas 0 values).length = values.length := length_deltas 0 values
  simp only [decodeI64, readColumnFrame_toBytes hb, ok_bind]
  rcases encodeI64_ok he with ⟨henc, hp⟩ | ⟨henc, hz⟩
  · rw [if_pos henc, ← hlen, pco_roundtrip hc hp]
    simp [undelta_deltas]
  · have hcap : (i64sToLeBytes (deltas 0 values)).length ≤ values.length * 8 := by
      rw [length_i64sToLeBytes, hlen]
    have hne : e.encoding ≠ encI64DeltaPco := by rw [henc]; decide
    rw [if_neg hne, if_pos henc, zstd_roundtrip hc hz _ hcap]
    have hmod : (i64sToLeBytes (deltas 0 values)).length % 8 = 0 := by
      rw [length_i64sToLeBytes, Nat.mul_mod_left]
    have hback : (chunksExact 8 (i64sToLeBytes (deltas 0 values))).map i64OfLe = deltas 0 values :=
      i64s_back _
    simp only [ok_bind, pure_eq_ok, ne_eq, hmod, hback, hlen, undelta_deltas, not_true_eq_false,
      rejectIf_neg, not_false_eq_true]

/-! ### Runs come back -/

theorem expand_rle [BEq α] [LawfulBEq α] (cur : α) (run : Nat) (vs : List α) :
    expand (rle cur run vs) = List.replicate run cur ++ vs := by
  induction vs generalizing cur run with
  | nil => simp [rle, expand]
  | cons v vs ih =>
      rw [rle]
      split_ifs with h
      · obtain ⟨rfl, -⟩ : v = cur ∧ run < u32Max := by simpa using h
        rw [ih, List.replicate_succ', List.append_assoc, List.singleton_append]
      · have hcons : expand ((run, cur) :: rle v 1 vs)
            = List.replicate run cur ++ expand (rle v 1 vs) := by simp [expand]
        rw [hcons, ih]
        simp

theorem rle_bounds [BEq α] [LawfulBEq α] {cur : α} {run : Nat} {vs : List α} (hpos : 0 < run)
    (hmax : run ≤ u32Max) :
    ∀ r ∈ rle cur run vs, 0 < r.1 ∧ r.1 ≤ u32Max ∧ r.2 ∈ cur :: vs := by
  induction vs generalizing cur run with
  | nil => simp [rle, hpos, hmax]
  | cons v vs ih =>
      rw [rle]
      split_ifs with h
      · obtain ⟨rfl, hlt⟩ : v = cur ∧ run < u32Max := by simpa using h
        intro r hr
        obtain ⟨h₁, h₂, h₃⟩ := ih (Nat.succ_pos run) hlt r hr
        exact ⟨h₁, h₂, List.mem_cons_of_mem _ h₃⟩
      · rw [List.forall_mem_cons]
        refine ⟨⟨hpos, hmax, by simp⟩, fun r hr => ?_⟩
        obtain ⟨h₁, h₂, h₃⟩ := ih Nat.one_pos (by decide) r hr
        exact ⟨h₁, h₂, List.mem_cons_of_mem _ h₃⟩

theorem expand_cons (r : Nat × α) (rs : List (Nat × α)) :
    expand (r :: rs) = List.replicate r.1 r.2 ++ expand rs := by
  simp [expand]

/-! ### Byte columns come back -/

variable {n : Nat} {pairs : List (Nat × Nat)}

theorem expandByteRuns_eq {out : List UInt8} {pairs : List (Nat × UInt8)}
    (hpos : ∀ r ∈ pairs, 0 < r.1) (hn : (out ++ expand pairs).length ≤ n) :
    expandByteRuns n out pairs = .ok (out ++ expand pairs) := by
  induction pairs generalizing out with
  | nil => simp [expandByteRuns, expand]
  | cons r pairs ih =>
      obtain ⟨run, val⟩ := r
      rw [expand_cons, ← List.append_assoc] at hn ⊢
      have hrun : ¬(run = 0 ∨ n < out.length + run) := by
        have := hpos (run, val) List.mem_cons_self
        simp at hn this
        omega
      rw [expandByteRuns, rejectIf_neg hrun, ok_bind]
      exact ih (fun r hr => hpos r (List.mem_cons_of_mem _ hr)) hn

theorem chunks_byteRuns {pairs : List (Nat × UInt8)} (hmax : ∀ r ∈ pairs, r.1 ≤ u32Max) :
    (chunksExact 5 (pairs.flatMap byteRunBytes)).map
      (fun pair => (leNat (pair.take 4), pair.getD 4 0)) = pairs := by
  rw [chunksExact_flatMap (by decide) (by simp [byteRunBytes]), List.map_map]
  conv_rhs => rw [← List.map_id pairs]
  refine List.map_congr_left fun r hr => ?_
  have hlt : r.1 < 256 ^ 4 := by have := hmax r hr; unfold u32Max at this; omega
  simp [byteRunBytes, leNat_leBytes hlt]

/-- **Byte columns.** Whichever strategy won, the column comes back. -/
theorem decodeU8_encodeU8 (hc : c.Lossless) {values : List UInt8}
    (he : encodeU8 c values level = .ok e) (hb : e.toBytes = .ok b) :
    decodeU8 c b values.length = .ok values := by
  have hzstd : ∀ z, zstdCompress c values level = .ok z → e = ⟨encU8Zstd, z⟩ →
      decodeU8 c b values.length = .ok values := by
    rintro z hz rfl
    have hne : encU8Zstd ≠ encU8Rle := by decide
    simp only [decodeU8, readColumnFrame_toBytes hb, ok_bind, if_neg hne, if_true,
      zstd_roundtrip hc hz _ (le_refl _)]
    simp
  cases values with
  | nil =>
      obtain ⟨z, hz, h⟩ := of_bind he
      exact hzstd z hz (Except.ok.inj h).symm
  | cons v vs =>
      obtain ⟨z, hz, h⟩ := of_bind he
      split_ifs at h with hle
      · obtain ⟨rfl⟩ := Except.ok.inj h
        have hb' : ∀ r ∈ rle v 1 vs, 0 < r.1 ∧ r.1 ≤ u32Max ∧ r.2 ∈ v :: vs :=
          rle_bounds Nat.one_pos (by decide)
        have hmod : ((rle v 1 vs).flatMap byteRunBytes).length % 5 = 0 := by
          rw [length_flatMap_const (k := 5) (by simp [byteRunBytes]), Nat.mul_mod_left]
        have hexp : expand (rle v 1 vs) = v :: vs := expand_rle v 1 vs
        simp only [decodeU8, readColumnFrame_toBytes hb, ok_bind, if_true, ne_eq, hmod,
          not_true_eq_false, not_false_eq_true, rejectIf_neg,
          chunks_byteRuns fun r hr => (hb' r hr).2.1]
        rw [expandByteRuns_eq (fun r hr => (hb' r hr).1) (by simp [hexp])]
        simp [hexp]
      · exact hzstd z hz (Except.ok.inj h).symm

/-- **Columns of fixed width** come back. -/
theorem decodeFixedBytes_encodeFixedBytes (hc : c.Lossless) {width : Nat}
    (he : encodeFixedBytes c data width level = .ok e) (hb : e.toBytes = .ok b)
    (hlen : data.length = n * width) :
    decodeFixedBytes c b n width = .ok data := by
  obtain ⟨-, he⟩ := rejectIf_bind_eq_ok.mp he
  obtain ⟨-, he⟩ := rejectIf_bind_eq_ok.mp he
  obtain ⟨z, hz, rfl⟩ := bind_pure_eq_ok.mp he
  rw [decodeFixedBytes, readColumnFrame_toBytes hb, ok_bind]
  dsimp only
  rw [if_pos rfl, zstd_roundtrip hc hz _ hlen.le, ok_bind, rejectIf_neg (by simp [hlen]), ok_bind]
  rfl

/-! ### String columns come back -/

/-- Whether the encoder stores a column as dictionary and codes. -/
def usesDict (strs : List Text) : Bool :=
  !strs.isEmpty && dictWorthy strs

/-- The uncompressed parts of a string column are within the decoder's cap. -/
def StrColumnFits (strs : List Text) : Prop :=
  if usesDict strs = true then
    ((sortedKeys strs).flatMap lenPrefixed).length ≤ decompressMaxBytes ∧
      ((codeRuns strs).flatMap codeRunBytes).length ≤ decompressMaxBytes
  else (strs.flatMap lenPrefixed).length ≤ decompressMaxBytes

instance (strs : List Text) : Decidable (StrColumnFits strs) := by
  unfold StrColumnFits
  infer_instance

theorem concatPrefixed_eq_ok {tooLong : String} {ss : List Text} :
    concatPrefixed tooLong ss = .ok b ↔
      (∀ s ∈ ss, (utf8 s).length ≤ u32Max) ∧ b = ss.flatMap lenPrefixed := by
  induction ss generalizing b with
  | nil => simp [concatPrefixed, eq_comm]
  | cons s ss ih =>
      rw [concatPrefixed, rejectIf_bind_eq_ok, bind_eq_ok, not_lt]
      simp only [ih, List.forall_mem_cons, List.flatMap_cons]
      constructor
      · rintro ⟨hs, rest, ⟨hss, rfl⟩, hb⟩
        exact ⟨⟨hs, hss⟩, (Except.ok.inj hb).symm⟩
      · rintro ⟨⟨hs, hss⟩, rfl⟩
        exact ⟨hs, _, ⟨hss, rfl⟩, rfl⟩

/-- A column stored as dictionary and codes. -/
structure DictStored (c : Compressors) (strs : List Text) (level : Int) (e : ColumnEnc) : Prop where
  count_le : (sortedKeys strs).length ≤ u32Max
  key_le : ∀ s ∈ sortedKeys strs, (utf8 s).length ≤ u32Max
  parts : ∃ dictZstd codesZstd,
    zstdCompress c ((sortedKeys strs).flatMap lenPrefixed) level = .ok dictZstd ∧
    zstdCompress c ((codeRuns strs).flatMap codeRunBytes) level = .ok codesZstd ∧
    dictZstd.length ≤ u32Max ∧
    e = ⟨encStrDict, leBytes 4 (sortedKeys strs).length ++
      (leBytes 4 dictZstd.length ++ (dictZstd ++ codesZstd))⟩

/-- A column stored as one compressed concatenation. -/
structure ConcatStored (c : Compressors) (strs : List Text) (level : Int) (e : ColumnEnc) :
    Prop where
  str_le : ∀ s ∈ strs, (utf8 s).length ≤ u32Max
  encoding : e.encoding = encStrZstd
  payload : zstdCompress c (strs.flatMap lenPrefixed) level = .ok e.payload

theorem encodeStr_ok (h : encodeStr c strs n level = .ok e) :
    strs.length = n ∧ ((usesDict strs = true ∧ DictStored c strs level e) ∨
      (usesDict strs = false ∧ ConcatStored c strs level e)) := by
  replace h := rejectIf_bind_eq_ok.mp h
  obtain ⟨hn, h⟩ := h
  have hlen : strs.length = n := by simpa using hn
  refine ⟨hlen, ?_⟩
  split_ifs at h with h0 hd
  · -- no strings: an empty concatenation
    obtain rfl : strs = [] := List.length_eq_zero_iff.mp (hlen.trans h0)
    obtain ⟨z, hz, rfl⟩ := bind_pure_eq_ok.mp h
    exact .inr ⟨rfl, ⟨by simp, rfl, hz⟩⟩
  · have hne : strs.isEmpty = false := by
      rw [List.isEmpty_eq_false_iff, ← List.length_pos_iff]; omega
    obtain ⟨-, h⟩ := rejectIf_bind_eq_ok.mp h
    obtain ⟨blob, hblob, h⟩ := of_bind h
    obtain ⟨dz, hdz, h⟩ := of_bind h
    obtain ⟨cz, hcz, h⟩ := of_bind h
    obtain ⟨cnt, hcnt, h⟩ := of_bind h
    obtain ⟨dl, hdl, h⟩ := of_bind h
    obtain ⟨hkeys, rfl⟩ := concatPrefixed_eq_ok.mp hblob
    obtain ⟨hcount, rfl⟩ := u32Len_eq_ok.mp hcnt
    obtain ⟨hdlen, rfl⟩ := u32Len_eq_ok.mp hdl
    obtain ⟨rfl⟩ := Except.ok.inj h
    exact .inl ⟨by simp [usesDict, hne, hd], hcount, hkeys, dz, cz, hdz, hcz, hdlen, rfl⟩
  · obtain ⟨blob, hblob, h₁⟩ := of_bind h
    obtain ⟨z, hz, h₂⟩ := of_bind h₁
    obtain ⟨hstrs, rfl⟩ := concatPrefixed_eq_ok.mp hblob
    obtain ⟨rfl⟩ := Except.ok.inj h₂
    exact .inr ⟨by simp [usesDict, hd], ⟨hstrs, rfl, hz⟩⟩

theorem lt_of_le_u32Max (h : n ≤ u32Max) : n < 2 ^ 32 := by
  unfold u32Max at h
  omega

/-- Strings behind their lengths are at least their lengths' bytes. -/
theorem validateMinimum_lenPrefixed (ss : List Text) (what : String) :
    validateMinimumEncodedLen ss.length 4 (ss.flatMap lenPrefixed).length what = .ok () := by
  have hmin : ss.length * 4 ≤ (ss.flatMap lenPrefixed).length := by
    induction ss with
    | nil => simp
    | cons s ss ih =>
        simp only [List.length_cons, List.flatMap_cons, List.length_append, lenPrefixed,
          length_leBytes]
        omega
  exact rejectIf_neg (by omega) _

theorem mem_sortedKeys {s : Text} : s ∈ sortedKeys strs ↔ s ∈ strs := by
  rw [sortedKeys, List.mem_insertionSort, List.mem_dedup]

theorem readDictPayload_eq_ok {count : Nat} {dz cz : List UInt8} :
    readDictPayload payload = .ok (count, dz, cz) ↔ count ≤ u32Max ∧ dz.length ≤ u32Max ∧
      payload = leBytes 4 count ++ (leBytes 4 dz.length ++ (dz ++ cz)) := by
  constructor
  · intro h
    obtain ⟨r, h⟩ := run_eq_ok.mp h
    obtain ⟨count', r₁, hcount, h⟩ := of_read h
    obtain ⟨len, r₂, hlen, h⟩ := of_read h
    obtain ⟨dz', r₃, hdz, h⟩ := of_read h
    obtain ⟨left, r₄, hleft, h⟩ := of_read h
    obtain ⟨cz', r₅, hcz, h⟩ := of_read h
    obtain ⟨heq, -⟩ := read_pure_eq_ok.mp h
    simp only [Prod.mk.injEq] at heq
    obtain ⟨rfl, rfl, rfl⟩ := heq
    obtain ⟨hcountLt, hrest⟩ := u32_eq_ok hcount
    obtain ⟨hlenLt, hrest₁⟩ := u32_eq_ok hlen
    obtain ⟨rfl, hrest₂⟩ := take_eq_ok hdz
    obtain ⟨rfl, rfl⟩ := remaining_eq_ok hleft
    obtain ⟨hall, hrest₃⟩ := take_eq_ok hcz
    -- the codes are all that is left
    have hnone : r₅.rest = [] := by
      have hsum := congrArg List.length hrest₃
      rw [List.length_append, hall] at hsum
      exact List.length_eq_zero_iff.mp (by omega)
    have hpayload : payload = leBytes 4 count' ++ r₁.rest := hrest
    refine ⟨Nat.le_of_lt_succ hcountLt, Nat.le_of_lt_succ hlenLt, ?_⟩
    rw [hpayload, hrest₁, hrest₂, hrest₃, hnone, List.append_nil]
  · rintro ⟨hcount, hdz, rfl⟩
    refine Reads.run ?_
    refine (reads_u32 (lt_of_le_u32Max hcount) _ _).bind ?_
    refine (reads_u32 (lt_of_le_u32Max hdz) _ _).bind ?_
    refine (reads_take rfl _ _).bind ?_
    refine (reads_remaining _).bind_nil ?_
    rw [List.append_nil]
    exact (reads_take rfl _ _).map _

variable {notUtf8 : Nat → String}

/-- A buffer of texts and nothing else is read as the texts that were written to it. -/
theorem run_texts_eq_ok {γ : Type} {lenWhat bytesWhat trailing : String} {raw : List UInt8}
    {f : List Text → γ} {out : γ} :
    Reader.run raw (do
        let ts ← readTexts lenWhat bytesWhat notUtf8 n 0
        let left ← remaining
        rejectIf (left ≠ 0) trailing
        return f ts) = .ok out ↔ ∃ ts : List Text, ts.length = n ∧
      (∀ t ∈ ts, (utf8 t).length ≤ u32Max) ∧ raw = ts.flatMap lenPrefixed ∧ f ts = out := by
  constructor
  · intro h
    obtain ⟨r, h⟩ := run_eq_ok.mp h
    obtain ⟨texts, r₁, htexts, h⟩ := of_read h
    obtain ⟨hout, hend⟩ := end_eq_ok (e := fun _ => trailing) h
    obtain ⟨hlen, hshort, hrest⟩ := readTexts_eq_ok htexts
    rw [hend, List.append_nil] at hrest
    exact ⟨texts, hlen, fun t ht => Nat.le_of_lt_succ (hshort t ht), hrest, hout⟩
  · rintro ⟨ts, rfl, hshort, rfl, rfl⟩
    refine Reads.run ?_
    have h := reads_texts lenWhat bytesWhat notUtf8
      (fun t ht => lt_of_le_u32Max (hshort t ht)) 0 []
    rw [← List.append_nil (ts.flatMap lenPrefixed)]
    exact h.bind (reads_end (f ts) _)

theorem readDict_eq_ok {count : Nat} {dictRaw : List UInt8} {dict : List Text} :
    readDict count dictRaw = .ok dict ↔ dict.length = count ∧
      (∀ s ∈ dict, (utf8 s).length ≤ u32Max) ∧ dictRaw = dict.flatMap lenPrefixed := by
  rw [readDict, run_texts_eq_ok (f := fun ts => ts)]
  simp only [← and_assoc, exists_eq_right]

theorem readCodeRuns_eq_ok {codesRaw : List UInt8} :
    readCodeRuns codesRaw = .ok pairs ↔ (∀ r ∈ pairs, r.1 ≤ u32Max ∧ r.2 ≤ u32Max) ∧
      codesRaw = pairs.flatMap codeRunBytes := by
  have hwidth : ∀ r, (codeRunBytes r).length = 8 := by simp [codeRunBytes]
  rw [readCodeRuns, rejectIf_bind_eq_ok, not_not, pure_eq_ok, Except.ok.injEq]
  constructor
  · rintro ⟨hmod, rfl⟩
    have hhalf : ∀ b ∈ chunksExact 8 codesRaw, (b.take 4).length = 4 ∧ (b.drop 4).length = 4 := by
      intro b hb
      rw [List.length_take, List.length_drop, length_of_mem_chunksExact hb]
      decide
    constructor
    · intro r hr
      obtain ⟨b, hb, rfl⟩ := List.mem_map.mp hr
      have hlow := leNat_lt (b.take 4)
      have hhigh := leNat_lt (b.drop 4)
      rw [(hhalf b hb).1] at hlow
      rw [(hhalf b hb).2] at hhigh
      exact ⟨Nat.le_of_lt_succ hlow, Nat.le_of_lt_succ hhigh⟩
    · rw [List.flatMap_map]
      conv_lhs => rw [← flatten_chunksExact hmod, ← List.flatMap_id']
      refine List.flatMap_congr fun b hb => ?_
      have hlow := leBytes_leNat (b.take 4)
      have hhigh := leBytes_leNat (b.drop 4)
      rw [(hhalf b hb).1] at hlow
      rw [(hhalf b hb).2] at hhigh
      rw [codeRunBytes, hlow, hhigh, List.take_append_drop]
  · rintro ⟨hmax, rfl⟩
    refine ⟨by rw [length_flatMap_const hwidth, Nat.mul_mod_left], ?_⟩
    rw [chunksExact_flatMap (by decide) hwidth, List.map_map]
    conv_rhs => rw [← List.map_id pairs]
    refine List.map_congr_left fun r hr => ?_
    have h₁ : r.1 < 256 ^ 4 := lt_of_le_u32Max (hmax r hr).1
    have h₂ : r.2 < 256 ^ 4 := lt_of_le_u32Max (hmax r hr).2
    simp [codeRunBytes, leNat_leBytes h₁, leNat_leBytes h₂]

/-- The check passes runs that are positive, name a dictionary entry and stay within the count. -/
theorem checkCodeRuns_eq_ok {dictLen k total : Nat} (hk : k ≤ n) :
    checkCodeRuns dictLen n k pairs = .ok total ↔ (∀ r ∈ pairs, 0 < r.1 ∧ r.2 < dictLen) ∧
      total = k + (expand pairs).length ∧ total ≤ n := by
  induction pairs generalizing k with
  | nil =>
      simp only [checkCodeRuns, Except.ok.injEq, List.not_mem_nil, false_implies, implies_true,
        true_and, expand, List.flatMap_nil, List.length_nil, Nat.add_zero]
      omega
  | cons r pairs ih =>
      obtain ⟨run, code⟩ := r
      rw [checkCodeRuns, rejectIf_bind_eq_ok, rejectIf_bind_eq_ok, List.forall_mem_cons, expand_cons,
        List.length_append, List.length_replicate]
      constructor
      · rintro ⟨hcode, hrun, h⟩
        obtain ⟨hruns, htotal, hle⟩ := (ih (by omega)).mp h
        exact ⟨⟨⟨by dsimp only; omega, not_le.mp hcode⟩, hruns⟩, by dsimp only; omega, hle⟩
      · rintro ⟨⟨⟨hpos, hcode⟩, hruns⟩, htotal, hle⟩
        dsimp only at hpos hcode htotal
        exact ⟨by omega, by omega, (ih (by omega)).mpr ⟨hruns, by omega, hle⟩⟩

/-- The code runs of a column: positive, within four bytes, and naming keys; together they spell
the column. -/
theorem codeRuns_spec (strs : List Text) :
    (∀ r ∈ codeRuns strs, 0 < r.1 ∧ r.1 ≤ u32Max ∧ r.2 < (sortedKeys strs).length) ∧
      expand (codeRuns strs) = strs.map fun s => (sortedKeys strs).idxOf s := by
  have hlt : ∀ code ∈ strs.map (fun s => (sortedKeys strs).idxOf s),
      code < (sortedKeys strs).length := by
    intro code hcode
    obtain ⟨s, hs, rfl⟩ := List.mem_map.mp hcode
    exact List.idxOf_lt_length_iff.mpr (mem_sortedKeys.mpr hs)
  unfold codeRuns
  split
  · next h => exact ⟨by simp, by simp [expand, h]⟩
  · next code codes h =>
      rw [h] at hlt ⊢
      refine ⟨fun r hr => ?_, expand_rle code 1 codes⟩
      obtain ⟨h₁, h₂, h₃⟩ := rle_bounds Nat.one_pos (by decide) r hr
      exact ⟨h₁, h₂, hlt _ h₃⟩

/-- Every code names the key it was taken from. -/
theorem codeRuns_back (strs : List Text) :
    (expand (codeRuns strs)).map (fun code => (sortedKeys strs).getD code []) = strs := by
  rw [(codeRuns_spec strs).2, List.map_map]
  conv_rhs => rw [← List.map_id strs]
  refine List.map_congr_left fun s hs => ?_
  have hlt := List.idxOf_lt_length_iff.mpr (mem_sortedKeys.mpr hs)
  simp [List.getD_eq_getElem?_getD, List.getElem?_eq_getElem hlt]

/-! ### The strings that bytes hold -/

/-- A dictionary and runs of codes, as the payload of a frame. -/
structure HoldsRuns (c : Compressors) (payload : List UInt8) (dict : List Text)
    (pairs : List (Nat × Nat)) : Prop where
  count_le : dict.length ≤ u32Max
  short : ∀ s ∈ dict, (utf8 s).length ≤ u32Max
  runs : ∀ r ∈ pairs, 0 < r.1 ∧ r.1 ≤ u32Max ∧ r.2 < dict.length
  parts : ∃ dictZstd codesZstd, dictZstd.length ≤ u32Max ∧
    payload = leBytes 4 dict.length ++ (leBytes 4 dictZstd.length ++ (dictZstd ++ codesZstd)) ∧
    c.zstdDecompress dictZstd decompressMaxBytes = .ok (dict.flatMap lenPrefixed) ∧
    c.zstdDecompress codesZstd decompressMaxBytes = .ok (pairs.flatMap codeRunBytes)

/-- The strings that framed bytes hold, by layout. -/
inductive HoldsStrings (c : Compressors) (bytes : List UInt8) : List Text → Prop where
  | concat {payload : List UInt8} {strs : List Text}
      (frame : ColumnEnc.toBytes ⟨encStrZstd, payload⟩ = .ok bytes)
      (short : ∀ s ∈ strs, (utf8 s).length ≤ u32Max)
      (raw : c.zstdDecompress payload decompressMaxBytes = .ok (strs.flatMap lenPrefixed)) :
      HoldsStrings c bytes strs
  | dict {payload : List UInt8} {dict : List Text} {pairs : List (Nat × Nat)}
      (frame : ColumnEnc.toBytes ⟨encStrDict, payload⟩ = .ok bytes)
      (runs : HoldsRuns c payload dict pairs) :
      HoldsStrings c bytes ((expand pairs).map fun code => dict.getD code [])

theorem zstdDecompressCapped_eq_ok :
    zstdDecompressCapped c z what cap = .ok data ↔ c.zstdDecompress z cap = .ok data := by
  rw [zstdDecompressCapped, mapError_eq_ok]

/-- A decoder of the dictionary layout gets to its walk over the runs exactly if the payload holds a
dictionary, and has then read it. -/
theorem holdsRuns_iff {dict : List Text} (dictWhat codesWhat : String) :
    HoldsRuns c payload dict pairs ↔ ∃ dz cz dictRaw codesRaw,
      readDictPayload payload = .ok (dict.length, dz, cz) ∧
      zstdDecompressCapped c dz dictWhat decompressMaxBytes = .ok dictRaw ∧
      readDict dict.length dictRaw = .ok dict ∧
      zstdDecompressCapped c cz codesWhat decompressMaxBytes = .ok codesRaw ∧
      readCodeRuns codesRaw = .ok pairs ∧ ∀ r ∈ pairs, 0 < r.1 ∧ r.2 < dict.length := by
  simp only [readDictPayload_eq_ok, zstdDecompressCapped_eq_ok, readDict_eq_ok, readCodeRuns_eq_ok]
  constructor
  · rintro ⟨hcount, hshort, hruns, dz, cz, hdz, hpayload, hdict, hcodes⟩
    refine ⟨dz, cz, _, _, ⟨hcount, hdz, hpayload⟩, hdict, ⟨trivial, hshort, rfl⟩, hcodes,
      ⟨fun r hr => ⟨(hruns r hr).2.1, ?_⟩, rfl⟩, fun r hr => ⟨(hruns r hr).1, (hruns r hr).2.2⟩⟩
    exact (hruns r hr).2.2.le.trans hcount
  · rintro ⟨dz, cz, _, _, ⟨hcount, hdz, hpayload⟩, hdict, ⟨-, hshort, rfl⟩, hcodes, ⟨hmax, rfl⟩,
      hruns⟩
    exact ⟨hcount, hshort, fun r hr => ⟨(hruns r hr).1, (hmax r hr).1, (hruns r hr).2⟩, dz, cz, hdz,
      hpayload, hdict, hcodes⟩

/-- **Decoders of string columns.** A decoder with ways of its own to take the strings one by one and
to walk over the runs of codes answers what both of them say of the strings that the bytes hold. -/
theorem stringColumn_eq_ok {β : Type} {out : β} {Q : List Text → β → Prop}
    {what dictWhat codesWhat : String} {unknown : UInt8 × List UInt8 → String}
    {v : Nat × List UInt8 × List UInt8 → List UInt8 → Except String Unit}
    {p : List UInt8 → Except String β}
    {w : Nat × List UInt8 × List UInt8 → List Text → List (Nat × Nat) → Except String β}
    (hv : ∀ (dict : List Text) z, v (dict.length, z) (dict.flatMap lenPrefixed) = .ok ())
    (hp : ∀ raw, p raw = .ok out ↔ ∃ strs : List Text,
      (∀ s ∈ strs, (utf8 s).length ≤ u32Max) ∧ raw = strs.flatMap lenPrefixed ∧ Q strs out)
    (hw : ∀ dict pairs z, w (dict.length, z) dict pairs = .ok out ↔
      (∀ r ∈ pairs, 0 < r.1 ∧ r.2 < dict.length) ∧
        Q ((expand pairs).map fun code => dict.getD code []) out) :
    (do
      let frame ← readColumnFrame bytes what
      if frame.1 = encStrZstd then
        let raw ← zstdDecompressCapped c frame.2 what decompressMaxBytes
        p raw
      else if frame.1 = encStrDict then
        let parts ← readDictPayload frame.2
        let dictRaw ← zstdDecompressCapped c parts.2.1 dictWhat decompressMaxBytes
        v parts dictRaw
        let dict ← readDict parts.1 dictRaw
        let codesRaw ← zstdDecompressCapped c parts.2.2 codesWhat decompressMaxBytes
        let pairs ← readCodeRuns codesRaw
        w parts dict pairs
      else throw (unknown frame)) = .ok out ↔ ∃ strs, HoldsStrings c bytes strs ∧ Q strs out := by
  constructor
  · intro h
    obtain ⟨⟨enc, payload⟩, hframe, h⟩ := of_bind h
    rw [readColumnFrame_eq_ok] at hframe
    dsimp only at h
    split_ifs at h with hconcat hdict
    · obtain rfl := hconcat
      obtain ⟨raw, hraw, h⟩ := of_bind h
      obtain ⟨strs, hshort, rfl, hQ⟩ := (hp raw).mp h
      exact ⟨strs, .concat hframe hshort (zstdDecompressCapped_eq_ok.mp hraw), hQ⟩
    · obtain rfl := hdict
      obtain ⟨⟨count, dz, cz⟩, hpayload, h⟩ := of_bind h
      obtain ⟨dictRaw, hdz, h⟩ := of_bind h
      obtain ⟨-, -, h⟩ := of_bind h
      obtain ⟨dict, hdict, h⟩ := of_bind h
      obtain ⟨codesRaw, hcz, h⟩ := of_bind h
      obtain ⟨pairs, hpairs, h⟩ := of_bind h
      obtain rfl := (readDict_eq_ok.mp hdict).1
      obtain ⟨hruns, hQ⟩ := (hw dict pairs _).mp h
      exact ⟨_, .dict hframe ((holdsRuns_iff _ _).mpr ⟨dz, cz, dictRaw, codesRaw, hpayload, hdz,
        hdict, hcz, hpairs, hruns⟩), hQ⟩
  · rintro ⟨strs, hholds, hQ⟩
    cases hholds with
    | concat frame short raw =>
        rw [readColumnFrame_eq_ok.mpr frame, ok_bind]
        dsimp only
        rw [if_pos rfl, zstdDecompressCapped_eq_ok.mpr raw, ok_bind]
        exact (hp _).mpr ⟨strs, short, rfl, hQ⟩
    | @dict payload dict pairs frame runs =>
        obtain ⟨dz, cz, dictRaw, codesRaw, hpayload, hdz, hdict, hcz, hpairs, hruns⟩ :=
          (holdsRuns_iff dictWhat codesWhat).mp runs
        obtain ⟨-, -, rfl⟩ := readDict_eq_ok.mp hdict
        rw [readColumnFrame_eq_ok.mpr frame, ok_bind]
        dsimp only
        rw [if_neg (by decide), if_pos rfl, hpayload, ok_bind]
        dsimp only
        rw [hdz, ok_bind, hv, ok_bind, hdict, ok_bind, hcz, ok_bind, hpairs, ok_bind]
        exact (hw dict pairs _).mpr ⟨hruns, hQ⟩

/-- The check of the runs passes those that name keys and stand for as many strings. -/
theorem checkedRuns_eq_ok {β : Type} {dictLen : Nat} {value out : β} {what : Nat → String} :
    (do
      let expanded ← checkCodeRuns dictLen n 0 pairs
      rejectIf (expanded ≠ n) (what expanded)
      return value) = .ok out ↔
      (∀ r ∈ pairs, 0 < r.1 ∧ r.2 < dictLen) ∧ (expand pairs).length = n ∧ out = value := by
  rw [bind_eq_ok]
  simp only [checkCodeRuns_eq_ok (Nat.zero_le n), rejectIf_bind_eq_ok, not_not, pure_eq_ok,
    Except.ok.injEq, Nat.zero_add]
  constructor
  · rintro ⟨_, ⟨hruns, rfl, -⟩, hlen, rfl⟩
    exact ⟨hruns, hlen, rfl⟩
  · rintro ⟨hruns, hlen, rfl⟩
    exact ⟨_, ⟨hruns, rfl, hlen.le⟩, hlen, rfl⟩

/-- **Accepted strings.** The decoder accepts the bytes that hold as many strings as it is told, and
returns them. -/
theorem decodeStr_eq_ok :
    decodeStr c bytes n = .ok strs ↔ HoldsStrings c bytes strs ∧ strs.length = n := by
  rw [decodeStr]
  refine (stringColumn_eq_ok (Q := fun ts out => ts.length = n ∧ out = ts)
    (fun dict _ => ?_) (fun raw => ?_) fun dict pairs _ => ?_).trans ?_
  · exact validateMinimum_lenPrefixed dict _
  · rw [bind_eq_ok]
    simp only [run_texts_eq_ok (f := fun ts => ts)]
    constructor
    · rintro ⟨-, -, ts, hlen, hshort, hraw, rfl⟩
      exact ⟨ts, hshort, hraw, hlen, rfl⟩
    · rintro ⟨ts, hshort, rfl, rfl, rfl⟩
      exact ⟨(), validateMinimum_lenPrefixed strs _, strs, rfl, hshort, rfl, rfl⟩
  · rw [checkedRuns_eq_ok, List.length_map]
  · constructor
    · rintro ⟨ts, hholds, hlen, rfl⟩
      exact ⟨hholds, hlen⟩
    · rintro ⟨hholds, hlen⟩
      exact ⟨strs, hholds, hlen, rfl⟩

/-- What the string encoder wrote holds the strings, if it is within the decoder's cap. -/
theorem holdsStrings_encodeStr (hc : c.Lossless) (he : encodeStr c strs n level = .ok e)
    (hb : e.toBytes = .ok b) (hfit : StrColumnFits strs) : HoldsStrings c b strs := by
  obtain ⟨-, ⟨hd, hcount, hkeys, dz, cz, hdz, hcz, hdlen, rfl⟩ | ⟨hd, hstrs, henc, hz⟩⟩ :=
    encodeStr_ok he
  · rw [StrColumnFits, if_pos hd] at hfit
    have hholds := HoldsStrings.dict (c := c) hb ⟨hcount, hkeys, (codeRuns_spec strs).1, dz, cz, hdlen,
      rfl, zstdDecompressCapped_eq_ok.mp (zstd_roundtrip hc hdz "" hfit.1),
      zstdDecompressCapped_eq_ok.mp (zstd_roundtrip hc hcz "" hfit.2)⟩
    rwa [codeRuns_back] at hholds
  · rw [StrColumnFits, if_neg (by simp [hd])] at hfit
    obtain ⟨enc, payload⟩ := e
    obtain rfl : enc = encStrZstd := henc
    exact .concat hb hstrs (zstdDecompressCapped_eq_ok.mp (zstd_roundtrip hc hz "" hfit))

theorem not_holdsStrings_over (hc : c.Lossless) (he : encodeStr c strs n level = .ok e)
    (hb : e.toBytes = .ok b) (hfit : ¬StrColumnFits strs) (strs' : List Text) :
    ¬HoldsStrings c b strs' := by
  have hframe := readColumnFrame_toBytes hb ""
  have hover {data z raw : List UInt8} (hz : zstdCompress c data level = .ok z)
      (hraw : c.zstdDecompress z decompressMaxBytes = .ok raw) : data.length ≤ decompressMaxBytes := by
    by_contra hcap
    obtain ⟨err, herr⟩ := zstd_over hc hz "" (not_le.mp hcap)
    rw [zstdDecompressCapped_eq_ok.mpr hraw] at herr
    cases herr
  intro hholds
  refine hfit ?_
  cases hholds with
  | concat frame short raw =>
      rw [readColumnFrame_eq_ok.mpr frame] at hframe
      obtain ⟨henc, hpayload⟩ := Prod.mk.inj (Except.ok.inj hframe)
      obtain ⟨-, ⟨hd, -, -, dz, cz, -, -, -, rfl⟩ | ⟨hd, -, -, hz⟩⟩ := encodeStr_ok he
      · exact absurd henc (show encStrZstd ≠ encStrDict by decide)
      · rw [StrColumnFits, if_neg (by simp [hd])]
        exact hover hz (hpayload ▸ raw)
  | dict frame runs =>
      rw [readColumnFrame_eq_ok.mpr frame] at hframe
      obtain ⟨henc, hpayload⟩ := Prod.mk.inj (Except.ok.inj hframe)
      obtain ⟨-, ⟨hd, hcount, -, dz, cz, hdz, hcz, hdlen, rfl⟩ | ⟨-, -, henc', -⟩⟩ := encodeStr_ok he
      · obtain ⟨dz', cz', hdlen', hparts, hdict, hcodes⟩ := runs.parts
        have hsame := readDictPayload_eq_ok.mpr ⟨runs.count_le, hdlen', hparts⟩
        rw [hpayload, readDictPayload_eq_ok.mpr ⟨hcount, hdlen, rfl⟩] at hsame
        obtain ⟨-, rfl, rfl⟩ : _ ∧ dz = dz' ∧ cz = cz' := by
          simpa only [Except.ok.injEq, Prod.mk.injEq] using hsame
        rw [StrColumnFits, if_pos hd]
        exact ⟨hover hdz hdict, hover hcz hcodes⟩
      · exact absurd (henc.trans henc') (by decide)

/-- **String columns.** A column within the decoder's cap comes back, whichever strategy won. -/
theorem decodeStr_encodeStr (hc : c.Lossless) (he : encodeStr c strs n level = .ok e)
    (hb : e.toBytes = .ok b) (hfit : StrColumnFits strs) : decodeStr c b n = .ok strs :=
  decodeStr_eq_ok.mpr ⟨holdsStrings_encodeStr hc he hb hfit, (encodeStr_ok he).1⟩

/-- A column over the cap is an error. -/
theorem decodeStr_over (hc : c.Lossless) (he : encodeStr c strs n level = .ok e)
    (hb : e.toBytes = .ok b) (hfit : ¬StrColumnFits strs) :
    ∃ err, decodeStr c b n = .error err :=
  error_of_not_ok fun strs' h =>
    not_holdsStrings_over hc he hb hfit strs' (decodeStr_eq_ok.mp h).1

end Timeless.Codec
