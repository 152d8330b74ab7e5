import Timeless.Codec.Column

/-!
# Sizes — columns that can be written

An encoder of a column fails only if a compressor does or if something is longer than a four-byte
length can say. The compressors take every input, and their documentation bounds what they make of
it (`Compressors.Bounded`). So a column of a block that the decoder's caps let through can always be
written, and its frame is far below four gigabytes.
-/

namespace Timeless.Codec

open Support

/-- What the compressors' documentation says of the size of their output: `ZSTD_compressBound` for
the one, a worst case per number for the other. -/
structure Compressors.Bounded (c : Compressors) : Prop where
  zstd : ∀ (data : List UInt8) (level : Int), ∃ z, c.zstdCompress data level = .ok z ∧
    z.length ≤ data.length + data.length / 256 + 64
  pco : ∀ nums : List Int64, nums.length ≤ maxBlockEntries → ∃ z, c.pcoCompress nums = .ok z ∧
    z.length ≤ 16 * nums.length + 2 ^ 16

theorem Compressors.storing_bounded : Compressors.storing.Bounded where
  zstd data level := ⟨data, rfl, by omega⟩
  pco nums _ := ⟨nums.flatMap i64Le, rfl, by rw [length_flatMap_const length_i64Le]; omega⟩

/-- The uncompressed parts of a string column are within a size. -/
def StrColumnWithin (n : Nat) (strs : List Text) : Prop :=
  if usesDict strs = true then
    ((sortedKeys strs).flatMap lenPrefixed).length ≤ n ∧
      ((codeRuns strs).flatMap codeRunBytes).length ≤ n
  else (strs.flatMap lenPrefixed).length ≤ n

instance (n : Nat) (strs : List Text) : Decidable (StrColumnWithin n strs) := by
  unfold StrColumnWithin
  infer_instance

variable {strs : List Text}

theorem strColumnFits_iff :
    StrColumnFits strs ↔ StrColumnWithin decompressMaxBytes strs :=
  Iff.rfl

/-- One text never makes a dictionary. -/
theorem strColumnWithin_singleton {n : Nat} {t : Text} :
    StrColumnWithin n [t] ↔ 4 + (utf8 t).length ≤ n := by
  have hplain : ¬usesDict [t] = true := by
    simp [usesDict, dictWorthy, sampleLen]
  rw [StrColumnWithin, if_neg hplain]
  simp [lenPrefixed]

/-- A column that is written, in fewer bytes than a four-byte length can say. -/
def Writes (x : Except String (List UInt8)) : Prop :=
  ∃ b, x = .ok b ∧ b.length ≤ u32Max

variable {c : Compressors} (hb : c.Bounded)

theorem toBytes_writes {e : ColumnEnc} (h : e.payload.length ≤ 2 ^ 30) : Writes e.toBytes := by
  have hlen : e.payload.length ≤ u32Max := h.trans (by decide)
  refine ⟨e.encoding :: (leBytes 4 e.payload.length ++ e.payload), ?_, ?_⟩
  · rw [ColumnEnc.toBytes, u32Len, if_pos hlen]
    rfl
  · have hmax : 2 ^ 30 + 5 ≤ u32Max := by decide
    simp only [List.length_cons, List.length_append, length_leBytes]
    omega

/-- The frame of an encoded column is written if its payload is small. -/
theorem frame_writes {x : Except String ColumnEnc}
    (h : ∃ e, x = .ok e ∧ e.payload.length ≤ 2 ^ 30) : Writes (do (← x).toBytes) := by
  obtain ⟨e, rfl, he⟩ := h
  exact toBytes_writes he

include hb

theorem zstdCompress_small (data : List UInt8) (level : Int) (h : data.length ≤ 2 ^ 28) :
    ∃ z, zstdCompress c data level = .ok z ∧ z.length ≤ 2 ^ 28 + 2 ^ 21 := by
  obtain ⟨z, hz, hlen⟩ := hb.zstd data level
  refine ⟨z, by rw [zstdCompress, hz]; rfl, ?_⟩
  omega

theorem pcoCompress_small (nums : List Int64) (h : nums.length ≤ maxBlockEntries) :
    ∃ z, pcoCompress c nums = .ok z ∧ z.length ≤ 2 ^ 28 + 2 ^ 21 := by
  obtain ⟨z, hz, hlen⟩ := hb.pco nums h
  refine ⟨z, by rw [pcoCompress, hz]; rfl, ?_⟩
  unfold maxBlockEntries at h
  omega

theorem zstdCompress_writes (data : List UInt8) (level : Int) (h : data.length ≤ 2 ^ 28) :
    Writes (zstdCompress c data level) := by
  obtain ⟨z, hz, hlen⟩ := zstdCompress_small hb data level h
  exact ⟨z, hz, hlen.trans (by decide)⟩

theorem encodeI64_small {values : List Int64} (h : values.length ≤ maxBlockEntries) (level : Int) :
    ∃ e, encodeI64 c values level = .ok e ∧ e.payload.length ≤ 2 ^ 30 := by
  have hbytes {nums : List Int64} (hnums : nums.length ≤ maxBlockEntries) :
      (i64sToLeBytes nums).length ≤ 2 ^ 28 := by
    rw [length_i64sToLeBytes]
    unfold maxBlockEntries at hnums
    omega
  have hdeltas : (deltas 0 values).length ≤ maxBlockEntries := by rwa [length_deltas]
  have hsample : ((deltas 0 values).take sampleLen).length ≤ maxBlockEntries :=
    (List.length_take_le' _ _).trans hdeltas
  obtain ⟨p, hp, hplen⟩ := pcoCompress_small hb _ hsample
  obtain ⟨z, hz, hzlen⟩ := zstdCompress_small hb _ level (hbytes hsample)
  obtain ⟨p', hp', hplen'⟩ := pcoCompress_small hb _ hdeltas
  obtain ⟨z', hz', hzlen'⟩ := zstdCompress_small hb _ level (hbytes hdeltas)
  obtain ⟨z₀, hz₀, hzlen₀⟩ := zstdCompress_small hb [] level (by simp)
  have hmax : 2 ^ 28 + 2 ^ 21 ≤ 2 ^ 30 := by decide
  unfold encodeI64
  split_ifs
  · exact ⟨_, by rw [hz₀]; rfl, hzlen₀.trans hmax⟩
  · simp only [hp, hz, hp', hz', ok_bind, pure_eq_ok]
    split_ifs
    · exact ⟨_, rfl, hplen.trans hmax⟩
    · exact ⟨_, rfl, hplen'.trans hmax⟩
    · exact ⟨_, rfl, hzlen.trans hmax⟩
    · exact ⟨_, rfl, hzlen'.trans hmax⟩

theorem encodeU8_small {values : List UInt8} (h : values.length ≤ maxBlockEntries) (level : Int) :
    ∃ e, encodeU8 c values level = .ok e ∧ e.payload.length ≤ 2 ^ 30 := by
  obtain ⟨z, hz, hlen⟩ := zstdCompress_small hb values level (h.trans (by decide))
  have hmax : 2 ^ 28 + 2 ^ 21 ≤ 2 ^ 30 := by decide
  cases values with
  | nil => exact ⟨_, by rw [encodeU8, hz]; rfl, hlen.trans hmax⟩
  | cons v vs =>
      rw [encodeU8, hz]
      simp only [ok_bind]
      split_ifs with hle
      · exact ⟨_, rfl, hle.trans (hlen.trans hmax)⟩
      · exact ⟨_, rfl, hlen.trans hmax⟩

theorem encodeFixedBytes_small {data : List UInt8} {width : Nat} (hwidth : width ≠ 0)
    (hmod : data.length % width = 0) (h : data.length ≤ 2 ^ 28) (level : Int) :
    ∃ e, encodeFixedBytes c data width level = .ok e ∧ e.payload.length ≤ 2 ^ 30 := by
  obtain ⟨z, hz, hlen⟩ := zstdCompress_small hb data level h
  refine ⟨⟨encFixedZstd, z⟩, ?_, hlen.trans (by decide)⟩
  rw [encodeFixedBytes, rejectIf_neg hwidth, ok_bind]
  dsimp only
  rw [rejectIf_neg (not_not.mpr hmod), ok_bind, hz]
  rfl

omit hb in
/-- A text is no longer than a concatenation it is in. -/
theorem utf8_le_flatMap {n : Nat} (h : (strs.flatMap lenPrefixed).length ≤ n) :
    ∀ s ∈ strs, (utf8 s).length ≤ n := by
  intro s hs
  obtain ⟨before, after, rfl⟩ := List.append_of_mem hs
  simp only [List.flatMap_append, List.flatMap_cons, List.length_append, lenPrefixed] at h
  omega

theorem encodeStr_small (hcount : strs.length ≤ maxBlockEntries)
    (hfit : StrColumnWithin (2 ^ 28) strs) (level : Int) :
    ∃ e, encodeStr c strs strs.length level = .ok e ∧ e.payload.length ≤ 2 ^ 30 := by
  have hu32 : 2 ^ 28 ≤ u32Max := by decide
  have hmax : 2 ^ 28 + 2 ^ 21 ≤ 2 ^ 30 := by decide
  rw [encodeStr, rejectIf_neg (by simp), ok_bind]
  split_ifs with hzero hdict
  · obtain ⟨z, hz, hlen⟩ := zstdCompress_small hb [] level (by simp)
    exact ⟨_, by rw [hz]; rfl, hlen.trans hmax⟩
  · have huses : usesDict strs = true := by
      rw [usesDict, hdict, Bool.and_true, Bool.not_eq_true', List.isEmpty_eq_false_iff]
      rintro rfl
      exact hzero rfl
    rw [StrColumnWithin, if_pos huses] at hfit
    obtain ⟨hkeys, hcodes⟩ := hfit
    have hentries : (sortedKeys strs).length ≤ u32Max := by
      rw [sortedKeys, List.length_insertionSort]
      exact (List.dedup_sublist strs).length_le.trans (hcount.trans (by decide))
    obtain ⟨d, hd, hdlen⟩ := zstdCompress_small hb _ level hkeys
    obtain ⟨z, hz, hzlen⟩ := zstdCompress_small hb _ level hcodes
    have hconcat (tooLong : String) : concatPrefixed tooLong (sortedKeys strs) = .ok _ :=
      concatPrefixed_eq_ok.mpr ⟨fun s hs => (utf8_le_flatMap hkeys s hs).trans hu32, rfl⟩
    refine ⟨⟨encStrDict, leBytes 4 (sortedKeys strs).length ++ (leBytes 4 d.length ++ (d ++ z))⟩,
      ?_, ?_⟩
    · dsimp only
      rw [rejectIf_neg (not_lt.mpr hentries), ok_bind, hconcat, ok_bind, hd, ok_bind, hz, ok_bind,
        u32Len, if_pos hentries, ok_bind, u32Len, if_pos (hdlen.trans (by decide)), ok_bind]
      rfl
    · simp only [List.length_append, length_leBytes]
      omega
  · have huses : ¬usesDict strs = true := by
      rw [usesDict, Bool.and_eq_true]
      exact fun h => hdict h.2
    rw [StrColumnWithin, if_neg huses] at hfit
    obtain ⟨z, hz, hlen⟩ := zstdCompress_small hb _ level hfit
    have hconcat (tooLong : String) : concatPrefixed tooLong strs = .ok _ :=
      concatPrefixed_eq_ok.mpr ⟨fun s hs => (utf8_le_flatMap hfit s hs).trans hu32, rfl⟩
    exact ⟨_, by rw [hconcat, ok_bind, hz]; rfl, hlen.trans hmax⟩

end Timeless.Codec
