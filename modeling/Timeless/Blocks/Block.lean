import Timeless.Blocks.Metadata
import Timeless.Blocks.TemplateColumn

/-!
# Block — the container of log entries

A block is a header (format version, codec, entry count, time range and four column lengths) and
the columns: timestamps, levels, messages, metadata. The codec byte says how the columns are
stored. Codecs 1 and 6 are raw, 2 is one zstd frame per column, 4 and 5 use the typed encoders and
differ in the metadata column; 7 and 8 do the same for rich entries and differ in the message
column, a string column or a template column. A request for codec 8 keeps the smaller of the two
message columns and falls back to codec 7.

This is the model of `blocks/codec.rs`. The first results are about what was written:

* `encodeBlock_ok`: which columns stand behind which header;
* `BlockStored.reads_framing`, `BlockStored.fails_framing`: the framing is read back, and a block
  over the entry cap is refused.
-/

namespace Timeless.Blocks

open Support Codec

/-- Plain columns. -/
def codecRaw : UInt8 := 1

/-- Plain columns, each compressed. -/
def codecZstd : UInt8 := 2

/-- Typed columns, with whole metadata. -/
def codecColumnar : UInt8 := 4

/-- Typed columns, with metadata by key. -/
def codecColumnarV2 : UInt8 := 5

/-- Plain columns, with severities and JSON. -/
def codecRichRaw : UInt8 := 6

/-- Typed columns, with severities and JSON. -/
def codecRichColumnar : UInt8 := 7

/-- The same, with messages as templates. -/
def codecRichTemplate : UInt8 := 8

/-- The only version there is. -/
def formatVersion : UInt8 := 1

/-- Does the byte name a codec? -/
def knownCodec (codec : UInt8) : Bool :=
  [codecRaw, codecZstd, codecColumnar, codecColumnarV2, codecRichRaw, codecRichColumnar,
    codecRichTemplate].contains codec

/-- Codecs of blocks that wait for compression. -/
def isRawCodec (codec : UInt8) : Bool :=
  codec == codecRaw || codec == codecRichRaw

/-- Codecs that keep severities and JSON. -/
def isRichCodec (codec : UInt8) : Bool :=
  [codecRichRaw, codecRichColumnar, codecRichTemplate].contains codec

/-- Codecs whose columns go through the typed encoders. -/
def isTypedCodec (codec : UInt8) : Bool :=
  [codecColumnar, codecColumnarV2, codecRichColumnar, codecRichTemplate].contains codec

/-! ### Encoding -/

/-- The four stored columns. -/
structure Columns where
  ts : List UInt8
  level : List UInt8
  message : List UInt8
  metadata : List UInt8

namespace Columns

/-- The columns in the order of the block. -/
def toList (cols : Columns) : List (List UInt8) :=
  [cols.ts, cols.level, cols.message, cols.metadata]

end Columns

/-- The earliest time. -/
def tsMinOf (timestamps : List Int64) : Int64 :=
  timestamps.foldl min Int64.maxValue

/-- The latest time. -/
def tsMaxOf (timestamps : List Int64) : Int64 :=
  timestamps.foldl max Int64.minValue

section Encode

variable (c : Compressors) {N : Type} (js : SerdeJson N)

/-- The message column of the typed codecs and the codec it makes the block: templates only when
they are smaller than the string column. -/
def encodeMessages (codec : UInt8) (msgs : List Text) (level : Int) :
    Except String (UInt8 × List UInt8) := do
  let colMsgStr ← (← encodeStr c msgs msgs.length level).toBytes
  if codec = codecRichTemplate then
    let tpl ← encodeTemplateStr c msgs level
    if tpl.length < colMsgStr.length then return (codec, tpl)
    else return (codecRichColumnar, colMsgStr)
  else return (codec, colMsgStr)

/-- The metadata column of the typed codecs: shredded for codec 5, else one zstd frame. -/
def encodeMetadata (entries : List LogEntry) (codec : UInt8) (colMetaRaw : List UInt8)
    (level : Int) : Except String (List UInt8) :=
  if codec = codecColumnarV2 then
    encodePairsColumn c (entries.map LogEntry.metadata) colMetaRaw level
  else zstdCompress c colMetaRaw level

/-- The columns of the typed codecs. -/
def encodeTyped (entries : List LogEntry) (codec : UInt8) (colMetaRaw : List UInt8) (level : Int) :
    Except String (UInt8 × Columns) := do
  let colMeta ← encodeMetadata c entries codec colMetaRaw level
  let (codec, colMsg) ← encodeMessages c codec (entries.map LogEntry.message) level
  let colTs ← (← encodeI64 c (entries.map LogEntry.ts) level).toBytes
  let colLvl ← (← encodeU8 c (entries.map LogEntry.level) level).toBytes
  return (codec, ⟨colTs, colLvl, colMsg, colMeta⟩)

/-- The timestamp column of the raw codecs and, as deltas, of plain zstd. -/
def plainTs (codec : UInt8) (timestamps : List Int64) : List UInt8 :=
  i64sToLeBytes (if isRawCodec codec then timestamps else deltas 0 timestamps)

/-- The columns of the raw codecs and of plain zstd. -/
def encodePlain (entries : List LogEntry) (codec : UInt8) (colMetaRaw : List UInt8) (level : Int) :
    Except String Columns := do
  let colTs := plainTs codec (entries.map LogEntry.ts)
  let colLvl := entries.map LogEntry.level
  let colMsg ← concatPrefixed "encode_block: message longer than u32::MAX bytes"
    (entries.map LogEntry.message)
  if codec = codecZstd then
    return ⟨← zstdCompress c colTs level, ← zstdCompress c colLvl level,
      ← zstdCompress c colMsg level, ← zstdCompress c colMetaRaw level⟩
  else return ⟨colTs, colLvl, colMsg, colMetaRaw⟩

/-- The metadata of all entries in the format the codec family shares. -/
def rawMetadata (entries : List LogEntry) (codec : UInt8) : Except String (List UInt8) :=
  if isRichCodec codec then serializeRichMetadata js entries
  else serializeMetadata (entries.map LogEntry.metadata)

/-- The columns, and the codec they are stored under. -/
def encodeColumns (entries : List LogEntry) (codec : UInt8) (colMetaRaw : List UInt8)
    (level : Int) : Except String (UInt8 × Columns) :=
  if isTypedCodec codec then encodeTyped c entries codec colMetaRaw level
  else (encodePlain c entries codec colMetaRaw level).map fun cols => (codec, cols)

/-- Version, codec, counts, bounds and lengths. -/
def header (codec : UInt8) (n : Nat) (tsMin tsMax : Int64) (cols : Columns) : List UInt8 :=
  formatVersion :: codec :: (leBytes 4 n ++ (i64Le tsMin ++ (i64Le tsMax ++
    (leBytes 4 cols.ts.length ++ (leBytes 4 cols.level.length ++
      (leBytes 4 cols.message.length ++ leBytes 4 cols.metadata.length))))))

/-- The header and the columns; entries that the codec cannot keep are refused. -/
def encodeBlock (entries : List LogEntry) (codec : UInt8) (level : Int) :
    Except String (List UInt8 × BlockMeta) := do
  rejectIf (entries = []) "encode_block: refusing to encode an empty block"
  rejectIf (knownCodec codec = false) s!"encode_block: unknown codec {codec}"
  let n := entries.length
  rejectIf (u32Max < n) "encode_block: entry count exceeds u32::MAX"
  rejectIf (isRichCodec codec = false ∧ entries.any LogEntry.isRich = true)
    "encode_block: rich log entry requires codec 6, 7 or 8"
  let invalid := entries.find? fun e => 3 < e.level.toNat
  let shown := (invalid.map LogEntry.level).getD 0
  rejectIf (invalid.isSome = true)
    s!"encode_block: entry has invalid level {shown} (must be 0..=3)"
  let timestamps := entries.map LogEntry.ts
  let colMetaRaw ← rawMetadata js entries codec
  let (codec, cols) ← encodeColumns c entries codec colMetaRaw level
  rejectIf (cols.toList.any (fun col => u32Max < col.length) = true)
    "encode_block: column exceeds u32::MAX bytes"
  return (header codec n (tsMinOf timestamps) (tsMaxOf timestamps) cols ++ cols.toList.flatten,
    ⟨tsMinOf timestamps, tsMaxOf timestamps, n, codec⟩)

end Encode

/-! ### Framing -/

/-- What stands behind the codec byte, up to the columns. -/
structure Framing where
  n : Nat
  tsMin : Int64
  tsMax : Int64
  tsLen : Nat
  levelLen : Nat
  messageLen : Nat
  metadataLen : Nat

/-- The first byte. -/
def readVersion : ReadM Unit := do
  let version ← u8 "format version"
  rejectIf (version ≠ formatVersion)
    s!"block: unsupported format version {version} (this build speaks {formatVersion})"

/-- The counts, bounds and lengths of a header. -/
def readFraming : ReadM Framing := do
  let n ← u32 "entry_count"
  liftM (checkEntryCount n "block")
  let tsMin ← i64 "ts_min"
  let tsMax ← i64 "ts_max"
  let tsLen ← u32 "ts column length"
  let levelLen ← u32 "level column length"
  let messageLen ← u32 "message column length"
  let metadataLen ← u32 "metadata column length"
  return ⟨n, tsMin, tsMax, tsLen, levelLen, messageLen, metadataLen⟩

/-- The columns, read to the end of the block. -/
def readColumns (f : Framing) : ReadM Columns := do
  let ts ← take f.tsLen "ts column"
  let level ← take f.levelLen "level column"
  let message ← take f.messageLen "message column"
  let metadata ← take f.metadataLen "metadata column"
  let left ← remaining
  rejectIf (left ≠ 0) s!"block: {left} trailing byte(s) after last column (corrupt header?)"
  return ⟨ts, level, message, metadata⟩

/-- Header and times have to agree on the count and the bounds. -/
def checkBlockRange (what : String) (n : Nat) (tsMin tsMax : Int64) (timestamps : List Int64) :
    Except String Unit := do
  let got := timestamps.length
  rejectIf (got ≠ n) s!"{what}: decoded {got} entries, header claims {n}"
  let lo := tsMinOf timestamps
  let hi := tsMaxOf timestamps
  rejectIf (lo ≠ tsMin ∨ hi ≠ tsMax)
    s!"{what}: payload range [{lo}, {hi}] disagrees with header [{tsMin}, {tsMax}]"

/-! ### Absence -/

/-- `str::contains`. -/
def textContains (text pat : Text) : Bool :=
  pat.isEmpty || (windows pat.length text).any (· == pat)

/-- Case-insensitive substring, the engine's rule for `message_contains`: over bytes for an ASCII
needle, over lower-cased text otherwise. -/
def messageContainsCi (lowercase : Text → Text) (message needle : Text) : Bool :=
  if needle.isEmpty then true
  else if isAscii (utf8 needle) then
    (windows (utf8 needle).length (utf8 message)).any fun w => eqIgnoreAsciiCase w (utf8 needle)
  else textContains (lowercase message) (lowercase needle)

/-- The strings of a concatenated column, as long as bytes are left, and whether one of them holds
what is looked for. -/
def scanStrings (contains : List UInt8 → Bool) :
    (fuel count : Nat) → (found : Bool) → ReadM (Nat × Bool)
  | 0, count, found => return (count, found)
  | fuel + 1, count, found => do
      let left ← remaining
      if left = 0 then return (count, found)
      else
        let len ← u32 "string length"
        let bytes ← take len "string bytes"
        let text ← liftM (okOr (fromUtf8 bytes)
          s!"string column: value {count} is not valid UTF-8")
        scanStrings contains fuel (count + 1) (found || contains (utf8 text))

/-- The dictionary strategy: scan every distinct entry, then see if a run refers to a hit. -/
def scanDict (c : Compressors) (contains : List UInt8 → Bool) (payload : List UInt8) (n : Nat) :
    Except String Bool := do
  let (dictCount, dictZstd, codesZstd) ← readDictPayload payload
  let dictRaw ← zstdDecompressCapped c dictZstd "message dictionary" decompressMaxBytes
  let dict ← readDict dictCount dictRaw
  let hits := dict.map fun s => contains (utf8 s)
  let codesRaw ← zstdDecompressCapped c codesZstd "message codes" decompressMaxBytes
  let pairs ← readCodeRuns codesRaw
  let expanded ← checkCodeRuns dictCount n 0 pairs
  rejectIf (expanded ≠ n) s!"string column: RLE expanded to {expanded} values, expected {n}"
  return pairs.any fun pair => hits.getD pair.2 false

/-- Does any message of a typed column pass the test? -/
def columnarMessageFeasible (c : Compressors) (msg : List UInt8) (n : Nat)
    (contains : List UInt8 → Bool) : Except String Bool := do
  let (enc, payload) ← readColumnFrame msg "message column"
  if enc = encStrZstd then
    let raw ← zstdDecompressCapped c payload "message column" decompressMaxBytes
    -- every string takes at least four bytes, so the length bounds the loop
    let (count, found) ← Reader.run raw (scanStrings contains raw.length 0 false)
    rejectIf (count ≠ n) s!"string column: expected {n} strings, found {count}"
    return found
  else if enc = encStrDict then scanDict c contains payload n
  else throw s!"string column: unknown encoding id {enc}"

/-- Codec, entry count and message column of a block, the rest left unread. -/
def readMessageColumn : ReadM (UInt8 × Nat × List UInt8) := do
  readVersion
  let codec ← u8 "codec"
  rejectIf (knownCodec codec = false) s!"block: unknown codec {codec}"
  let f ← readFraming
  let _ ← take f.tsLen "ts column"
  let _ ← take f.levelLen "level column"
  let msg ← take f.messageLen "message column"
  return (codec, f.n, msg)

/-- The scan for a needle, over bytes. -/
def scanContains (needle : Text) (text : List UInt8) : Bool :=
  (windows (utf8 needle).length text).any fun w => eqIgnoreAsciiCase w (utf8 needle)

/-- Feasibility by message column: the template check, or a scan of the column's text. -/
def messageColumnFeasible (c : Compressors) (codec : UInt8) (n : Nat) (msg : List UInt8)
    (needle : Text) : Except String Bool :=
  if codec = codecRichTemplate then columnMayContain c msg needle
  else if isRawCodec codec then .ok (scanContains needle msg)
  else if codec = codecZstd then
    (zstdDecompress c msg "message column").map (scanContains needle)
  else columnarMessageFeasible c msg n (scanContains needle)

/-- Can the block hold a message that contains the needle? `false` is a proof of absence. -/
def blockMessageFeasible (c : Compressors) (bytes : List UInt8) (needle : Text) :
    Except String Bool := do
  if needle.isEmpty || !isAscii (utf8 needle) then return true
  let (codec, n, msg) ← Reader.run bytes readMessageColumn
  messageColumnFeasible c codec n msg needle

/-! ### Time range -/

theorem le_max64 (a b : Int64) : a ≤ max a b ∧ b ≤ max a b := by
  change a ≤ (if a ≤ b then b else a) ∧ b ≤ if a ≤ b then b else a
  split_ifs with h
  · exact ⟨h, Int64.le_refl b⟩
  · exact ⟨Int64.le_refl a, Int64.le_of_lt (Int64.not_le.mp h)⟩

theorem min_le64 (a b : Int64) : min a b ≤ a ∧ min a b ≤ b := by
  change (if a ≤ b then a else b) ≤ a ∧ (if a ≤ b then a else b) ≤ b
  split_ifs with h
  · exact ⟨Int64.le_refl a, h⟩
  · exact ⟨Int64.le_of_lt (Int64.not_le.mp h), Int64.le_refl b⟩

variable {op : Int64 → Int64 → Int64}

/-- A fold of a function that is above both its arguments is above everything it went over. -/
theorem foldl_bound (le : Int64 → Int64 → Prop) (hrefl : ∀ a, le a a)
    (htrans : ∀ a b d, le a b → le b d → le a d) (hop : ∀ a b, le a (op a b) ∧ le b (op a b))
    (l : List Int64) (m : Int64) :
    le m (l.foldl op m) ∧ ∀ x ∈ l, le x (l.foldl op m) := by
  induction l generalizing m with
  | nil => exact ⟨hrefl m, by simp⟩
  | cons y l ih =>
      obtain ⟨hm, hl⟩ := ih (op m y)
      refine ⟨htrans _ _ _ (hop m y).1 hm, ?_⟩
      rintro x (_ | ⟨_, hx⟩)
      · exact htrans _ _ _ (hop m y).2 hm
      · exact hl x hx

variable {l : List Int64}

theorem le_tsMaxOf {ts : Int64} (h : ts ∈ l) : ts ≤ tsMaxOf l :=
  (foldl_bound (fun a b => a ≤ b) Int64.le_refl (fun _ _ _ => Int64.le_trans) le_max64 l _).2
    ts h

theorem tsMinOf_le {ts : Int64} (h : ts ∈ l) : tsMinOf l ≤ ts :=
  (foldl_bound (fun a b => b ≤ a) Int64.le_refl
    (fun _ _ _ hab hbd => Int64.le_trans hbd hab) min_le64 l _).2 ts h

/-- A fold that keeps one of two values ends at its start or at something it went over. -/
theorem foldl_mem (hop : ∀ a b, op a b = a ∨ op a b = b) (l : List Int64) (m : Int64) :
    l.foldl op m = m ∨ l.foldl op m ∈ l := by
  induction l generalizing m with
  | nil => exact .inl rfl
  | cons y l ih =>
      rw [List.foldl_cons]
      rcases ih (op m y) with h | h
      · rcases hop m y with hm | hy
        · exact .inl (h.trans hm)
        · exact .inr (by rw [h, hy]; exact List.mem_cons_self)
      · exact .inr (List.mem_cons_of_mem _ h)

theorem tsMinOf_mem (h : l ≠ []) : tsMinOf l ∈ l := by
  have hop : ∀ a b : Int64, min a b = a ∨ min a b = b := by
    intro a b
    change (if a ≤ b then a else b) = a ∨ (if a ≤ b then a else b) = b
    split_ifs <;> simp
  rcases foldl_mem hop l Int64.maxValue with hstart | hmem
  · obtain ⟨x, hx⟩ := List.exists_mem_of_ne_nil l h
    have hle : Int64.maxValue ≤ x := hstart ▸ tsMinOf_le hx
    have heq : x = Int64.maxValue := Int64.le_antisymm (Int64.le_maxValue x) hle
    rw [tsMinOf, hstart, ← heq]
    exact hx
  · exact hmem

theorem tsMaxOf_mem (h : l ≠ []) : tsMaxOf l ∈ l := by
  have hop : ∀ a b : Int64, max a b = a ∨ max a b = b := by
    intro a b
    change (if a ≤ b then b else a) = a ∨ (if a ≤ b then b else a) = b
    split_ifs <;> simp
  rcases foldl_mem hop l Int64.minValue with hstart | hmem
  · obtain ⟨x, hx⟩ := List.exists_mem_of_ne_nil l h
    have hle : x ≤ Int64.minValue := hstart ▸ le_tsMaxOf hx
    have heq : x = Int64.minValue := Int64.le_antisymm hle (Int64.minValue_le x)
    rw [tsMaxOf, hstart, ← heq]
    exact hx
  · exact hmem

theorem checkBlockRange_ok (what : String) (timestamps : List Int64) :
    checkBlockRange what timestamps.length (tsMinOf timestamps) (tsMaxOf timestamps) timestamps =
      .ok () := by
  rw [checkBlockRange]
  simp

theorem checkBlockRange_eq_ok {what : String} {n : Nat} {tsMin tsMax : Int64}
    {timestamps : List Int64} (h : checkBlockRange what n tsMin tsMax timestamps = .ok ()) :
    timestamps.length = n ∧ tsMinOf timestamps = tsMin ∧ tsMaxOf timestamps = tsMax := by
  rw [checkBlockRange] at h
  obtain ⟨hlen, h⟩ := rejectIf_bind_eq_ok.mp h
  by_cases hrange : tsMinOf timestamps ≠ tsMin ∨ tsMaxOf timestamps ≠ tsMax
  · rw [rejectIf, if_pos hrange] at h
    cases h
  · push Not at hlen hrange
    exact ⟨hlen, hrange.1, hrange.2⟩

/-! ### What was written -/

variable {c : Compressors} {N : Type} {js : SerdeJson N}

/-- The columns behind a header, and what was checked before they were written. -/
structure BlockStored (c : Compressors) (js : SerdeJson N) (entries : List LogEntry) (codec : UInt8)
    (level : Int) (bytes : List UInt8) (m : BlockMeta) (cols : Columns) : Prop where
  nonempty : entries ≠ []
  known : knownCodec codec = true
  count_le : entries.length ≤ u32Max
  legacy : isRichCodec codec = false → ∀ e ∈ entries, e.isRich = false
  levels : ∀ e ∈ entries, e.level.toNat ≤ 3
  columns : ∃ raw, rawMetadata js entries codec = .ok raw ∧
    encodeColumns c entries codec raw level = .ok (m.codec, cols)
  cols_le : ∀ col ∈ cols.toList, col.length ≤ u32Max
  meta_eq : m = ⟨tsMinOf (entries.map LogEntry.ts), tsMaxOf (entries.map LogEntry.ts),
    entries.length, m.codec⟩
  bytes_eq : bytes = header m.codec m.entryCount m.tsMin m.tsMax cols ++ cols.toList.flatten

/-- What a block is that was written. -/
theorem encodeBlock_ok {entries : List LogEntry} {codec : UInt8} {level : Int} {bytes : List UInt8}
    {m : BlockMeta} (h : encodeBlock c js entries codec level = .ok (bytes, m)) :
    ∃ cols, BlockStored c js entries codec level bytes m cols := by
  obtain ⟨hne, h⟩ := rejectIf_bind_eq_ok.mp h
  obtain ⟨hknown, h⟩ := rejectIf_bind_eq_ok.mp h
  obtain ⟨hcount, h⟩ := rejectIf_bind_eq_ok.mp h
  obtain ⟨hlegacy, h⟩ := rejectIf_bind_eq_ok.mp h
  obtain ⟨hlevel, h⟩ := rejectIf_bind_eq_ok.mp h
  obtain ⟨raw, hraw, h⟩ := of_bind h
  obtain ⟨⟨codec', cols⟩, hcols, h⟩ := of_bind h
  obtain ⟨hle, h⟩ := rejectIf_bind_eq_ok.mp h
  obtain ⟨rfl, rfl⟩ := Prod.mk.inj (Except.ok.inj h)
  refine ⟨cols, hne, by simpa using hknown, not_lt.mp hcount, ?_, ?_, ⟨raw, hraw, hcols⟩, ?_, rfl,
    rfl⟩
  · intro hrich e he
    by_contra hno
    exact hlegacy ⟨hrich, List.any_eq_true.mpr ⟨e, he, by simpa using hno⟩⟩
  · intro e he
    by_contra hno
    exact hlevel (List.find?_isSome.mpr ⟨e, he, by simpa using hno⟩)
  · intro col hcol
    by_contra hno
    exact hle (List.any_eq_true.mpr ⟨col, hcol, by simpa using hno⟩)

theorem reads_version (tail : List UInt8) : Reads readVersion [formatVersion] tail () :=
  (reads_u8 _ _ _).bind (reads_rejectIf (by simp) _ _)

/-- The framing a stored block was given. -/
def BlockMeta.framing (m : BlockMeta) (cols : Columns) : Framing :=
  ⟨m.entryCount, m.tsMin, m.tsMax, cols.ts.length, cols.level.length, cols.message.length,
    cols.metadata.length⟩

/-- The header behind the version and the codec. -/
def framingBytes (m : BlockMeta) (cols : Columns) : List UInt8 :=
  leBytes 4 m.entryCount ++ (i64Le m.tsMin ++ (i64Le m.tsMax ++ (leBytes 4 cols.ts.length ++
    (leBytes 4 cols.level.length ++ (leBytes 4 cols.message.length ++
      leBytes 4 cols.metadata.length)))))

namespace BlockStored

variable {entries : List LogEntry} {codec : UInt8} {level : Int} {bytes : List UInt8}
  {m : BlockMeta} {cols : Columns}

variable (h : BlockStored c js entries codec level bytes m cols)

include h

theorem entryCount_eq : m.entryCount = entries.length := by
  rw [h.meta_eq]

theorem bytes_eq_append :
    bytes = [formatVersion] ++ ([m.codec] ++ (framingBytes m cols ++ cols.toList.flatten)) := by
  rw [h.bytes_eq]
  rfl

theorem reads_framing (hn : entries.length ≤ maxBlockEntries) (tail : List UInt8) :
    Reads readFraming (framingBytes m cols) tail (m.framing cols) := by
  have hlt : ∀ col ∈ cols.toList, col.length < 2 ^ 32 :=
    fun col hcol => lt_of_le_u32Max (h.cols_le col hcol)
  have hcount : m.entryCount < 2 ^ 32 := by
    rw [h.entryCount_eq]
    exact lt_of_le_u32Max h.count_le
  have hcheck : checkEntryCount m.entryCount "block" = .ok () := by
    rw [checkEntryCount, rejectIf_neg]
    rw [h.entryCount_eq]
    exact not_lt.mpr hn
  refine (reads_u32 hcount _ _).bind ?_
  refine (reads_lift hcheck _).bind_nil ?_
  refine (reads_i64 _ _ _).bind ?_
  refine (reads_i64 _ _ _).bind ?_
  refine (reads_u32 (hlt cols.ts (by simp [Columns.toList])) _ _).bind ?_
  refine (reads_u32 (hlt cols.level (by simp [Columns.toList])) _ _).bind ?_
  refine (reads_u32 (hlt cols.message (by simp [Columns.toList])) _ _).bind ?_
  exact (reads_u32 (hlt cols.metadata (by simp [Columns.toList])) _ _).map
    fun len => Framing.mk _ _ _ _ _ _ len

theorem fails_framing (hn : maxBlockEntries < entries.length) (tail : List UInt8) :
    Fails readFraming (framingBytes m cols ++ tail) := by
  have hcount : m.entryCount < 2 ^ 32 := by
    rw [h.entryCount_eq]
    exact lt_of_le_u32Max h.count_le
  have hcheck : ∃ e, checkEntryCount m.entryCount "block" = .error e := by
    refine ⟨_, rejectIf_pos ?_ _⟩
    rwa [h.entryCount_eq]
  rw [framingBytes, List.append_assoc]
  exact (reads_u32 hcount _ _).bind_fails ((fails_lift hcheck _).bind _)

end BlockStored

end Timeless.Blocks
