import Timeless.Blocks.Absence
import Timeless.Blocks.MetadataRound
import Timeless.Blocks.TemplateFilter

/-!
# Decode — entries out of a block

`decodeBlockProjected` reads the header, takes the four columns apart by the codec and puts the
entries together again; a caller may leave payload columns out. `decodeBlockFiltered` gives the
entries whose message contains a needle, for codec 8 without rendering the others.

* `BlockStored.decodeBlock_readBack`: a written block within the decoder's caps, whose envelopes can
  be read, gives its entries back, those of a rich block with what their envelope says;
* `BlockStored.decodeBlock_eq`: for entries with stable envelopes this is the entry itself, with
  severity and canonical JSON filled in.
-/

namespace Timeless.Blocks

open Support Codec

/-! ### The decoder -/

/-- Codec, framing and columns of a block. -/
def readBlock : ReadM (UInt8 × Framing × Columns) := do
  readVersion
  let codec ← u8 "codec"
  rejectIf (knownCodec codec = false) s!"block: unknown codec {codec}"
  let f ← readFraming
  let cols ← readColumns f
  return (codec, f, cols)

def checkLevels : (i : Nat) → List UInt8 → Except String Unit
  | _, [] => .ok ()
  | i, lvl :: levels => do
      rejectIf (3 < lvl.toNat) s!"block: entry {i} has invalid level byte {lvl}"
      checkLevels (i + 1) levels

/-- What an entry has besides time, level and message. -/
structure Payload where
  metadata : Pairs
  severity : Option Text
  metadataJson : Option Text

def RichMetadata.payload (r : RichMetadata) : Payload :=
  ⟨r.metadata, some r.severity, some r.metadataJson⟩

def pairsPayload (md : Pairs) : Payload :=
  ⟨md, none, none⟩

/-- The columns back into entries. -/
def zipEntries : List Int64 → List UInt8 → List Text → List Payload → List LogEntry
  | ts :: tss, lvl :: lvls, msg :: msgs, p :: ps =>
      ⟨ts, lvl, p.severity, msg, p.metadata, p.metadataJson⟩ :: zipEntries tss lvls msgs ps
  | _, _, _, _ => []

section Decoder

variable (c : Compressors) {N : Type} (js : SerdeJson N)

/-- The messages, if they are asked for. -/
def decodeTypedMessages (codec : UInt8) (projection : LogProjection) (col : List UInt8) (n : Nat) :
    Except String (List Text) :=
  if projection.message = false then .ok (List.replicate n [])
  else if codec = codecRichTemplate then decodeTemplateStr c col n
  else decodeStr c col n

/-- The metadata column of the typed codecs. A rich block whose envelope is left out has empty
metadata. -/
def decodeTypedPayloads (codec : UInt8) (projection : LogProjection) (col : List UInt8) (n : Nat) :
    Except String (List Payload) :=
  if isRichCodec codec && projection.richEnvelope then do
    let raw ← zstdDecompress c col "rich metadata column"
    let rich ← parseRichMetadataProjected js raw n projection
    return rich.map RichMetadata.payload
  else if projection.metadata = false ∧ projection.metadataPairs = false then
    .ok (List.replicate n (pairsPayload []))
  else if codec = codecColumnarV2 then
    (decodePairsColumn c col n "metadata" parseMetadata).map (List.map pairsPayload)
  else do
    let raw ← zstdDecompress c col "metadata column"
    let metadatas ← parseMetadata raw n
    return metadatas.map pairsPayload

/-- Codecs 4, 5, 7 and 8. -/
def decodeBlockTyped (codec : UInt8) (f : Framing) (cols : Columns) (projection : LogProjection) :
    Except String (List LogEntry) := do
  let timestamps ← decodeI64 c cols.ts f.n
  let levels ← decodeU8 c cols.level f.n
  checkLevels 0 levels
  let messages ← decodeTypedMessages c codec projection cols.message f.n
  let payloads ← decodeTypedPayloads c js codec projection cols.metadata f.n
  checkBlockRange "block" f.n f.tsMin f.tsMax timestamps
  return zipEntries timestamps levels messages payloads

/-- A column that is empty if it is not asked for. -/
def columnUnless (skipped : Prop) [Decidable skipped] (col : Except String (List UInt8)) :
    Except String (List UInt8) :=
  if skipped then .ok [] else col

/-- The columns of codecs 1, 2 and 6, those not asked for empty. -/
def plainColumns (codec : UInt8) (cols : Columns) (projection : LogProjection) :
    Except String Columns :=
  if codec = codecZstd then do
    let ts ← zstdDecompress c cols.ts "ts column"
    let level ← zstdDecompress c cols.level "level column"
    let message ← columnUnless (projection.message = false)
      (zstdDecompress c cols.message "message column")
    let metadata ← columnUnless (projection.metadata = false ∧ projection.metadataPairs = false)
      (zstdDecompress c cols.metadata "metadata column")
    return ⟨ts, level, message, metadata⟩
  else
    .ok ⟨cols.ts, cols.level, if projection.message = false then [] else cols.message,
      if (projection.metadata || projection.metadataPairs ||
        (codec == codecRichRaw && projection.severity)) = false then [] else cols.metadata⟩

def plainTimestamps (codec : UInt8) (col : List UInt8) (n : Nat) : Except String (List Int64) := do
  let got := col.length
  let expected := n * 8
  rejectIf (got ≠ expected)
    s!"block: ts column is {got} bytes, expected {expected} for {n} entries"
  let values := (chunksExact 8 col).map i64OfLe
  return if codec = codecZstd then undelta 0 values else values

def plainMessages (projection : LogProjection) (col : List UInt8) (n : Nat) :
    Except String (List Text) :=
  if projection.message = false then do
    rejectIf (col ≠ []) "block: trailing bytes in message column"
    return List.replicate n []
  else Reader.run col do
    let messages ← readTexts "message length" "message bytes"
      (fun i => s!"block: entry {i}: message is not valid UTF-8") n 0
    let left ← remaining
    rejectIf (left ≠ 0) "block: trailing bytes in message column"
    return messages

def plainPayloads (codec : UInt8) (projection : LogProjection) (col : List UInt8) (n : Nat) :
    Except String (List Payload) :=
  if codec == codecRichRaw && projection.richEnvelope then
    (parseRichMetadataProjected js col n projection).map (List.map RichMetadata.payload)
  else if projection.metadata = false ∧ projection.metadataPairs = false then
    .ok (List.replicate n (pairsPayload []))
  else (parseMetadata col n).map (List.map pairsPayload)

/-- Codecs 1, 2 and 6. -/
def decodeBlockLegacy (codec : UInt8) (f : Framing) (stored : Columns)
    (projection : LogProjection) : Except String (List LogEntry) := do
  let cols ← plainColumns c codec stored projection
  let timestamps ← plainTimestamps codec cols.ts f.n
  let got := cols.level.length
  rejectIf (got ≠ f.n) s!"block: level column is {got} bytes, expected {f.n}"
  checkLevels 0 cols.level
  let messages ← plainMessages projection cols.message f.n
  let payloads ← plainPayloads js codec projection cols.metadata f.n
  checkBlockRange "block" f.n f.tsMin f.tsMax timestamps
  return zipEntries timestamps cols.level messages payloads

/-- The fields asked for. -/
def decodeBlockProjected (bytes : List UInt8) (projection : LogProjection) :
    Except String (List LogEntry) := do
  let (codec, f, cols) ← Reader.run bytes readBlock
  if isTypedCodec codec then decodeBlockTyped c js codec f cols projection
  else decodeBlockLegacy c js codec f cols projection

/-- All fields of all entries. -/
def decodeBlock (bytes : List UInt8) : Except String (List LogEntry) :=
  decodeBlockProjected c js bytes .all

/-! ### The filtered decoder -/

/-- The matching rows of a block with their places, how many rows it has and how many messages were
rendered. -/
structure FilteredBlockRows where
  rows : List (Nat × LogEntry)
  totalRows : Nat
  candidateRows : Nat

variable (lowercase : Text → Text)

/-- Decode everything and filter. -/
def fullFallback (bytes : List UInt8) (needle : Text) : Except String FilteredBlockRows := do
  let entries ← decodeBlock c js bytes
  return ⟨(entries.zipIdx.filter fun e => messageContainsCi lowercase e.1.message needle).map
    Prod.swap, entries.length, entries.length⟩

/-- Pass over one rich envelope. -/
def skipRich : ReadM Unit := do
  let severityLen ← u16 "severity length"
  let _ ← take severityLen "severity bytes"
  let jsonLen ← u32 "metadata JSON length"
  let _ ← take jsonLen "metadata JSON bytes"

/-- The envelopes of the kept rows; the others are passed over. -/
def walkRich : (n index : Nat) → List (Nat × Text) → ReadM (List (Nat × Text × RichMetadata))
  | 0, _, _ => return []
  | n + 1, index, [] => do
      skipRich
      walkRich n (index + 1) []
  | n + 1, index, (row, message) :: keep =>
      if row = index then do
        let rich ← parseRichEntry js .all index
        return (row, message, rich) :: (← walkRich n (index + 1) keep)
      else do
        skipRich
        walkRich n (index + 1) ((row, message) :: keep)

def keptRow (timestamps : List Int64) (levels : List UInt8) (k : Nat × Text × RichMetadata) :
    Nat × LogEntry :=
  (k.1, ⟨timestamps.getD k.1 0, levels.getD k.1 0, some k.2.2.severity, k.2.1, k.2.2.metadata,
    some k.2.2.metadataJson⟩)

/-- The rows of a codec-8 block; without a match the other columns are left unread. -/
def decodeRowsFiltered (f : Framing) (cols : Columns) (needle : Text) :
    Except String FilteredBlockRows := do
  let filtered ← decodeTemplateStrFiltered c cols.message f.n needle
  if filtered.rows.isEmpty then return ⟨[], f.n, filtered.candidateRows⟩
  else do
    let timestamps ← decodeI64 c cols.ts f.n
    let levels ← decodeU8 c cols.level f.n
    checkLevels 0 levels
    let raw ← zstdDecompress c cols.metadata "rich metadata column"
    let kept ← Reader.run raw do
      let kept ← walkRich js f.n 0 filtered.rows
      let left ← remaining
      rejectIf (left ≠ 0) "block: trailing bytes in rich metadata column"
      return kept
    checkBlockRange "block" f.n f.tsMin f.tsMax timestamps
    return ⟨kept.map (keptRow timestamps levels), f.n, filtered.candidateRows⟩

/-- The codec byte, if the format version is known. -/
def readCodec : ReadM UInt8 := do
  readVersion
  u8 "codec"

def decodeBlockFiltered (bytes : List UInt8) (needle : Text) : Except String FilteredBlockRows :=
  if needle.isEmpty || !isAscii (utf8 needle) then fullFallback c js lowercase bytes needle
  else do
    let codec ← Reader.run bytes readCodec
    if codec ≠ codecRichTemplate then fullFallback c js lowercase bytes needle
    else do
      let (_, f, cols) ← Reader.run bytes readBlock
      decodeRowsFiltered c js f cols needle

end Decoder

/-! ### Written blocks -/

variable {c : Compressors} {N : Type} {js : SerdeJson N}

/-- An entry as a rich block stores it. -/
def richEntry (js : SerdeJson N) (e : LogEntry) : LogEntry :=
  { e with severity := some e.severityName, metadataJson := some (storedJson js e) }

/-- What the entries of a block are read as. -/
def readAs (js : SerdeJson N) (codec : UInt8) (e : LogEntry) : LogEntry :=
  if isRichCodec codec then richEntry js e else e

/-- An entry with what its envelope says. -/
def openedEntry (js : SerdeJson N) (e : LogEntry) : LogEntry :=
  { e with
    severity := some (enveloped js e).severity
    metadata := (enveloped js e).metadata
    metadataJson := some (enveloped js e).metadataJson }

/-- What a readable block gives for an entry. -/
def readBack (js : SerdeJson N) (codec : UInt8) (e : LogEntry) : LogEntry :=
  if isRichCodec codec then openedEntry js e else e

theorem readBack_message (js : SerdeJson N) (codec : UInt8) (e : LogEntry) :
    (readBack js codec e).message = e.message := by
  unfold readBack
  split_ifs <;> rfl

theorem readBack_ts (js : SerdeJson N) (codec : UInt8) (e : LogEntry) :
    (readBack js codec e).ts = e.ts := by
  unfold readBack
  split_ifs <;> rfl

theorem readBack_level (js : SerdeJson N) (codec : UInt8) (e : LogEntry) :
    (readBack js codec e).level = e.level := by
  unfold readBack
  split_ifs <;> rfl

variable {codec : UInt8} {msgs : List Text} {level : Int} {col : List UInt8}

theorem readBack_eq_readAs {e : LogEntry} (h : isRichCodec codec = true → EnvelopeStable js e) :
    readBack js codec e = readAs js codec e := by
  unfold readBack readAs
  split_ifs with hrich
  · rw [openedEntry, (h hrich).read.2]
    rfl
  · rfl

/-- Every envelope of a rich block can be read. -/
def EnvelopesReadable (js : SerdeJson N) (codec : UInt8) (entries : List LogEntry) : Prop :=
  isRichCodec codec = true → ∀ e ∈ entries, Readable js e

theorem zipEntries_map {α : Type} (es : List α) (ts : α → Int64) (lvl : α → UInt8) (msg : α → Text)
    (p : α → Payload) : zipEntries (es.map ts) (es.map lvl) (es.map msg) (es.map p) =
      es.map fun e => ⟨ts e, lvl e, (p e).severity, msg e, (p e).metadata, (p e).metadataJson⟩ := by
  induction es with
  | nil => rfl
  | cons e es ih => simp [zipEntries, ih]

theorem checkLevels_ok {levels : List UInt8} (h : ∀ lvl ∈ levels, lvl.toNat ≤ 3) (i : Nat) :
    checkLevels i levels = .ok () := by
  induction levels generalizing i with
  | nil => rfl
  | cons lvl levels ih =>
      rw [checkLevels, rejectIf_neg (not_lt.mpr (h lvl List.mem_cons_self)), ok_bind,
        ih fun lvl hl => h lvl (List.mem_cons_of_mem _ hl)]

namespace BlockStored

variable {entries : List LogEntry} {codec : UInt8} {level : Int} {bytes : List UInt8}
  {m : BlockMeta} {cols : Columns}

theorem range_ok (_ : BlockStored c js entries codec level bytes m cols) :
    checkBlockRange "block" entries.length (tsMinOf (entries.map LogEntry.ts))
      (tsMaxOf (entries.map LogEntry.ts)) (entries.map LogEntry.ts) = .ok () := by
  have hrange := checkBlockRange_ok "block" (entries.map LogEntry.ts)
  rwa [List.length_map] at hrange

variable (h : BlockStored c js entries codec level bytes m cols)

include h

theorem run_readBlock (hn : entries.length ≤ maxBlockEntries) :
    Reader.run bytes readBlock = .ok (m.codec, m.framing cols, cols) := by
  rw [h.bytes_eq_append]
  refine Reads.run ?_
  refine (reads_version _).bind ?_
  refine (reads_u8 _ _ _).bind ?_
  refine (reads_rejectIf (by simp [h.message_stored.known]) _ _).bind_nil ?_
  refine (h.reads_framing hn _).bind ?_
  refine Reads.map (fun cols' => (m.codec, m.framing cols, cols')) ?_
  refine (reads_take rfl _ _).bind ?_
  refine (reads_take rfl _ _).bind ?_
  refine (reads_take rfl _ _).bind ?_
  refine (reads_take rfl _ _).bind ?_
  exact reads_end cols fun left => s!"block: {left} trailing byte(s) after last column (corrupt header?)"

theorem framing_eq : m.framing cols = ⟨entries.length, tsMinOf (entries.map LogEntry.ts),
    tsMaxOf (entries.map LogEntry.ts), cols.ts.length, cols.level.length, cols.message.length,
    cols.metadata.length⟩ := by
  rw [BlockMeta.framing, h.meta_eq]

theorem level_bytes : ∀ lvl ∈ entries.map LogEntry.level, lvl.toNat ≤ 3 := by
  intro lvl hl
  obtain ⟨e, he, rfl⟩ := List.mem_map.mp hl
  exact h.levels e he

theorem run_readCodec : Reader.run bytes readCodec = .ok m.codec := by
  have hbytes : bytes = ([formatVersion] ++ [m.codec]) ++
      (framingBytes m cols ++ cols.toList.flatten) := by
    rw [h.bytes_eq_append]
    simp
  rw [hbytes]
  refine Reads.run_append ?_
  exact (reads_version _).bind (reads_u8 _ _ _)

end BlockStored

/-! ### Caps -/

/-- The message column of a stored block is within the decoder's caps. -/
def MessagesFit (c : Compressors) (stored : UInt8) (msgs : List Text) (level : Int) : Prop :=
  if isRawCodec stored then True
  else if stored = codecZstd then (msgs.flatMap lenPrefixed).length ≤ decompressMaxBytes
  else if stored = codecRichTemplate then
    ∀ splitRuns, KeptAsTemplates c msgs level splitRuns → TemplateFits msgs splitRuns
  else StrColumnFits msgs

/-- So is the metadata column. -/
def MetadataFits (js : SerdeJson N) (stored : UInt8) (entries : List LogEntry) : Prop :=
  isRawCodec stored = false → ∀ raw, rawMetadata js entries stored = .ok raw →
    if stored = codecColumnarV2 then PairsFit (entries.map LogEntry.metadata) raw
    else raw.length ≤ decompressMaxBytes

/-- A block stored under a codec is within the decoder's caps. -/
structure BlockFits (c : Compressors) (js : SerdeJson N) (entries : List LogEntry) (stored : UInt8)
    (level : Int) : Prop where
  count : entries.length ≤ maxBlockEntries
  messages : MessagesFit c stored (entries.map LogEntry.message) level
  metadata : MetadataFits js stored entries

/-! ### The columns of a written block -/

variable {entries : List LogEntry} {codec stored : UInt8} {raw : List UInt8}

/-- A request for codec 8 may end as codec 7. -/
theorem encodeMessages_codec (h : encodeMessages c codec msgs level = .ok (stored, col)) :
    stored = codec ∨ codec = codecRichTemplate ∧ stored = codecRichColumnar := by
  obtain ⟨e, -, h⟩ := of_bind h
  obtain ⟨strCol, -, h⟩ := of_bind h
  split_ifs at h with h8
  · obtain ⟨tpl, -, h⟩ := of_bind h
    split_ifs at h
    · exact .inl (Prod.mk.inj (Except.ok.inj h)).1.symm
    · exact .inr ⟨h8, (Prod.mk.inj (Except.ok.inj h)).1.symm⟩
  · exact .inl (Prod.mk.inj (Except.ok.inj h)).1.symm

/-- The metadata is laid out by the codec asked for as by the one stored. -/
theorem stored_same_metadata
    (hstored : stored = codec ∨ codec = codecRichTemplate ∧ stored = codecRichColumnar) :
    isRichCodec stored = isRichCodec codec ∧ (stored = codecColumnarV2 ↔ codec = codecColumnarV2) := by
  rcases hstored with rfl | ⟨rfl, rfl⟩
  · exact ⟨rfl, Iff.rfl⟩
  · decide

theorem decodeTypedMessages_ok (hc : c.Lossless) (htyped : isTypedCodec codec = true)
    (h : encodeMessages c codec msgs level = .ok (stored, col))
    (hfit : MessagesFit c stored msgs level) :
    decodeTypedMessages c stored .all col msgs.length = .ok msgs := by
  rw [decodeTypedMessages, if_neg (by simp [LogProjection.all])]
  rw [MessagesFit] at hfit
  cases encodeMessages_stored htyped h with
  | raw hcodec =>
      simp only [isRawCodec, Bool.or_eq_true, beq_iff_eq] at hcodec
      rcases hcodec with rfl | rfl <;> exact absurd htyped (by decide)
  | zstd => exact absurd htyped (by decide)
  | typed hstored he hb _ =>
      obtain ⟨h8, hraw, hzstd⟩ := typed_codec hstored
      rw [if_neg hraw, if_neg hzstd, if_neg h8] at hfit
      rw [if_neg h8]
      exact decodeStr_encodeStr hc he hb hfit
  | template he hb htpl hlt =>
      rw [if_neg (by decide), if_neg (by decide), if_pos rfl] at hfit
      obtain ⟨splitRuns, hmode⟩ := encodeTemplateStr_ok htpl
      rw [if_pos rfl]
      exact decodeTemplateStr_encodeMode hc hmode
        (hfit splitRuns ⟨_, _, _, htpl, hmode, he, hb, hlt⟩)

theorem rawMetadata_congr (h : isRichCodec stored = isRichCodec codec) :
    rawMetadata js entries stored = rawMetadata js entries codec := by
  rw [rawMetadata, rawMetadata, h]

/-- What an entry is stored with. -/
def payloadOf (js : SerdeJson N) (codec : UInt8) (e : LogEntry) : Payload :=
  if isRichCodec codec then (enveloped js e).payload else pairsPayload e.metadata

theorem decodeTypedPayloads_ok (hc : c.Lossless) {raw : List UInt8}
    (htyped : isTypedCodec codec = true)
    (hstored : stored = codec ∨ codec = codecRichTemplate ∧ stored = codecRichColumnar)
    (hraw : rawMetadata js entries codec = .ok raw)
    (h : encodeMetadata c entries codec raw level = .ok col) (hfit : MetadataFits js stored entries)
    (hread : EnvelopesReadable js codec entries) :
    decodeTypedPayloads c js stored .all col entries.length =
      .ok (entries.map (payloadOf js codec)) := by
  simp only [isTypedCodec, List.contains_eq_mem, List.mem_cons, List.not_mem_nil, or_false,
    decide_eq_true_eq] at htyped
  obtain ⟨hrich, hv2⟩ := stored_same_metadata hstored
  have hnraw : isRawCodec stored = false := by
    rcases hstored with rfl | ⟨rfl, rfl⟩
    · rcases htyped with rfl | rfl | rfl | rfl <;> rfl
    · rfl
  have hcap := hfit hnraw raw (by rw [rawMetadata_congr hrich, hraw])
  unfold decodeTypedPayloads
  rw [hrich]
  cases hr : isRichCodec codec with
  | true =>
      have h5 : codec ≠ codecColumnarV2 := by
        rintro rfl
        exact absurd hr (by decide)
      rw [if_neg (hv2.not.mpr h5)] at hcap
      rw [encodeMetadata, if_neg h5] at h
      rw [rawMetadata, if_pos hr] at hraw
      have hparse := parseRich_serializeRich (hread hr) hraw
      have hzstd : zstdDecompress c col "rich metadata column" = .ok raw :=
        zstd_roundtrip hc h _ hcap
      rw [if_pos (by rfl), hzstd, ok_bind, hparse, ok_bind]
      simp [payloadOf, hr, Function.comp_def]
  | false =>
      rw [if_neg (by simp), if_neg (by simp [LogProjection.all])]
      rw [rawMetadata, if_neg (by simp [hr])] at hraw
      have hparse := parseMetadata_serializeMetadata hraw
      rw [List.length_map] at hparse
      have hpayload : entries.map (payloadOf js codec) =
          (entries.map LogEntry.metadata).map pairsPayload := by
        simp [payloadOf, hr]
      rw [hpayload]
      by_cases h5 : codec = codecColumnarV2
      · rw [if_pos (hv2.mpr h5)] at hcap ⊢
        rw [encodeMetadata, if_pos h5] at h
        have hpairs := decodePairsColumn_encodePairsColumn hc "metadata" h hcap parseMetadata
          (by rw [List.length_map]; exact hparse)
        rw [List.length_map] at hpairs
        rw [hpairs]
        rfl
      · rw [if_neg (hv2.not.mpr h5)] at hcap ⊢
        rw [encodeMetadata, if_neg h5] at h
        have hzstd : zstdDecompress c col "metadata column" = .ok raw :=
          zstd_roundtrip hc h _ hcap
        rw [hzstd, ok_bind, hparse]
        rfl

theorem legacy_eq {e : LogEntry} (h : e.isRich = false) :
    e = ⟨e.ts, e.level, none, e.message, e.metadata, none⟩ := by
  obtain ⟨ts, level, severity, message, metadata, json⟩ := e
  simp only [LogEntry.isRich, Bool.or_eq_false_iff, Option.isSome_eq_false_iff,
    Option.isNone_iff_eq_none] at h
  obtain ⟨rfl, rfl⟩ := h
  rfl

theorem zipEntries_readBack (hlegacy : isRichCodec codec = false → ∀ e ∈ entries, e.isRich = false) :
    zipEntries (entries.map LogEntry.ts) (entries.map LogEntry.level)
        (entries.map LogEntry.message) (entries.map (payloadOf js codec)) =
      entries.map (readBack js codec) := by
  rw [zipEntries_map]
  refine List.map_congr_left fun e he => ?_
  cases hr : isRichCodec codec with
  | true => simp [payloadOf, readBack, hr, RichMetadata.payload, openedEntry]
  | false =>
      simp only [payloadOf, readBack, hr, Bool.false_eq_true, if_false, pairsPayload]
      exact (legacy_eq (hlegacy hr e he)).symm

/-! ### Plain columns -/

theorem plainTimestamps_ok (hplain : isRawCodec codec = true ∨ codec = codecZstd)
    (timestamps : List Int64) :
    plainTimestamps codec (plainTs codec timestamps) timestamps.length = .ok timestamps := by
  have hlen : (plainTs codec timestamps).length = timestamps.length * 8 := by
    rw [plainTs, length_i64sToLeBytes]
    split_ifs
    · rfl
    · rw [length_deltas]
  simp only [plainTimestamps, hlen, ne_eq, not_true_eq_false, rejectIf_false, ok_bind, pure_eq_ok]
  rcases hplain with hraw | rfl
  · have hne : codec ≠ codecZstd := by
      rintro rfl
      exact absurd hraw (by decide)
    rw [if_neg hne, plainTs, if_pos hraw, i64sToLeBytes, i64s_back]
  · rw [if_pos rfl, plainTs, if_neg (by decide), i64sToLeBytes, i64s_back, undelta_deltas]

theorem plainMessages_ok (h : ∀ msg ∈ msgs, (utf8 msg).length ≤ u32Max) :
    plainMessages .all (msgs.flatMap lenPrefixed) msgs.length = .ok msgs := by
  rw [plainMessages, if_neg (by simp [LogProjection.all])]
  refine Reads.run ?_
  have hread := reads_texts "message length" "message bytes"
    (fun i => s!"block: entry {i}: message is not valid UTF-8")
    (fun msg hmsg => lt_of_le_u32Max (h msg hmsg)) 0 []
  exact hread.bind_last (reads_end msgs fun _ => "block: trailing bytes in message column")

theorem plainPayloads_ok (hplain : isRawCodec codec = true ∨ codec = codecZstd)
    (hraw : rawMetadata js entries codec = .ok raw) (hread : EnvelopesReadable js codec entries) :
    plainPayloads js codec .all raw entries.length = .ok (entries.map (payloadOf js codec)) := by
  have hrich : (codec == codecRichRaw) = isRichCodec codec := by
    simp only [isRawCodec, Bool.or_eq_true, beq_iff_eq] at hplain
    rcases hplain with (rfl | rfl) | rfl <;> rfl
  rw [plainPayloads, hrich]
  cases hr : isRichCodec codec with
  | true =>
      rw [rawMetadata, if_pos hr] at hraw
      rw [if_pos (by rfl), parseRich_serializeRich (hread hr) hraw]
      simp [Except.map, payloadOf, hr, Function.comp_def]
  | false =>
      rw [rawMetadata, if_neg (by simp [hr])] at hraw
      have hparse := parseMetadata_serializeMetadata hraw
      rw [List.length_map] at hparse
      rw [if_neg (by simp), if_neg (by simp [LogProjection.all]), hparse]
      simp [Except.map, payloadOf, hr, Function.comp_def]

/-! ### Blocks -/

section

variable {entries : List LogEntry} {codec : UInt8} {level : Int} {bytes : List UInt8}
  {m : BlockMeta} {cols : Columns}

theorem encodePlain_zstd (h : encodePlain c entries codecZstd raw level = .ok cols) :
    ∃ ts lvl col md, zstdCompress c (plainTs codecZstd (entries.map LogEntry.ts)) level = .ok ts ∧
      zstdCompress c (entries.map LogEntry.level) level = .ok lvl ∧
      zstdCompress c ((entries.map LogEntry.message).flatMap lenPrefixed) level = .ok col ∧
      zstdCompress c raw level = .ok md ∧ cols = ⟨ts, lvl, col, md⟩ := by
  obtain ⟨msg, hmsg, h⟩ := of_bind h
  obtain ⟨-, rfl⟩ := concatPrefixed_eq_ok.mp hmsg
  rw [if_pos rfl] at h
  obtain ⟨ts, hts, h⟩ := of_bind h
  obtain ⟨lvl, hlvl, h⟩ := of_bind h
  obtain ⟨col, hcol, h⟩ := of_bind h
  obtain ⟨md, hmd, h⟩ := of_bind h
  exact ⟨ts, lvl, col, md, hts, hlvl, hcol, hmd, (Except.ok.inj h).symm⟩

/-- Times and levels of a block within the entry cap are below the byte cap. -/
theorem plainHead_ok (hc : c.Lossless) {ts lvl : List UInt8}
    (hts : zstdCompress c (plainTs codecZstd (entries.map LogEntry.ts)) level = .ok ts)
    (hlvl : zstdCompress c (entries.map LogEntry.level) level = .ok lvl)
    (hcount : entries.length ≤ maxBlockEntries) :
    zstdDecompress c ts "ts column" = .ok (plainTs codecZstd (entries.map LogEntry.ts)) ∧
      zstdDecompress c lvl "level column" = .ok (entries.map LogEntry.level) := by
  have hcount : entries.length ≤ 2 ^ 20 := hcount
  have hcap : decompressMaxBytes = 64 * 2 ^ 20 := rfl
  refine ⟨zstd_roundtrip hc hts _ ?_, zstd_roundtrip hc hlvl _ ?_⟩
  · rw [plainTs, length_i64sToLeBytes, if_neg (by decide), length_deltas, List.length_map]
    omega
  · rw [List.length_map]
    omega

theorem plainColumns_ok (hc : c.Lossless) (hraw : rawMetadata js entries codec = .ok raw)
    (h : encodePlain c entries codec raw level = .ok cols)
    (hfit : BlockFits c js entries codec level) :
    plainColumns c codec cols .all = .ok ⟨plainTs codec (entries.map LogEntry.ts),
      entries.map LogEntry.level, (entries.map LogEntry.message).flatMap lenPrefixed, raw⟩ := by
  by_cases hz : codec = codecZstd
  · subst hz
    obtain ⟨ts, lvl, col, md, hts, hlvl, hcol, hmd, rfl⟩ := encodePlain_zstd h
    obtain ⟨hts', hlvl'⟩ := plainHead_ok hc hts hlvl hfit.count
    have hmsg' : zstdDecompress c col "message column" =
        .ok ((entries.map LogEntry.message).flatMap lenPrefixed) := by
      refine zstd_roundtrip hc hcol _ ?_
      have := hfit.messages
      rwa [MessagesFit, if_neg (by decide), if_pos rfl] at this
    have hmd' : zstdDecompress c md "metadata column" = .ok raw := by
      refine zstd_roundtrip hc hmd _ ?_
      have := hfit.metadata rfl raw hraw
      rwa [if_neg (by decide)] at this
    simp only [plainColumns, if_true, columnUnless, hts', hlvl', hmsg', hmd', ok_bind,
      LogProjection.all]
    rfl
  · obtain ⟨msg, hmsg, h⟩ := of_bind h
    obtain ⟨-, rfl⟩ := concatPrefixed_eq_ok.mp hmsg
    rw [if_neg hz] at h
    obtain rfl := Except.ok.inj h
    rw [plainColumns, if_neg hz]
    rfl

theorem plainMessages_back (h : encodePlain c entries codec raw level = .ok cols) :
    plainMessages .all ((entries.map LogEntry.message).flatMap lenPrefixed) entries.length =
      .ok (entries.map LogEntry.message) := by
  obtain ⟨msg, hmsg, -⟩ := of_bind h
  rw [← plainMessages_ok (concatPrefixed_eq_ok.mp hmsg).1, List.length_map]

section Stored

variable (h : BlockStored c js entries codec level bytes m cols)

include h

theorem BlockStored.plain_codec
    (htyped : isTypedCodec codec = false) : isRawCodec codec = true ∨ codec = codecZstd := by
  have hknown := h.known
  simp only [knownCodec, isTypedCodec, isRawCodec, List.contains_eq_mem, List.mem_cons,
    List.not_mem_nil, or_false, decide_eq_true_eq, decide_eq_false_iff_not, Bool.or_eq_true,
    beq_iff_eq] at hknown htyped ⊢
  tauto

theorem BlockStored.plain_columns (htyped : isTypedCodec codec = false) :
    ∃ raw, rawMetadata js entries codec = .ok raw ∧
      encodePlain c entries codec raw level = .ok cols ∧ m.codec = codec := by
  obtain ⟨raw, hraw, hcols⟩ := h.columns
  rw [encodeColumns, if_neg (by simp [htyped])] at hcols
  obtain ⟨cols', hplain, heq⟩ := map_eq_ok.mp hcols
  obtain ⟨hcodec, rfl⟩ := Prod.mk.inj heq
  exact ⟨raw, hraw, hplain, hcodec.symm⟩

theorem BlockStored.plain_eq (hc : c.Lossless) (htyped : isTypedCodec codec = false)
    (hfit : BlockFits c js entries m.codec level) (hread : EnvelopesReadable js codec entries) :
    m.codec = codec ∧ decodeBlockLegacy c js m.codec (m.framing cols) cols .all =
      .ok (entries.map (readBack js codec)) := by
  obtain ⟨raw, hraw, hcols, hcodec⟩ := h.plain_columns htyped
  have hplain := h.plain_codec htyped
  rw [hcodec] at hfit ⊢
  have hcolumns := plainColumns_ok hc hraw hcols hfit
  have hts := plainTimestamps_ok hplain (entries.map LogEntry.ts)
  have hmsgs := plainMessages_back hcols
  rw [List.length_map] at hts
  refine ⟨rfl, ?_⟩
  simp only [decodeBlockLegacy, h.framing_eq, hcolumns, hts, checkLevels_ok h.level_bytes, hmsgs,
    plainPayloads_ok hplain hraw hread, h.range_ok, ok_bind, pure_eq_ok, List.length_map, ne_eq,
    not_true_eq_false, rejectIf_false, zipEntries_readBack h.legacy]

theorem BlockStored.typed_columns (hc : c.Lossless) (htyped : isTypedCodec codec = true) :
    ∃ raw, rawMetadata js entries codec = .ok raw ∧
      encodeMetadata c entries codec raw level = .ok cols.metadata ∧
      encodeMessages c codec (entries.map LogEntry.message) level = .ok (m.codec, cols.message) ∧
      decodeI64 c cols.ts entries.length = .ok (entries.map LogEntry.ts) ∧
      decodeU8 c cols.level entries.length = .ok (entries.map LogEntry.level) := by
  obtain ⟨raw, hraw, hcols⟩ := h.columns
  rw [encodeColumns, if_pos htyped] at hcols
  obtain ⟨md, hmd, hcols⟩ := of_bind hcols
  obtain ⟨⟨stored, msg⟩, hmsg, hcols⟩ := of_bind hcols
  obtain ⟨ts, hts, hcols⟩ := of_bind hcols
  obtain ⟨tsCol, htsCol, hcols⟩ := of_bind hcols
  obtain ⟨lvl, hlvl, hcols⟩ := of_bind hcols
  obtain ⟨lvlCol, hlvlCol, hcols⟩ := of_bind hcols
  obtain ⟨hstored, rfl⟩ := Prod.mk.inj (Except.ok.inj hcols)
  have hts' := decodeI64_encodeI64 hc hts htsCol
  have hlvl' := decodeU8_encodeU8 hc hlvl hlvlCol
  rw [List.length_map] at hts' hlvl'
  exact ⟨raw, hraw, hmd, by rw [← hstored]; exact hmsg, hts', hlvl'⟩

theorem BlockStored.typed_eq (hc : c.Lossless) (htyped : isTypedCodec codec = true)
    (hfit : BlockFits c js entries m.codec level) (hread : EnvelopesReadable js codec entries) :
    isTypedCodec m.codec = true ∧
      decodeBlockTyped c js m.codec (m.framing cols) cols .all =
        .ok (entries.map (readBack js codec)) := by
  obtain ⟨raw, hraw, hmd, hmsg, hts, hlvl⟩ := h.typed_columns hc htyped
  have hcodec := encodeMessages_codec hmsg
  have hmsg' := decodeTypedMessages_ok hc htyped hmsg hfit.messages
  rw [List.length_map] at hmsg'
  have hpayloads := decodeTypedPayloads_ok hc htyped hcodec hraw hmd hfit.metadata hread
  refine ⟨?_, ?_⟩
  · rcases hcodec with heq | ⟨-, heq⟩
    · rw [heq]
      exact htyped
    · rw [heq]
      rfl
  · simp only [decodeBlockTyped, h.framing_eq, hts, hlvl, checkLevels_ok h.level_bytes, hmsg',
      hpayloads, h.range_ok, ok_bind, pure_eq_ok, zipEntries_readBack h.legacy]

/-- **Round trip.** A written block within the decoder's caps whose envelopes can be read gives its
entries back. -/
theorem BlockStored.decodeBlock_readBack
    (hc : c.Lossless) (hfit : BlockFits c js entries m.codec level)
    (hread : EnvelopesReadable js codec entries) :
    decodeBlock c js bytes = .ok (entries.map (readBack js codec)) := by
  simp only [decodeBlock, decodeBlockProjected, h.run_readBlock hfit.count, ok_bind]
  cases htyped : isTypedCodec codec with
  | true =>
      obtain ⟨hstored, heq⟩ := h.typed_eq hc htyped hfit hread
      rw [if_pos hstored, heq]
  | false =>
      obtain ⟨hstored, heq⟩ := h.plain_eq hc htyped hfit hread
      rw [if_neg (by simp [hstored, htyped]), heq]

end Stored

theorem map_readBack (hst : isRichCodec codec = true → ∀ e ∈ entries, EnvelopeStable js e) :
    entries.map (readBack js codec) = entries.map (readAs js codec) :=
  List.map_congr_left fun e he => readBack_eq_readAs fun hrich => hst hrich e he

theorem envelopesReadable_of_stable
    (hst : isRichCodec codec = true → ∀ e ∈ entries, EnvelopeStable js e) :
    EnvelopesReadable js codec entries :=
  fun hrich e he => (hst hrich e he).read.1

/-- Entries with stable envelopes come back as they are, severity and JSON filled in. -/
theorem BlockStored.decodeBlock_eq (h : BlockStored c js entries codec level bytes m cols)
    (hc : c.Lossless) (hfit : BlockFits c js entries m.codec level)
    (hst : isRichCodec codec = true → ∀ e ∈ entries, EnvelopeStable js e) :
    decodeBlock c js bytes = .ok (entries.map (readAs js codec)) := by
  rw [h.decodeBlock_readBack hc hfit (envelopesReadable_of_stable hst), map_readBack hst]

end

theorem readAs_message (js : SerdeJson N) (codec : UInt8) (e : LogEntry) :
    (readAs js codec e).message = e.message := by
  unfold readAs
  split_ifs <;> rfl

end Timeless.Blocks
