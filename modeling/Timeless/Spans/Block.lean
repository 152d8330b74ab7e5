import Timeless.Blocks.Block
import Timeless.Spans.Entry

/-!
# Block — the container of spans

A span block is a header (format version, codec, span count, time range and the length of every
column) and the columns one after another. Codec 1 stores the columns as they are, 2 compresses each
of them, 4 and 5 use the typed encoders. Blocks are written in version 3 with twenty-four columns.
Version 2 has the first fourteen of these; version 1 has ten, and its attributes are pairs of strings.
What a version does not store is read as a default.

This is the model of `spans/codec.rs`.
-/

namespace Timeless.Spans

open Support Codec

open Blocks (BlockMeta Pairs tsMinOf tsMaxOf checkBlockRange readText decodePairsColumn u16Max)

/-- Plain columns. -/
def codecRaw : UInt8 := 1

/-- Plain columns, each compressed. -/
def codecZstd : UInt8 := 2

/-- Typed columns, in the first format with attributes as they are. -/
def codecColumnar : UInt8 := 4

/-- Typed columns, in the first format with attributes by key. -/
def codecColumnarV2 : UInt8 := 5

/-- Ten columns, with attributes as pairs of texts. -/
def formatVersionV1 : UInt8 := 1

/-- Fourteen columns, with attributes as JSON. -/
def formatVersionV2 : UInt8 := 2

/-- All columns; the version that is written. -/
def formatVersion : UInt8 := 3

/-- The columns in the order of the block, as errors name them. -/
def columnNames : List String :=
  ["trace_id column", "span_id column", "parent_id column", "name column", "service column",
    "kind column", "status column", "start_ts column", "duration column", "attributes column",
    "status_description column", "events column", "resource column",
    "instrumentation_scope column", "links column", "trace_state column", "trace_flags column",
    "dropped_attributes_count column", "dropped_events_count column",
    "dropped_links_count column", "resource_schema_url column", "scope_schema_url column",
    "resource_dropped_attributes_count column", "scope_dropped_attributes_count column"]

/-- What errors call a column. -/
def columnName (i : Nat) : String :=
  columnNames.getD i ""

/-- The columns of the first format. -/
def v1Columns : Nat := 10

/-- The columns of the second format. -/
def v2Columns : Nat := 14

/-- Does the byte name a codec? -/
def knownCodec (codec : UInt8) : Bool :=
  codec == codecRaw || codec == codecZstd || codec == codecColumnar || codec == codecColumnarV2

/-- Codecs whose columns go through the typed encoders. -/
def isTypedCodec (codec : UInt8) : Bool :=
  codec == codecColumnar || codec == codecColumnarV2

/-! ### Encoding -/

/-- A presence byte, and the id of the parent if there is one. -/
def parentBytes : Option (FixedBytes 8) → List UInt8
  | some p => 1 :: p.val
  | none => [0]

/-- A text behind a two-byte length. -/
def shortPrefixed (t : Text) : List UInt8 :=
  leBytes 2 (utf8 t).length ++ utf8 t

/-- A number in four bytes. -/
def u32Bytes (x : UInt32) : List UInt8 :=
  leBytes 4 x.toNat

/-- The encoder refuses a kind or status out of range. -/
def checkKinds : List Span → Except String Unit
  | [] => .ok ()
  | e :: es => do
      rejectIf (4 < e.kind.toNat)
        s!"encode_span_block: span has invalid kind {e.kind} (must be 0..=4)"
      rejectIf (2 < e.status.toNat)
        s!"encode_span_block: span has invalid status {e.status} (must be 0..=2)"
      checkKinds es

/-- The texts that are stored behind a four-byte length, with their labels. -/
def wideTexts (e : Span) : List (String × Text) :=
  [("attributes", e.attributes), ("status_description", e.statusDescription),
    ("events", e.events), ("resource", e.resource),
    ("instrumentation_scope", e.instrumentationScope), ("links", e.rest.links),
    ("trace_state", e.rest.traceState), ("resource_schema_url", e.rest.resourceSchemaUrl),
    ("scope_schema_url", e.rest.scopeSchemaUrl)]

/-- The encoder refuses a text that its length field cannot count. -/
def checkTexts (limit : Nat) (problem : String) : List (String × Text) → Except String Unit
  | [] => .ok ()
  | (label, t) :: texts => do
      rejectIf (limit < (utf8 t).length) s!"encode_span_block: {label} {problem}"
      checkTexts limit problem texts

/-- The encoder's check of all texts of all spans. -/
def checkLengths : List Span → Except String Unit
  | [] => .ok ()
  | e :: es => do
      checkTexts u16Max "longer than 64KB" [("name", e.name), ("service", e.service)]
      checkTexts u32Max "exceeds u32::MAX bytes" (wideTexts e)
      checkLengths es

section Encode

variable (c : Compressors) (level : Int)

/-- A typed column of ids. -/
def fixedColumn {w : Nat} (ids : List (FixedBytes w)) : Except String (List UInt8) := do
  (← encodeFixedBytes c (ids.flatMap Subtype.val) w level).toBytes

/-- A typed column of texts. -/
def strColumn (texts : List Text) : Except String (List UInt8) := do
  (← encodeStr c texts texts.length level).toBytes

/-- A typed column of bytes. -/
def u8Column (values : List UInt8) : Except String (List UInt8) := do
  (← encodeU8 c values level).toBytes

/-- A typed column of integers. -/
def i64Column (values : List Int64) : Except String (List UInt8) := do
  (← encodeI64 c values level).toBytes

/-- A column of unsigned numbers, stored as signed ones. -/
def u32Column (values : List UInt32) : Except String (List UInt8) :=
  i64Column c level (values.map fun x => Int64.ofNat x.toNat)

/-- The columns of the typed codecs. -/
def typedColumns (es : List Span) : List (Except String (List UInt8)) :=
  [fixedColumn c level (es.map (·.traceId)),
    fixedColumn c level (es.map (·.rest.spanId)),
    zstdCompress c (es.flatMap fun e => parentBytes e.rest.parentSpanId) level,
    strColumn c level (es.map (·.name)),
    strColumn c level (es.map (·.service)),
    u8Column c level (es.map (·.kind)),
    u8Column c level (es.map (·.status)),
    i64Column c level (es.map (·.startTs)),
    i64Column c level (es.map (·.durationNs)),
    strColumn c level (es.map (·.attributes)),
    strColumn c level (es.map (·.statusDescription)),
    strColumn c level (es.map (·.events)),
    strColumn c level (es.map (·.resource)),
    strColumn c level (es.map (·.instrumentationScope)),
    strColumn c level (es.map (·.rest.links)),
    strColumn c level (es.map (·.rest.traceState)),
    u32Column c level (es.map (·.rest.traceFlags)),
    u32Column c level (es.map (·.rest.droppedAttributesCount)),
    u32Column c level (es.map (·.rest.droppedEventsCount)),
    u32Column c level (es.map (·.rest.droppedLinksCount)),
    strColumn c level (es.map (·.rest.resourceSchemaUrl)),
    strColumn c level (es.map (·.rest.scopeSchemaUrl)),
    u32Column c level (es.map (·.rest.resourceDroppedAttributesCount)),
    u32Column c level (es.map (·.rest.scopeDroppedAttributesCount))]

end Encode

/-- The columns of codec 1, which codec 2 compresses; there start times are differences. -/
def plainColumns (codec : UInt8) (es : List Span) : List (List UInt8) :=
  let starts := es.map (·.startTs)
  [es.flatMap fun e => e.traceId.val,
    es.flatMap fun e => e.rest.spanId.val,
    es.flatMap fun e => parentBytes e.rest.parentSpanId,
    es.flatMap fun e => shortPrefixed e.name,
    es.flatMap fun e => shortPrefixed e.service,
    es.map (·.kind),
    es.map (·.status),
    i64sToLeBytes (if codec = codecRaw then starts else deltas 0 starts),
    i64sToLeBytes (es.map (·.durationNs)),
    es.flatMap fun e => lenPrefixed e.attributes,
    es.flatMap fun e => lenPrefixed e.statusDescription,
    es.flatMap fun e => lenPrefixed e.events,
    es.flatMap fun e => lenPrefixed e.resource,
    es.flatMap fun e => lenPrefixed e.instrumentationScope,
    es.flatMap fun e => lenPrefixed e.rest.links,
    es.flatMap fun e => lenPrefixed e.rest.traceState,
    es.flatMap fun e => u32Bytes e.rest.traceFlags,
    es.flatMap fun e => u32Bytes e.rest.droppedAttributesCount,
    es.flatMap fun e => u32Bytes e.rest.droppedEventsCount,
    es.flatMap fun e => u32Bytes e.rest.droppedLinksCount,
    es.flatMap fun e => lenPrefixed e.rest.resourceSchemaUrl,
    es.flatMap fun e => lenPrefixed e.rest.scopeSchemaUrl,
    es.flatMap fun e => u32Bytes e.rest.resourceDroppedAttributesCount,
    es.flatMap fun e => u32Bytes e.rest.scopeDroppedAttributesCount]

variable (c : Compressors)

/-- The columns as a codec stores them. -/
def encodeColumns (es : List Span) (codec : UInt8) (level : Int) :
    Except String (List (List UInt8)) :=
  if isTypedCodec codec then (typedColumns c level es).mapM id
  else if codec = codecZstd then (plainColumns codec es).mapM fun col => zstdCompress c col level
  else .ok (plainColumns codec es)

/-- Version, codec, count, time range, the lengths of the columns and the columns. -/
def container (version codec : UInt8) (n : Nat) (tsMin tsMax : Int64) (cols : List (List UInt8)) :
    List UInt8 :=
  [version] ++ ([codec] ++ (leBytes 4 n ++ (i64Le tsMin ++ (i64Le tsMax ++
    (cols.flatMap (fun col => leBytes 4 col.length) ++ cols.flatten)))))

/-- The header, the lengths of the columns and the columns. -/
def encodeSpanBlock (es : List Span) (codec : UInt8) (level : Int) :
    Except String (List UInt8 × BlockMeta) := do
  rejectIf (es = []) "encode_span_block: refusing to encode an empty block"
  rejectIf (knownCodec codec = false) s!"encode_span_block: unknown codec {codec}"
  checkKinds es
  let tsMin := tsMinOf (es.map (·.startTs))
  let tsMax := tsMaxOf (es.map (·.startTs))
  let n := es.length
  rejectIf (u32Max < n) "encode_span_block: entry count exceeds u32::MAX"
  checkLengths es
  let cols ← encodeColumns c es codec level
  rejectIf (cols.any (fun col => u32Max < col.length) = true)
    "encode_span_block: column exceeds u32::MAX bytes"
  return (container formatVersion codec n tsMin tsMax cols, ⟨tsMin, tsMax, n, codec⟩)

/-! ### Parsing columns -/

/-- One presence byte for each span, and the id if there is a parent. -/
def parseParentsFrom : (n i : Nat) → ReadM (List (Option (FixedBytes 8)))
  | 0, _ => return []
  | n + 1, i => do
      let presence ← u8 "parent presence byte"
      if presence = 0 then return none :: (← parseParentsFrom n (i + 1))
      else if presence = 1 then
        let b ← take 8 "parent span id"
        return some (.ofList 8 b) :: (← parseParentsFrom n (i + 1))
      else throw s!"span block: span {i} has invalid parent presence byte {presence}"

/-- The plain column of parents, read to its end. -/
def parseParents (raw : List UInt8) (n : Nat) : Except String (List (Option (FixedBytes 8))) :=
  Reader.run raw do
    let parents ← parseParentsFrom n 0
    let left ← remaining
    rejectIf (left ≠ 0) "span block: trailing bytes in parent_id column"
    return parents

/-- Texts behind their lengths, in two bytes or four. -/
def parseLenStringsFrom (label : String) (wide : Bool) : (n i : Nat) → ReadM (List Text)
  | 0, _ => return []
  | n + 1, i => do
      let len ← if wide then u32 label else u16 label
      let value ← readText len label s!"span block: span {i}: {label} is not valid UTF-8"
      return value :: (← parseLenStringsFrom label wide n (i + 1))

/-- A plain column of texts, read to its end. -/
def parseLenStrings (raw : List UInt8) (n : Nat) (label : String) (wide : Bool) :
    Except String (List Text) :=
  Reader.run raw do
    let out ← parseLenStringsFrom label wide n 0
    let left ← remaining
    rejectIf (left ≠ 0) s!"span block: trailing bytes in {label}"
    return out

/-- The values of a column that has to fit into 32 bits. -/
def checkU32s (label : String) : (i : Nat) → List Int64 → Except String (List UInt32)
  | _, [] => .ok []
  | i, value :: values => do
      rejectIf (value.toInt < 0 ∨ (u32Max : Int) < value.toInt)
        s!"span block: span {i}: {label} value {value} is outside uint32"
      return UInt32.ofNat value.toInt.toNat :: (← checkU32s label (i + 1) values)

/-- A typed column of 32-bit numbers. -/
def decodeAdaptiveU32 (stored : List UInt8) (n : Nat) (label : String) :
    Except String (List UInt32) := do
  checkU32s label 0 (← decodeI64 c stored n)

/-- A plain column of 32-bit numbers. -/
def decodeRawU32 (raw : List UInt8) : List UInt32 :=
  (chunksExact 4 raw).map fun chunk => UInt32.ofNat (leNat chunk)

/-- The first kind out of range is an error. -/
def validateKinds : (i : Nat) → List UInt8 → Except String Unit
  | _, [] => .ok ()
  | i, kind :: kinds => do
      rejectIf (4 < kind.toNat) s!"span block: span {i} has invalid kind byte {kind}"
      validateKinds (i + 1) kinds

/-- The first status out of range is an error. -/
def validateStatuses : (i : Nat) → List UInt8 → Except String Unit
  | _, [] => .ok ()
  | i, status :: statuses => do
      rejectIf (2 < status.toNat) s!"span block: span {i} has invalid status byte {status}"
      validateStatuses (i + 1) statuses

/-- The decoder's check of kinds and statuses. -/
def validateKindsStatuses (kinds statuses : List UInt8) : Except String Unit := do
  validateKinds 0 kinds
  validateStatuses 0 statuses

/-- Columns of fixed width have the right length; `first` is the number of the first column. -/
def checkWidths (first : Nat) (cols : List (List UInt8)) (n : Nat) :
    List (Nat × Nat) → Except String Unit
  | [] => .ok ()
  | (i, width) :: widths => do
      let name := columnName (first + i)
      let got := (cols.getD i []).length
      let want := n * width
      rejectIf (got ≠ want) s!"span block: {name} is {got} bytes, expected {want} for {n} spans"
      checkWidths first cols n widths

/-! ### The container -/

/-- What the header of a block says, and its columns as stored. -/
structure Container where
  codec : UInt8
  n : Nat
  tsMin : Int64
  tsMax : Int64
  stored : List (List UInt8)

/-- The lengths of the columns. -/
def readLengths : List String → ReadM (List Nat)
  | [] => return []
  | name :: names => do
      let len ← u32 name
      return len :: (← readLengths names)

/-- The columns, as long as their lengths say. -/
def readColumns : List Nat → List String → ReadM (List (List UInt8))
  | len :: lens, name :: names => do
      let col ← take len name
      return col :: (← readColumns lens names)
  | _, _ => return []

/-- The frame of a block of whatever version. -/
def readContainer (names : List String) : ReadM Container := do
  let _ ← u8 "format version"
  let codec ← u8 "codec"
  rejectIf (knownCodec codec = false) s!"span block: unknown codec {codec}"
  let n ← u32 "entry_count"
  liftM (checkEntryCount n "span block")
  let tsMin ← i64 "ts_min"
  let tsMax ← i64 "ts_max"
  let lens ← readLengths names
  let stored ← readColumns lens names
  let left ← remaining
  rejectIf (left ≠ 0)
    s!"span block: {left} trailing byte(s) after last column (corrupt header?)"
  return ⟨codec, n, tsMin, tsMax, stored⟩

/-! ### Decoding versions 2 and 3 -/

/-- The columns that versions 2 and 3 share. -/
structure BaseColumns where
  traceFlat : List UInt8
  spanFlat : List UInt8
  parents : List (Option (FixedBytes 8))
  names : List Text
  services : List Text
  kinds : List UInt8
  statuses : List UInt8
  timestamps : List Int64
  durations : List Int64
  attributes : List Text
  statusDescriptions : List Text
  events : List Text
  resources : List Text
  scopes : List Text

/-- The columns that version 3 adds. -/
structure FidelityColumns where
  links : List Text
  traceStates : List Text
  traceFlags : List UInt32
  droppedAttributes : List UInt32
  droppedEvents : List UInt32
  droppedLinks : List UInt32
  resourceSchemaUrls : List Text
  scopeSchemaUrls : List Text
  resourceDroppedAttributes : List UInt32
  scopeDroppedAttributes : List UInt32

section Decode

variable (c : Compressors)

/-- The first fourteen columns, typed. -/
def decodeBaseTyped (stored : List (List UInt8)) (n : Nat) : Except String BaseColumns := do
  let traceFlat ← decodeFixedBytes c (stored.getD 0 []) n 16
  let spanFlat ← decodeFixedBytes c (stored.getD 1 []) n 8
  let parentRaw ← zstdDecompress c (stored.getD 2 []) (columnName 2)
  let parents ← parseParents parentRaw n
  let names ← decodeStr c (stored.getD 3 []) n
  let services ← decodeStr c (stored.getD 4 []) n
  let kinds ← decodeU8 c (stored.getD 5 []) n
  let statuses ← decodeU8 c (stored.getD 6 []) n
  let timestamps ← decodeI64 c (stored.getD 7 []) n
  let durations ← decodeI64 c (stored.getD 8 []) n
  let attributes ← decodeStr c (stored.getD 9 []) n
  let statusDescriptions ← decodeStr c (stored.getD 10 []) n
  let events ← decodeStr c (stored.getD 11 []) n
  let resources ← decodeStr c (stored.getD 12 []) n
  let scopes ← decodeStr c (stored.getD 13 []) n
  return ⟨traceFlat, spanFlat, parents, names, services, kinds, statuses, timestamps, durations,
    attributes, statusDescriptions, events, resources, scopes⟩

/-- The columns of codecs 1 and 2 as they were before compression, from the given one on. -/
def openColumns (codec : UInt8) : (i : Nat) → List (List UInt8) → Except String (List (List UInt8))
  | _, [] => .ok []
  | i, col :: cols => do
      let raw ← if codec = codecZstd then zstdDecompress c col (columnName i) else .ok col
      return raw :: (← openColumns codec (i + 1) cols)

/-- The widths of the columns that have one, by their number. -/
def baseWidths : List (Nat × Nat) :=
  [(0, 16), (1, 8), (5, 1), (6, 1), (7, 8), (8, 8)]

/-- Plain times, which the compressed codec stores as differences. -/
def plainTimestamps (codec : UInt8) (col : List UInt8) : List Int64 :=
  let values := (chunksExact 8 col).map i64OfLe
  if codec = codecZstd then undelta 0 values else values

/-- The first fourteen columns, plain. -/
def decodeBasePlain (codec : UInt8) (stored : List (List UInt8)) (n : Nat) :
    Except String BaseColumns := do
  let cols ← openColumns c codec 0 stored
  checkWidths 0 cols n baseWidths
  let timestamps := plainTimestamps codec (cols.getD 7 [])
  let durations := (chunksExact 8 (cols.getD 8 [])).map i64OfLe
  let parents ← parseParents (cols.getD 2 []) n
  let names ← parseLenStrings (cols.getD 3 []) n (columnName 3) false
  let services ← parseLenStrings (cols.getD 4 []) n (columnName 4) false
  let attributes ← parseLenStrings (cols.getD 9 []) n (columnName 9) true
  let statusDescriptions ← parseLenStrings (cols.getD 10 []) n (columnName 10) true
  let events ← parseLenStrings (cols.getD 11 []) n (columnName 11) true
  let resources ← parseLenStrings (cols.getD 12 []) n (columnName 12) true
  let scopes ← parseLenStrings (cols.getD 13 []) n (columnName 13) true
  return ⟨cols.getD 0 [], cols.getD 1 [], parents, names, services, cols.getD 5 [],
    cols.getD 6 [], timestamps, durations, attributes, statusDescriptions, events, resources,
    scopes⟩

/-- The first fourteen columns of whatever codec. -/
def decodeBase (codec : UInt8) (stored : List (List UInt8)) (n : Nat) : Except String BaseColumns :=
  if isTypedCodec codec then decodeBaseTyped c stored n else decodeBasePlain c codec stored n

/-- The columns that the third format added, typed. -/
def decodeFidelityTyped (stored : List (List UInt8)) (n : Nat) :
    Except String FidelityColumns := do
  let links ← decodeStr c (stored.getD 14 []) n
  let traceStates ← decodeStr c (stored.getD 15 []) n
  let traceFlags ← decodeAdaptiveU32 c (stored.getD 16 []) n (columnName 16)
  let droppedAttributes ← decodeAdaptiveU32 c (stored.getD 17 []) n (columnName 17)
  let droppedEvents ← decodeAdaptiveU32 c (stored.getD 18 []) n (columnName 18)
  let droppedLinks ← decodeAdaptiveU32 c (stored.getD 19 []) n (columnName 19)
  let resourceSchemaUrls ← decodeStr c (stored.getD 20 []) n
  let scopeSchemaUrls ← decodeStr c (stored.getD 21 []) n
  let resourceDroppedAttributes ← decodeAdaptiveU32 c (stored.getD 22 []) n (columnName 22)
  let scopeDroppedAttributes ← decodeAdaptiveU32 c (stored.getD 23 []) n (columnName 23)
  return ⟨links, traceStates, traceFlags, droppedAttributes, droppedEvents, droppedLinks,
    resourceSchemaUrls, scopeSchemaUrls, resourceDroppedAttributes, scopeDroppedAttributes⟩

/-- Which of the added columns are of fixed width. -/
def fidelityWidths : List (Nat × Nat) :=
  [(2, 4), (3, 4), (4, 4), (5, 4), (8, 4), (9, 4)]

/-- The columns that the third format added, plain. -/
def decodeFidelityPlain (codec : UInt8) (stored : List (List UInt8)) (n : Nat) :
    Except String FidelityColumns := do
  let cols ← openColumns c codec v2Columns (stored.drop v2Columns)
  checkWidths v2Columns cols n fidelityWidths
  let links ← parseLenStrings (cols.getD 0 []) n (columnName 14) true
  let traceStates ← parseLenStrings (cols.getD 1 []) n (columnName 15) true
  let resourceSchemaUrls ← parseLenStrings (cols.getD 6 []) n (columnName 20) true
  let scopeSchemaUrls ← parseLenStrings (cols.getD 7 []) n (columnName 21) true
  return ⟨links, traceStates, decodeRawU32 (cols.getD 2 []), decodeRawU32 (cols.getD 3 []),
    decodeRawU32 (cols.getD 4 []), decodeRawU32 (cols.getD 5 []), resourceSchemaUrls,
    scopeSchemaUrls, decodeRawU32 (cols.getD 8 []), decodeRawU32 (cols.getD 9 [])⟩

/-- The columns that the third format added, of whatever codec. -/
def decodeFidelity (codec : UInt8) (stored : List (List UInt8)) (n : Nat) :
    Except String FidelityColumns :=
  if isTypedCodec codec then decodeFidelityTyped c stored n
  else decodeFidelityPlain c codec stored n

end Decode

/-- What a span has besides the columns of version 2. -/
def defaultDetail (spanId : FixedBytes 8) (parentSpanId : Option (FixedBytes 8)) : SpanDetail :=
  ⟨spanId, parentSpanId, "[]".toList, [], 0, 0, 0, 0, [], [], 0, 0⟩

/-- The piece of a column of fixed width that belongs to a span. -/
def fixedAt (w : Nat) (flat : List UInt8) (i : Nat) : FixedBytes w :=
  .ofList w ((flat.drop (i * w)).take w)

/-- The columns back into spans. -/
def assemble (n : Nat) (b : BaseColumns) : List Span :=
  (List.range n).map fun i => {
    traceId := fixedAt 16 b.traceFlat i
    name := b.names.getD i []
    service := b.services.getD i []
    kind := b.kinds.getD i 0
    status := b.statuses.getD i 0
    statusDescription := b.statusDescriptions.getD i []
    startTs := b.timestamps.getD i 0
    durationNs := b.durations.getD i 0
    attributes := b.attributes.getD i []
    events := b.events.getD i []
    resource := b.resources.getD i []
    instrumentationScope := b.scopes.getD i []
    rest := defaultDetail (fixedAt 8 b.spanFlat i) (b.parents.getD i none) }

/-- Spans with their added fields filled in. -/
def withFidelity (f : FidelityColumns) (es : List Span) : List Span :=
  es.mapIdx fun i e => { e with
    rest := { e.rest with
      links := f.links.getD i []
      traceState := f.traceStates.getD i []
      traceFlags := f.traceFlags.getD i 0
      droppedAttributesCount := f.droppedAttributes.getD i 0
      droppedEventsCount := f.droppedEvents.getD i 0
      droppedLinksCount := f.droppedLinks.getD i 0
      resourceSchemaUrl := f.resourceSchemaUrls.getD i []
      scopeSchemaUrl := f.scopeSchemaUrls.getD i []
      resourceDroppedAttributesCount := f.resourceDroppedAttributes.getD i 0
      scopeDroppedAttributesCount := f.scopeDroppedAttributes.getD i 0 } }

/-- A block of JSON attributes, with the added columns if it has them. -/
def decodeSpanBlockV2V3 (version : UInt8) (bytes : List UInt8) :
    Except String (List Span) := do
  let names := if version = formatVersionV2 then columnNames.take v2Columns else columnNames
  let b ← Reader.run bytes (readContainer names)
  let base ← decodeBase c b.codec b.stored b.n
  validateKindsStatuses base.kinds base.statuses
  let out := assemble b.n base
  let out ←
    if version = formatVersion then do
      let f ← decodeFidelity c b.codec b.stored b.n
      pure (withFidelity f out)
    else pure out
  checkBlockRange "span block" b.n b.tsMin b.tsMax base.timestamps
  return out

/-! ### Decoding version 1 -/

/-- The attributes of one span of the first format. -/
def parseAttributePairs (i : Nat) : (pairs : Nat) → ReadM Pairs
  | 0 => return []
  | pairs + 1 => do
      let klen ← u16 "attribute key length"
      let k ← readText klen "attribute key" s!"span block: span {i}: attribute key is not valid UTF-8"
      let vlen ← u32 "attribute value length"
      let v ← readText vlen "attribute value"
        s!"span block: span {i}: attribute value is not valid UTF-8"
      return (k, v) :: (← parseAttributePairs i pairs)

/-- The attributes of spans of the first format. -/
def parseAttributesFrom : (n i : Nat) → ReadM (List Pairs)
  | 0, _ => return []
  | n + 1, i => do
      let pairs ← u16 "attribute pair count"
      let a ← parseAttributePairs i pairs
      return a :: (← parseAttributesFrom n (i + 1))

/-- The attributes column of the first format, read to its end. -/
def parseAttributes (raw : List UInt8) (n : Nat) : Except String (List Pairs) :=
  Reader.run raw do
    let attrs ← parseAttributesFrom n 0
    let left ← remaining
    rejectIf (left ≠ 0) "span block: trailing bytes in attributes column"
    return attrs

/-- Four hexadecimal digits. -/
def hex4 (n : Nat) : Text :=
  [n / 4096 % 16, n / 256 % 16, n / 16 % 16, n % 16].map Nat.digitChar

/-- A character in a JSON string. -/
def quotedChar (ch : Char) : Text :=
  if ch = '"' then "\\\"".toList
  else if ch = '\\' then "\\\\".toList
  else if ch.toNat = 8 then "\\b".toList
  else if ch.toNat = 12 then "\\f".toList
  else if ch = '\n' then "\\n".toList
  else if ch = '\r' then "\\r".toList
  else if ch = '\t' then "\\t".toList
  else if ch.toNat ≤ 31 then "\\u".toList ++ hex4 ch.toNat
  else [ch]

/-- A JSON string. -/
def quoted (value : Text) : Text :=
  '"' :: (value.flatMap quotedChar ++ ['"'])

/-- Pairs of the first format as a JSON object. -/
def legacyPairsToJson (pairs : Pairs) : Text :=
  "\x7b".toList ++ List.intercalate [','] (pairs.map fun p => quoted p.1 ++ ':' :: quoted p.2) ++
    "\x7d".toList

/-- The columns of version 1; the attributes are JSON already. -/
def v1Base (traceFlat spanFlat : List UInt8) (parents : List (Option (FixedBytes 8)))
    (names services : List Text) (kinds statuses : List UInt8) (timestamps durations : List Int64)
    (attrs : List Pairs) : BaseColumns where
  traceFlat := traceFlat
  spanFlat := spanFlat
  parents := parents
  names := names
  services := services
  kinds := kinds
  statuses := statuses
  timestamps := timestamps
  durations := durations
  attributes := attrs.map legacyPairsToJson
  statusDescriptions := List.replicate attrs.length []
  events := List.replicate attrs.length "[]".toList
  resources := List.replicate attrs.length "\x7b\x7d".toList
  scopes := List.replicate attrs.length "\x7b\x7d".toList

/-- The columns of the first format, typed. -/
def decodeV1Typed (codec : UInt8) (stored : List (List UInt8)) (n : Nat) :
    Except String BaseColumns := do
  let traceFlat ← decodeFixedBytes c (stored.getD 0 []) n 16
  let spanFlat ← decodeFixedBytes c (stored.getD 1 []) n 8
  let parentRaw ← zstdDecompress c (stored.getD 2 []) (columnName 2)
  let parents ← parseParents parentRaw n
  let names ← decodeStr c (stored.getD 3 []) n
  let services ← decodeStr c (stored.getD 4 []) n
  let kinds ← decodeU8 c (stored.getD 5 []) n
  let statuses ← decodeU8 c (stored.getD 6 []) n
  validateKindsStatuses kinds statuses
  let timestamps ← decodeI64 c (stored.getD 7 []) n
  let durations ← decodeI64 c (stored.getD 8 []) n
  let attrs ←
    if codec = codecColumnarV2 then decodePairsColumn c (stored.getD 9 []) n "attribute" parseAttributes
    else do
      let attrRaw ← zstdDecompress c (stored.getD 9 []) (columnName 9)
      parseAttributes attrRaw n
  return v1Base traceFlat spanFlat parents names services kinds statuses timestamps durations attrs

/-- The columns of the first format, plain. -/
def decodeV1Plain (codec : UInt8) (stored : List (List UInt8)) (n : Nat) :
    Except String BaseColumns := do
  let cols ← openColumns c codec 0 stored
  checkWidths 0 cols n baseWidths
  validateKindsStatuses (cols.getD 5 []) (cols.getD 6 [])
  let timestamps := plainTimestamps codec (cols.getD 7 [])
  let durations := (chunksExact 8 (cols.getD 8 [])).map i64OfLe
  let parents ← parseParents (cols.getD 2 []) n
  let names ← parseLenStrings (cols.getD 3 []) n (columnName 3) false
  let services ← parseLenStrings (cols.getD 4 []) n (columnName 4) false
  let attrs ← parseAttributes (cols.getD 9 []) n
  return v1Base (cols.getD 0 []) (cols.getD 1 []) parents names services (cols.getD 5 [])
    (cols.getD 6 []) timestamps durations attrs

/-- A block of the first format. -/
def decodeSpanBlockV1 (bytes : List UInt8) : Except String (List Span) := do
  let b ← Reader.run bytes (readContainer (columnNames.take v1Columns))
  let base ← if isTypedCodec b.codec then decodeV1Typed c b.codec b.stored b.n
    else decodeV1Plain c b.codec b.stored b.n
  checkBlockRange "span block" b.n b.tsMin b.tsMax base.timestamps
  return assemble b.n base

/-- A block of whatever version. -/
def decodeSpanBlock (bytes : List UInt8) : Except String (List Span) :=
  match bytes with
  | version :: _ =>
      if version = formatVersionV1 then decodeSpanBlockV1 c bytes
      else if version = formatVersionV2 ∨ version = formatVersion then
        decodeSpanBlockV2V3 c version bytes
      else .error
        s!"span block: unsupported format version {version} (this build speaks 1, 2, and 3)"
  | [] => .error "span block: missing format version"

end Timeless.Spans
