import Timeless.Blocks.Entry
import Timeless.Codec.Bitmap

/-!
# Metadata — the metadata columns of a block

Three formats store the metadata of a block's entries:

* the pair list of every entry, one after another (`serializeMetadata`);
* the *shredded* form, one column of values per key with a presence bitmap (`encodePairsColumn`);
  it can only express entries whose keys strictly increase, and falls back to the first format
  otherwise or when there are too many keys;
* for rich entries an envelope of exact severity and canonical JSON (`serializeRichMetadata`).
-/

namespace Timeless.Blocks

open Support Codec

/-- Metadata: keys and values. -/
abbrev Pairs := List (Text × Text)

/-- The largest length that fits into two bytes. -/
def u16Max : Nat := 2 ^ 16 - 1

/-! ### Pair lists -/

/-- A key as errors show it. -/
def shownKey (k : Text) : String :=
  let key := String.ofList k
  s!"\"{key}\""

/-- A key and a value, each behind its length. -/
def serializePair (p : Text × Text) : Except String (List UInt8) := do
  let key := shownKey p.1
  rejectIf (u16Max < (utf8 p.1).length) s!"encode_block: metadata key {key} longer than 64KB"
  rejectIf (u32Max < (utf8 p.2).length) s!"encode_block: metadata value for {key} too long"
  return leBytes 2 (utf8 p.1).length ++ (utf8 p.1 ++ lenPrefixed p.2)

/-- Pairs one after another. -/
def serializePairs : Pairs → Except String (List UInt8)
  | [] => .ok []
  | p :: ps => return (← serializePair p) ++ (← serializePairs ps)

/-- The plain column of metadata. -/
def serializeMetadata : List Pairs → Except String (List UInt8)
  | [] => .ok []
  | md :: mds => do
      rejectIf (u16Max < md.length)
        "encode_block: more than 65535 metadata pairs in one entry"
      let body ← serializePairs md
      return leBytes 2 md.length ++ (body ++ (← serializeMetadata mds))

/-- A string of `len` bytes that must be UTF-8. -/
def readText (len : Nat) (what : String) (notUtf8 : String) : ReadM Text := do
  let b ← take len what
  liftM (okOr (fromUtf8 b) notUtf8)

/-- The pairs of one entry. -/
def parsePairs (i : Nat) : (pairs : Nat) → ReadM Pairs
  | 0 => return []
  | pairs + 1 => do
      let klen ← u16 "metadata key length"
      let k ← readText klen "metadata key" s!"block: entry {i}: metadata key is not valid UTF-8"
      let vlen ← u32 "metadata value length"
      let v ← readText vlen "metadata value"
        s!"block: entry {i}: metadata value is not valid UTF-8"
      return (k, v) :: (← parsePairs i pairs)

/-- The pairs of entries. -/
def parseEntries : (n i : Nat) → ReadM (List Pairs)
  | 0, _ => return []
  | n + 1, i => do
      let pairs ← u16 "metadata pair count"
      let md ← parsePairs i pairs
      return md :: (← parseEntries n (i + 1))

/-- The plain column of metadata, read to its end. -/
def parseMetadata (raw : List UInt8) (n : Nat) : Except String (List Pairs) :=
  Reader.run raw do
    let metadatas ← parseEntries n 0
    let left ← remaining
    rejectIf (left ≠ 0) "block: trailing bytes in metadata column"
    return metadatas

/-! ### The shredded form -/

/-- With more keys metadata is not split by key. -/
def shredMaxKeys : Nat := 64

/-- Metadata as one compressed text. -/
def pairsLegacy : UInt8 := 0

/-- Metadata by key. -/
def pairsShredded : UInt8 := 1

/-- Keys strictly increase, so they are sorted and distinct. -/
def canonicalPairs (entry : Pairs) : Bool :=
  (entry.zip entry.tail).all fun w => textLt w.1.1 w.2.1

/-- The value an entry has under a key. -/
def pairValue (key : Text) (entry : Pairs) : Option Text :=
  entry.lookup key

/-- The table of keys. -/
def encodeKeys : List Text → Except String (List UInt8)
  | [] => .ok []
  | k :: ks => do
      let key := shownKey k
      rejectIf (u16Max < (utf8 k).length) s!"encode_pairs_column: key {key} longer than 64KB"
      return leBytes 2 (utf8 k).length ++ (utf8 k ++ (← encodeKeys ks))

variable (c : Compressors)

/-- For each key its presence bitmap and the values of the entries that have it. -/
def encodeKeyColumns (pairs : List Pairs) (level : Int) : List Text → Except String (List UInt8)
  | [] => .ok []
  | k :: ks => do
      let present := pairs.map fun entry => (pairValue k entry).isSome
      let dense := pairs.filterMap (pairValue k)
      let col ← (← encodeStr c dense dense.length level).toBytes
      return encodeBitmap present ++ (col ++ (← encodeKeyColumns pairs level ks))

/-- A column for each key, if there are few and each entry has them in order. -/
def encodePairsColumn (pairs : List Pairs) (legacyRaw : List UInt8) (level : Int) :
    Except String (List UInt8) := do
  let keys := sortedKeys (pairs.flatMap fun entry => entry.map Prod.fst)
  if !pairs.all canonicalPairs || shredMaxKeys < keys.length then
    return pairsLegacy :: (← zstdCompress c legacyRaw level)
  else
    let table ← encodeKeys keys
    let cols ← encodeKeyColumns c pairs level keys
    return pairsShredded :: (leBytes 2 keys.length ++ (table ++ cols))

/-- The keys table, which must strictly increase. -/
def readKeys (what : String) : (n i : Nat) → (prev : Option Text) → ReadM (List Text)
  | 0, _, _ => return []
  | n + 1, i, prev => do
      let klen ← u16 s!"{what} key length"
      let k ← readText klen s!"{what} key bytes" s!"{what} column: key {i} is not valid UTF-8"
      rejectIf (prev.any (fun p => !textLt p k) = true)
        s!"{what} column: keys table is not strictly sorted"
      return k :: (← readKeys what n (i + 1) (some k))

/-- Give the values of one key to the entries that are present. -/
def spread (key : Text) : List Pairs → List Bool → List Text → List Pairs
  | e :: es, true :: bs, v :: vs => (e ++ [(key, v)]) :: spread key es bs vs
  | e :: es, _ :: bs, vs => e :: spread key es bs vs
  | es, _, _ => es

/-- Add the values of key after key to the entries. -/
def readKeyColumns (what : String) (n : Nat) : List Text → List Pairs → ReadM (List Pairs)
  | [], out => return out
  | key :: keys, out => do
      let shown := shownKey key
      let bm ← take (bitmapLen n) s!"{what} presence bitmap"
      let present ← liftM ((decodeBitmap bm n).mapError fun e => s!"{what} column, key {shown}: {e}")
      let frame ← framedColumn s!"{what} value column"
      let values ← liftM ((decodeStr c frame (present.count true)).mapError
        fun e => s!"{what} column, key {shown}: {e}")
      readKeyColumns what n keys (spread key out present values)

/-- Metadata in either form. -/
def decodePairsColumn (bytes : List UInt8) (n : Nat) (what : String)
    (parseLegacy : List UInt8 → Nat → Except String (List Pairs)) : Except String (List Pairs) :=
  Reader.run bytes do
    let strategy ← u8 s!"{what} strategy byte"
    if strategy = pairsLegacy then
      let z ← take (← remaining) what
      let raw ← liftM (zstdDecompress c z s!"{what} column")
      liftM (parseLegacy raw n)
    else if strategy = pairsShredded then
      let nKeys ← u16 s!"{what} key count"
      rejectIf (shredMaxKeys < nKeys)
        s!"{what} column: {nKeys} shredded keys exceeds the cap {shredMaxKeys}"
      let keys ← readKeys what nKeys 0 none
      let out ← readKeyColumns c what n keys (List.replicate n [])
      let left ← remaining
      rejectIf (left ≠ 0) s!"{what} column: trailing bytes after last key"
      return out
    else throw s!"{what} column: unknown strategy byte {strategy}"

/-! ### The rich envelope -/

/-- What a rich block keeps of an entry besides time, level and message. -/
structure RichMetadata where
  severity : Text
  metadata : Pairs
  metadataJson : Text

variable {N : Type} (js : SerdeJson N)

/-- The canonical JSON an entry is stored with. -/
def entryJson (e : LogEntry) : Except String Text :=
  match e.metadataJson with
  | some json => canonicalMetadataJson js json
  | none => pairsMetadataJson js e.metadata

/-- The severity and the JSON of an entry. -/
def serializeRich (e : LogEntry) : Except String (List UInt8) := do
  rejectIf (u16Max < (utf8 e.severityName).length) "encode_block: severity exceeds u16::MAX bytes"
  let json ← entryJson js e
  rejectIf (u32Max < (utf8 json).length) "encode_block: metadata JSON exceeds u32::MAX bytes"
  return leBytes 2 (utf8 e.severityName).length ++ (utf8 e.severityName ++ lenPrefixed json)

/-- The rich column. -/
def serializeRichMetadata : List LogEntry → Except String (List UInt8)
  | [] => .ok []
  | e :: es => return (← serializeRich js e) ++ (← serializeRichMetadata es)

/-- The payload columns a reader asks for. -/
structure LogProjection where
  message : Bool
  metadata : Bool
  metadataPairs : Bool
  severity : Bool

namespace LogProjection

/-- Every column. -/
def all : LogProjection := ⟨true, true, true, true⟩

/-- Is anything of the rich column asked for? -/
def richEnvelope (p : LogProjection) : Bool :=
  p.metadata || p.metadataPairs || p.severity

end LogProjection

/-- The JSON of an entry, if any part of it is asked for. -/
def richJson (projection : LogProjection) (index : Nat) (json : Text) : Except String Text :=
  if projection.metadata || projection.metadataPairs then
    (canonicalMetadataJson js json).mapError fun e => s!"block: entry {index}: {e}"
  else .ok []

/-- The pairs, if asked for. -/
def richPairs (projection : LogProjection) (metadataJson : Text) : Except String Pairs :=
  if projection.metadataPairs then metadataPairsFromJson js metadataJson else .ok []

/-- The rich metadata of one entry, checked. -/
def parseRichEntry (projection : LogProjection) (index : Nat) : ReadM RichMetadata := do
  let severityLen ← u16 "severity length"
  let severity ← readText severityLen "severity bytes"
    s!"block: entry {index}: severity is not valid UTF-8"
  let _ ← liftM ((canonicalSeverity severity).mapError fun e => s!"block: entry {index}: {e}")
  let jsonLen ← u32 "metadata JSON length"
  let json ← readText jsonLen "metadata JSON bytes"
    s!"block: entry {index}: metadata JSON is not UTF-8"
  let metadataJson ← liftM (richJson js projection index json)
  let metadata ← liftM (richPairs js projection metadataJson)
  return ⟨severity, metadata, metadataJson⟩

/-- The rich metadata of entries. -/
def parseRichEntries (projection : LogProjection) : (n index : Nat) → ReadM (List RichMetadata)
  | 0, _ => return []
  | n + 1, index => do
      let rich ← parseRichEntry js projection index
      return rich :: (← parseRichEntries projection n (index + 1))

/-- The rich column, read to its end. -/
def parseRichMetadataProjected (bytes : List UInt8) (n : Nat) (projection : LogProjection) :
    Except String (List RichMetadata) :=
  Reader.run bytes do
    let out ← parseRichEntries js projection n 0
    let left ← remaining
    rejectIf (left ≠ 0) "block: trailing bytes in rich metadata column"
    return out

end Timeless.Blocks
