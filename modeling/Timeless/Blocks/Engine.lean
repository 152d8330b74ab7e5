import Timeless.Blocks.Decode
import Timeless.Engine.Session
import Mathlib.Data.List.Destutter

/-!
# Engine — the engine of log entries

What logs bring to the engine they share with traces: how an entry is checked and brought to its
normal form, the codecs of a flush and of maintenance, and the terms that index a block. A block
carries a term for every level it holds, one for every pair whose key is indexed, and, if the
engine was asked for it, one for every trigram of its messages together with a marker. All terms
share one name space.

The first maintenance of an engine that was not asked for trigrams drops every term that starts
like one.
-/

namespace Timeless.Blocks

open Support Codec

/-! ### Configuration -/

/-- The settings of a log table. -/
structure BlockEngineConfig where
  flushThreshold : Nat
  zstdLevel : Int
  mergeTargetEntries : Nat
  mergeMaxTsSpan : Int64
  mergeSpanGrowthLimit : Int64
  messageTrigrams : Bool
  indexKeys : List Text
  autoOptimizeBudgetEntries : Nat

/-- The settings without arguments. -/
def BlockEngineConfig.default : BlockEngineConfig where
  flushThreshold := 8192
  zstdLevel := 7
  mergeTargetEntries := 8192
  mergeMaxTsSpan := Int64.maxValue
  mergeSpanGrowthLimit := 2
  messageTrigrams := false
  indexKeys := []
  autoOptimizeBudgetEntries := 32768

/-! ### Admission -/

/-- The exact severity of an entry, in its kept spelling; it must belong to the entry's level. -/
def normalizeSeverity (severity : Text) (level : UInt8) : Except String Text := do
  let canonical ← canonicalSeverity severity
  let bucket ← levelFromName canonical
  let shown := shownKey canonical
  rejectIf (bucket ≠ level) s!"severity {shown} belongs to level bucket {bucket}, not {level}"
  return canonical

/-- A severity in its canonical name, which has to suit the level. -/
def normalizeRichEntry (e : LogEntry) : Except String LogEntry :=
  match e.severity with
  | none => .ok e
  | some severity => do
      let canonical ← normalizeSeverity severity e.level
      return { e with severity := some canonical }

/-- Pairs in key order; of several with one key, the last stays. -/
def normalizeMetadata (metadata : Pairs) : Pairs :=
  ((metadata.insertionSort fun a b => textLe a.1 b.1 = true).reverse.destutter
    fun a b => a.1 ≠ b.1).reverse

/-- An entry as it is kept, or why it is refused. -/
def accept (e : LogEntry) : Except String LogEntry := do
  rejectIf (3 < e.level.toNat) s!"invalid level {e.level} (0=debug 1=info 2=warning 3=error)"
  let e ← normalizeRichEntry e
  return { e with metadata := normalizeMetadata e.metadata }

/-! ### Raw size -/

/-- The bytes of a text in a JSON string. -/
def jsonEscapedBytes (s : Text) : Nat :=
  (s.map fun ch =>
    if ch ∈ ['"', '\\', '\n', '\r', '\t'] then 2
    else if ch.toNat < 0x20 then 6
    else ch.utf8Size).sum

/-- The bytes of pairs as a JSON object. -/
def flatJsonBytes (pairs : Pairs) : Nat :=
  2 + (pairs.length - 1) +
    (pairs.map fun p => 5 + jsonEscapedBytes p.1 + jsonEscapedBytes p.2).sum

/-- What an entry adds to the total of ingested bytes. -/
def LogEntry.rawIngestBytes (e : LogEntry) : Nat :=
  8 + 1 + (utf8 e.message).length +
    match e.metadataJson with
    | some json => (utf8 json).length
    | none => flatJsonBytes e.metadata

/-! ### Terms -/

/-- The index term of a level. -/
def levelTerm (level : UInt8) : Text :=
  "level:".toList ++ levelName level

/-- The index term of a metadata pair. -/
def pairTerm (k v : Text) : Text :=
  k ++ ":".toList ++ v

/-- Two digits. -/
def hexByte (b : UInt8) : Text :=
  [Nat.digitChar (b.toNat / 16), Nat.digitChar (b.toNat % 16)]

/-- What the terms of trigrams start with; alone, it marks a block that has them. -/
def tgMarker : Text :=
  "tg:".toList

/-- The index term of three bytes of a message. -/
def tgTerm (w : List UInt8) : Text :=
  tgMarker ++ w.flatMap hexByte

/-- The windows of three bytes of a text, up to ASCII case. -/
def messageTrigramsOf (text : Text) : List (List UInt8) :=
  (windows 3 (utf8 text)).map fun w => w.map toAsciiLowercase

/-- With more trigrams a block lists none. -/
def maxBlockTrigrams : Nat := 4096

/-- The distinct trigrams of messages; the collection stops once it is over the budget. -/
def collectTrigrams : List Text → List (List UInt8) → List (List UInt8)
  | [], set => set
  | msg :: msgs, set =>
      let set := (set ++ messageTrigramsOf msg).dedup
      if maxBlockTrigrams < set.length then set else collectTrigrams msgs set

/-- The marker and the trigrams of a block, unless they are not wanted or too many. -/
def trigramTerms (wanted : Bool) (entries : List LogEntry) : List Text :=
  let trigrams := collectTrigrams (entries.map LogEntry.message) []
  if wanted = true ∧ trigrams.length ≤ maxBlockTrigrams then tgMarker :: trigrams.map tgTerm
  else []

/-- The index terms of an entry, trigrams apart. -/
def entryTerms (indexKeys : List Text) (e : LogEntry) : List Text :=
  levelTerm e.level ::
    (e.metadata.filter fun p => indexKeys.contains p.1).map fun p => pairTerm p.1 p.2

/-- The index terms of a block. -/
def extractTerms (cfg : BlockEngineConfig) (entries : List LogEntry) : List Text :=
  sortedKeys (entries.flatMap (entryTerms cfg.indexKeys) ++
    trigramTerms cfg.messageTrigrams entries)

/-- The terms that stay when those that start like a trigram's are dropped. -/
def purgeTrigrams (terms : List Text) : List Text :=
  terms.filter fun t => !tgMarker.isPrefixOf t

/-- The level of a block that has the term of only one. -/
def levelPartition (terms : List Text) : Option UInt8 :=
  match [0, 1, 2, 3].filter fun level => terms.contains (levelTerm level) with
  | [level] => some level
  | _ => none

/-! ### The signal -/

section Signal

variable (c : Compressors) {N : Type} (js : SerdeJson N) (cfg : BlockEngineConfig)

/-- Encode entries under one codec, or under another if one of them is rich. -/
def encodeEntries (legacy rich : UInt8) (entries : List LogEntry) :
    Except String (Engine.Encoded (List Text)) := do
  let codec := if entries.any LogEntry.isRich then rich else legacy
  let (data, blockMeta) ← encodeBlock c js entries codec cfg.zstdLevel
  return ⟨blockMeta, data, extractTerms cfg entries⟩

/-- The engine's parameters for logs. -/
def logSignal : Engine.Signal LogEntry (List Text) where
  flushThreshold := cfg.flushThreshold
  autoOptimizeBudget := cfg.autoOptimizeBudgetEntries
  plan := {
    partitions := 4
    isRaw := isRawCodec
    mergeTargetEntries := cfg.mergeTargetEntries
    mergeMaxTsSpan := cfg.mergeMaxTsSpan
    spanGrowthLimit := some cfg.mergeSpanGrowthLimit }
  accept := accept
  ts := LogEntry.ts
  part := LogEntry.level
  rawIngestBytes := LogEntry.rawIngestBytes
  encodeRun := encodeEntries c js cfg codecRaw codecRichRaw
  encodeGroup := encodeEntries c js cfg codecColumnarV2 codecRichTemplate
  decode := decodeBlock c js
  budgetError := "optimize entry budget must be positive"
  purge := if cfg.messageTrigrams then none else some purgeTrigrams
  backfill := none
  partitionOf := levelPartition

variable {c js cfg}

theorem logSignal_purge {keep : List Text → List Text}
    (h : (logSignal c js cfg).purge = some keep) : keep = purgeTrigrams := by
  unfold logSignal at h
  dsimp only at h
  split_ifs at h
  exact (Option.some.inj h).symm

end Signal

end Timeless.Blocks
