import Timeless.Engine.Session
import Timeless.Spans.Block
import Timeless.Support.Decimal

/-!
# Engine — the engine of spans

What traces bring to the engine they share with logs. The status of a span is its partition. A block
is indexed by terms, by the trace ids it holds, by filters over chosen attributes and by the extremes
of its durations; blocks from older stores have no durations, and maintenance fills them in.

The byte format of span blocks and the attribute filters are parameters (`SpanCodec`).
-/

namespace Timeless.Spans

open Support Codec

variable {D : Type}

/-! ### The index of a block -/

structure SpanDurationBounds where
  minNs : Int64
  maxNs : Int64
  ordered : minNs ≤ maxNs

/-- Index data of a block; `B` are the attribute filters. -/
structure SpanIndex (B : Type) where
  terms : List Text
  traceIds : List (FixedBytes 16)
  attributeBlooms : B
  durationBounds : Option SpanDurationBounds

def operationTerm (service name : Text) : Text :=
  "operation:".toList ++ decimal (utf8 service).length ++ ":".toList ++ service ++ name

def statusTerm (status : UInt8) : Text :=
  "status:".toList ++ statusName status

def entryTerms (e : SpanEntry D) : List Text :=
  ["kind:".toList ++ kindName e.kind, statusTerm e.status, "name:".toList ++ e.name] ++
    if e.service.isEmpty then []
    else ["service:".toList ++ e.service, "operations:".toList, operationTerm e.service e.name]

def extractTerms (entries : List (SpanEntry D)) : List Text :=
  sortedKeys (entries.flatMap entryTerms)

/-- Byte strings in order. -/
def BytesLe : List UInt8 → List UInt8 → Prop
  | [], _ => True
  | _ :: _, [] => False
  | a :: s, b :: t => a < b ∨ a = b ∧ BytesLe s t

instance : DecidableRel BytesLe := fun s t => by
  induction s generalizing t with
  | nil => exact .isTrue trivial
  | cons a s ih =>
      cases t with
      | nil => exact .isFalse id
      | cons b t =>
          have := ih t
          unfold BytesLe
          infer_instance

def extractTraceIds (entries : List (SpanEntry D)) : List (FixedBytes 16) :=
  (entries.map SpanEntry.traceId).dedup.insertionSort fun a b => BytesLe a.val b.val

def spanDurationBounds (entries : List (SpanEntry D)) : Except String SpanDurationBounds :=
  match entries.map SpanEntry.durationNs with
  | [] => .error "cannot encode duration bounds for an empty span block"
  | first :: durations =>
      let lo := durations.foldl min first
      let hi := durations.foldl max first
      if h : lo ≤ hi then .ok ⟨lo, hi, h⟩
      else .error s!"invalid span duration bounds: minimum {lo} exceeds maximum {hi}"

/-- The status of a block that has the term of only one. -/
def statusPartition (terms : List Text) : Option UInt8 :=
  match [0, 1, 2].filter fun status => terms.contains (statusTerm status) with
  | [status] => some status
  | _ => none

/-! ### The signal -/

structure SpanEngineConfig where
  flushThreshold : Nat
  zstdLevel : Int
  mergeTargetEntries : Nat
  mergeMaxTsSpan : Int64
  autoOptimizeBudgetEntries : Nat

def SpanEngineConfig.default : SpanEngineConfig where
  flushThreshold := 8192
  zstdLevel := 7
  mergeTargetEntries := 8192
  mergeMaxTsSpan := Int64.maxValue
  autoOptimizeBudgetEntries := 32768

/-- The byte format of span blocks, and the attribute filters. -/
structure SpanCodec (D B : Type) where
  encode : List (SpanEntry D) → UInt8 → Int → Except String (List UInt8 × Blocks.BlockMeta)
  decode : List UInt8 → Except String (List (SpanEntry D))
  blooms : List (SpanEntry D) → Except String B

variable {B : Type} (sc : SpanCodec D B) (cfg : SpanEngineConfig)

def encodeSpans (codec : UInt8) (entries : List (SpanEntry D)) :
    Except String (Engine.Encoded (SpanIndex B)) := do
  let (data, blockMeta) ← sc.encode entries codec cfg.zstdLevel
  let blooms ← sc.blooms entries
  let bounds ← spanDurationBounds entries
  return ⟨blockMeta, data, extractTerms entries, extractTraceIds entries, blooms, some bounds⟩

def spanSignal : Engine.Signal (SpanEntry D) (SpanIndex B) where
  flushThreshold := cfg.flushThreshold
  autoOptimizeBudget := cfg.autoOptimizeBudgetEntries
  plan := {
    partitions := 3
    isRaw := (· == codecRaw)
    mergeTargetEntries := cfg.mergeTargetEntries
    mergeMaxTsSpan := cfg.mergeMaxTsSpan
    spanGrowthLimit := none }
  accept := accept
  ts := SpanEntry.startTs
  part := SpanEntry.status
  rawIngestBytes := SpanEntry.rawIngestBytes
  encodeRun := encodeSpans sc cfg codecRaw
  encodeGroup := encodeSpans sc cfg codecColumnarV2
  decode := sc.decode
  budgetError := "optimize span budget must be positive"
  purge := none
  backfill := some {
    missing := fun index => index.durationBounds.isNone
    fill := fun entries => do
      let bounds ← spanDurationBounds entries
      return fun index => { index with durationBounds := some bounds } }
  partitionOf := fun index => statusPartition index.terms

end Timeless.Spans
