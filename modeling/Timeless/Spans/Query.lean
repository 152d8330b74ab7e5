import Timeless.Spans.Attributes
import Timeless.Spans.Engine
import Timeless.Spans.Projected

/-!
# Query — the spans of an engine that match

A query asks the store for candidate blocks: those with the trace, or those with the terms of its
filters, that overlap its time and duration ranges and whose attribute filter may have the scalar it
looks for. Of these the matching spans are decoded; the buffered spans are matched one by one.

This is the unbounded query of `spans/engine.rs` with all columns, over the tables of
`shadow_span_store.rs`.
-/

namespace Timeless.Spans

open Support Codec Engine
open Blocks (SerdeJson)

/-! ### Matches -/

structure SpanQuery (js : SerdeJson JsonNumber) where
  tsMin : Int64
  tsMax : Int64
  traceId : Option (FixedBytes 16)
  service : Option Text
  kind : Option UInt8
  status : Option UInt8
  name : Option Text
  attributeFilter : Option (SpanAttributeFilter js)

inductive SpanQueryOrder where
  | asc
  | desc
  deriving DecidableEq

section Matches

variable {js : SerdeJson JsonNumber} (q : SpanQuery js) (durationMin durationMax : Int64)

/-- Does a span match, its attributes apart? -/
def fieldsMatch (row : SpanPredicateRow) : Bool :=
  !(decide (row.startTs < q.tsMin) || decide (q.tsMax < row.startTs)) &&
    !(decide (row.durationNs < durationMin) || decide (durationMax < row.durationNs)) &&
    q.traceId.all (fun value => row.traceId == value) &&
    q.service.all (fun value => row.service == value) &&
    q.kind.all (fun value => row.kind == value) &&
    q.status.all (fun value => row.status == value) &&
    q.name.all (fun value => row.name == value)

def entryMatches (e : Span) : Except String Bool :=
  if fieldsMatch q durationMin durationMax (entryPredicateRow e) then
    match q.attributeFilter with
    | some filter => filter.matchesEntry e
    | none => .ok true
  else .ok false

/-- The text that a scope's attributes are in, of a row. -/
def SpanPredicateRow.json (row : SpanPredicateRow) : SpanAttributeScope → Text
  | .span => row.attributes
  | .resource => row.resource
  | .instrumentationScope => row.instrumentationScope

def predicateRowMatches (row : SpanPredicateRow) : Except String Bool :=
  if fieldsMatch q durationMin durationMax row then
    match q.attributeFilter with
    | some filter => filter.matchesJson (row.json filter.index.scope)
    | none => .ok true
  else .ok false

def scopeMask : SpanAttributeScope → SpanColumnMask
  | .span => .attributes
  | .resource => .resource
  | .instrumentationScope => .instrumentationScope

/-- The columns that the conditions of a query look at. -/
def queryPredicateMask : SpanColumnMask :=
  (if q.traceId.isSome then .traceId else 0) ||| (if q.name.isSome then .name else 0) |||
    (if q.service.isSome then .service else 0) ||| (if q.kind.isSome then .kind else 0) |||
    (if q.status.isSome then .status else 0) |||
    (if q.tsMin ≠ Int64.minValue ∨ q.tsMax ≠ Int64.maxValue then .startTs else 0) |||
    (if durationMin ≠ Int64.minValue ∨ durationMax ≠ Int64.maxValue then .durationNs else 0) |||
    (match q.attributeFilter with
    | some filter => scopeMask filter.index.scope
    | none => 0)

end Matches

/-! ### Candidates -/

/-- A row of the table of attribute filters. -/
structure BloomRow where
  bloom : SpanAttributeBloom
  hashVersion : Nat
  checksum : List UInt8

/-- What is written for a filter. -/
def BloomRow.of (bloom : SpanAttributeBloom) : BloomRow :=
  ⟨bloom, spanAttributeBloomVersion, spanAttributeBloomChecksum bloom.bits⟩

/-- A row of the block table with its index data. -/
abbrev SpanRow := Row (SpanIndex (List BloomRow))

/-- Blocks that may have spans in a time and a duration range. -/
def inBounds (tsMin tsMax durationMin durationMax : Int64) (r : SpanRow) : Bool :=
  decide (r.blockMeta.tsMin ≤ tsMax) && decide (tsMin ≤ r.blockMeta.tsMax) &&
    r.extra.durationBounds.all fun d => decide (durationMin ≤ d.maxNs) && decide (d.minNs ≤ durationMax)

def queryTermsWithDurationBounds (rows : List SpanRow) (terms : List Text)
    (tsMin tsMax durationMin durationMax : Int64) : List SpanRow :=
  (rows.filter fun r => inBounds tsMin tsMax durationMin durationMax r &&
    terms.all fun t => r.extra.terms.contains t).insertionSort
      fun a b => a.blockMeta.tsMin ≤ b.blockMeta.tsMin

def queryTraceWithDurationBounds (rows : List SpanRow) (traceId : FixedBytes 16)
    (tsMin tsMax durationMin durationMax : Int64) : List SpanRow :=
  (rows.filter fun r => r.extra.traceIds.contains traceId &&
    inBounds tsMin tsMax durationMin durationMax r).insertionSort
      fun a b => a.blockMeta.tsMin ≤ b.blockMeta.tsMin

section Locations

variable {js : SerdeJson JsonNumber}

/-- Can a block have the scalar of a filter? A block without such an attribute filter can. -/
def attributeMayMatch (filter : SpanAttributeFilter js) (r : SpanRow) : Except String Bool :=
  match r.extra.attributeBlooms.find? fun row => row.bloom.index = filter.index with
  | none => .ok true
  | some row => do
      rejectIf (row.hashVersion ≠ spanAttributeBloomVersion)
        s!"trace attribute bloom for block {r.id} has version {row.hashVersion}; expected {spanAttributeBloomVersion}"
      (validateSpanAttributeBloom row.bloom.bits).mapError fun error =>
        s!"trace attribute bloom for block {r.id} is corrupt: {error}"
      rejectIf (row.checksum ≠ spanAttributeBloomChecksum row.bloom.bits)
        s!"trace attribute bloom checksum mismatch for block {r.id}"
      row.bloom.mightContain filter.scalarJson

def filterAttributeBlocks (filter : SpanAttributeFilter js) (blocks : List SpanRow) :
    Except String (List SpanRow) :=
  selectM (attributeMayMatch filter) blocks

def validateQuery (indexes : List SpanAttributeIndex) (q : SpanQuery js) : Except String Unit := do
  let kind := q.kind.getD 0
  rejectIf (4 < kind) s!"invalid kind {kind} in query"
  let status := q.status.getD 0
  rejectIf (2 < status) s!"invalid status {status} in query"
  match q.attributeFilter with
  | none => return ()
  | some filter =>
      let scope := filter.index.scope.name
      let path := String.ofList filter.index.path
      rejectIf (filter.index ∉ indexes)
        s!"trace attribute filter {scope}:{path} is not configured for this table"

/-- The terms that a block must carry. -/
def queryTerms (q : SpanQuery js) : List Text :=
  (q.service.map fun service => "service:".toList ++ service).toList ++
    (q.kind.map fun kind => "kind:".toList ++ kindName kind).toList ++
    (q.status.map statusTerm).toList ++
    (q.name.map fun name => "name:".toList ++ name).toList

/-- The blocks with the trace or with the terms of a query, in its ranges. -/
def candidateLocations (rows : List SpanRow) (q : SpanQuery js) (durationMin durationMax : Int64) :
    List SpanRow :=
  match q.traceId with
  | some traceId =>
      (queryTraceWithDurationBounds rows traceId q.tsMin q.tsMax durationMin durationMax).filter
        fun r => decide (r.blockMeta.tsMin ≤ q.tsMax) && decide (q.tsMin ≤ r.blockMeta.tsMax)
  | none => queryTermsWithDurationBounds rows (queryTerms q) q.tsMin q.tsMax durationMin durationMax

/-- The blocks to be decoded. -/
def queryLocations (rows : List SpanRow) (q : SpanQuery js) (durationMin durationMax : Int64) :
    Except String (List SpanRow) :=
  if durationMax < durationMin then .ok []
  else
    let candidates := candidateLocations rows q durationMin durationMax
    match q.attributeFilter with
    | some filter => filterAttributeBlocks filter candidates
    | none => .ok candidates

end Locations

/-! ### The query -/

/-- The order of spans in a result. -/
def SpanLe (order : SpanQueryOrder) (a b : Span) : Prop :=
  match order with
  | .asc => a.startTs < b.startTs ∨ a.startTs = b.startTs ∧ BytesLe a.rest.spanId.val b.rest.spanId.val
  | .desc => b.startTs < a.startTs ∨ b.startTs = a.startTs ∧ BytesLe b.rest.spanId.val a.rest.spanId.val

instance (order : SpanQueryOrder) : DecidableRel (SpanLe order) := fun a b => by
  cases order <;> unfold SpanLe <;> infer_instance

section Query

variable (c : Compressors) {js : SerdeJson JsonNumber} (indexes : List SpanAttributeIndex)

/-- The matching spans of one block. -/
def blockMatches (q : SpanQuery js) (durationMin durationMax : Int64) (bytes : List UInt8) :
    Except String (List Span) :=
  decodeSpanBlockProjected c bytes (queryPredicateMask q durationMin durationMax)
    (SpanColumnMask.all ||| .startTs ||| .spanId) (predicateRowMatches q durationMin durationMax)

def queryOrderedWithDuration (e : BlockEngine Span (SpanIndex (List BloomRow))) (q : SpanQuery js)
    (durationMin durationMax : Int64) (order : SpanQueryOrder) : Except String (List Span) := do
  validateQuery indexes q
  let blocks ← queryLocations e.store.rows q durationMin durationMax
  let buffered ← selectM (entryMatches q durationMin durationMax) e.buffer
  let found ← blocks.mapM fun r => blockMatches c q durationMin durationMax r.data
  return (found.flatten ++ buffered).insertionSort (SpanLe order)

def query (e : BlockEngine Span (SpanIndex (List BloomRow))) (q : SpanQuery js) :
    Except String (List Span) :=
  queryOrderedWithDuration c indexes e q Int64.minValue Int64.maxValue .asc

/-- Span blocks as they are written, with the attribute filters of a table. -/
def spanCodec (js : SerdeJson JsonNumber) : SpanCodec SpanDetail (List BloomRow) where
  encode := encodeSpanBlock c
  decode := decodeSpanBlock c
  blooms := fun es => do
    let blooms ← buildSpanAttributeBlooms js es indexes
    return blooms.map BloomRow.of

end Query

end Timeless.Spans
