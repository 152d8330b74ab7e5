import Timeless.Codec.Selected
import Timeless.Spans.Block

/-!
# Projected — the matching spans of a block, and of them some columns

A query first decodes the columns that its conditions look at, judges each row by them, and then
decodes the columns it was asked for, for the rows that are left. Blocks of the codecs that have no
typed columns are decoded whole.

This is the model of `decode_span_block_projected`.
-/

namespace Timeless.Spans

open Support Codec

/-! ### Masks -/

/-- Columns that are asked for: one bit for each column of version 2, and one for all later ones. -/
abbrev SpanColumnMask := BitVec 16

namespace SpanColumnMask

def traceId : SpanColumnMask := 1 <<< 0
def spanId : SpanColumnMask := 1 <<< 1
def name : SpanColumnMask := 1 <<< 3
def service : SpanColumnMask := 1 <<< 4
def kind : SpanColumnMask := 1 <<< 5
def status : SpanColumnMask := 1 <<< 6
def startTs : SpanColumnMask := 1 <<< 7
def durationNs : SpanColumnMask := 1 <<< 8
def attributes : SpanColumnMask := 1 <<< 9
def resource : SpanColumnMask := 1 <<< 12
def instrumentationScope : SpanColumnMask := 1 <<< 13

/-- Every column. -/
def all : SpanColumnMask := (1 <<< 15) - 1

/-- Is a column asked for? -/
def column (mask : SpanColumnMask) (i : Nat) : Bool :=
  if i < v2Columns then mask.getLsbD i else mask.getLsbD 14

end SpanColumnMask

/-! ### Columns -/

/-- The values of one column for some rows. -/
inductive ProjectedColumn where
  | traceIds (values : List (FixedBytes 16))
  | spanIds (values : List (FixedBytes 8))
  | parents (values : List (Option (FixedBytes 8)))
  | strings (values : List Text)
  | bytes (values : List UInt8)
  | integers (values : List Int64)
  | unsigned (values : List UInt32)

/-- Set a field of a span to the value of a row; a value of another kind cannot come. -/
def ProjectedColumn.assign (values : ProjectedColumn) (column source : Nat) (e : Span) : Span :=
  match column, values with
  | 0, .traceIds vs => { e with traceId := vs.getD source e.traceId }
  | 1, .spanIds vs => { e with rest := { e.rest with spanId := vs.getD source e.rest.spanId } }
  | 2, .parents vs => { e with rest := { e.rest with parentSpanId := vs.getD source none } }
  | 3, .strings vs => { e with name := vs.getD source [] }
  | 4, .strings vs => { e with service := vs.getD source [] }
  | 5, .bytes vs => { e with kind := vs.getD source 0 }
  | 6, .bytes vs => { e with status := vs.getD source 0 }
  | 7, .integers vs => { e with startTs := vs.getD source 0 }
  | 8, .integers vs => { e with durationNs := vs.getD source 0 }
  | 9, .strings vs => { e with attributes := vs.getD source [] }
  | 10, .strings vs => { e with statusDescription := vs.getD source [] }
  | 11, .strings vs => { e with events := vs.getD source [] }
  | 12, .strings vs => { e with resource := vs.getD source [] }
  | 13, .strings vs => { e with instrumentationScope := vs.getD source [] }
  | 14, .strings vs => { e with rest := { e.rest with links := vs.getD source [] } }
  | 15, .strings vs => { e with rest := { e.rest with traceState := vs.getD source [] } }
  | 16, .unsigned vs => { e with rest := { e.rest with traceFlags := vs.getD source 0 } }
  | 17, .unsigned vs => { e with rest := { e.rest with droppedAttributesCount := vs.getD source 0 } }
  | 18, .unsigned vs => { e with rest := { e.rest with droppedEventsCount := vs.getD source 0 } }
  | 19, .unsigned vs => { e with rest := { e.rest with droppedLinksCount := vs.getD source 0 } }
  | 20, .strings vs => { e with rest := { e.rest with resourceSchemaUrl := vs.getD source [] } }
  | 21, .strings vs => { e with rest := { e.rest with scopeSchemaUrl := vs.getD source [] } }
  | 22, .unsigned vs =>
      { e with rest := { e.rest with resourceDroppedAttributesCount := vs.getD source 0 } }
  | 23, .unsigned vs =>
      { e with rest := { e.rest with scopeDroppedAttributesCount := vs.getD source 0 } }
  | _, _ => e

/-- The values of columns that are not read. -/
def emptyProjectedSpan : Span where
  traceId := ⟨List.replicate 16 0, rfl⟩
  name := []
  service := []
  kind := 0
  status := 0
  statusDescription := []
  startTs := 0
  durationNs := 0
  attributes := "\x7b\x7d".toList
  events := "[]".toList
  resource := "\x7b\x7d".toList
  instrumentationScope := "\x7b\x7d".toList
  rest := defaultDetail ⟨List.replicate 8 0, rfl⟩ none

/-- Drop the columns that were not asked for. -/
def clearUnprojected (mask : SpanColumnMask) (e : Span) : Span :=
  let d := emptyProjectedSpan
  { traceId := if mask.column 0 then e.traceId else d.traceId
    name := if mask.column 3 then e.name else d.name
    service := if mask.column 4 then e.service else d.service
    kind := if mask.column 5 then e.kind else d.kind
    status := if mask.column 6 then e.status else d.status
    startTs := if mask.column 7 then e.startTs else d.startTs
    durationNs := if mask.column 8 then e.durationNs else d.durationNs
    attributes := if mask.column 9 then e.attributes else d.attributes
    statusDescription := if mask.column 10 then e.statusDescription else d.statusDescription
    events := if mask.column 11 then e.events else d.events
    resource := if mask.column 12 then e.resource else d.resource
    instrumentationScope := if mask.column 13 then e.instrumentationScope
      else d.instrumentationScope
    rest :=
      let spanId := if mask.column 1 then e.rest.spanId else d.rest.spanId
      let parentSpanId := if mask.column 2 then e.rest.parentSpanId else none
      if mask.column 14 then { e.rest with spanId := spanId, parentSpanId := parentSpanId }
      else defaultDetail spanId parentSpanId }

section Decode

variable (c : Compressors)

/-- One column for some rows. -/
def decodeColumnarColumn (stored : List (List UInt8)) (n column : Nat) (selected : List Nat) :
    Except String ProjectedColumn :=
  let col := stored.getD column []
  match column with
  | 0 => do return .traceIds (selected.map (fixedAt 16 (← decodeFixedBytes c col n 16)))
  | 1 => do return .spanIds (selected.map (fixedAt 8 (← decodeFixedBytes c col n 8)))
  | 2 => do
      let parents ← parseParents (← zstdDecompress c col (columnName 2)) n
      return .parents (selected.map fun i => parents.getD i none)
  | 5 => do
      let values ← decodeU8 c col n
      validateKindsStatuses values []
      return .bytes (selected.map fun i => values.getD i 0)
  | 6 => do
      let values ← decodeU8 c col n
      validateKindsStatuses [] values
      return .bytes (selected.map fun i => values.getD i 0)
  | 7 | 8 => do
      let values ← decodeI64 c col n
      return .integers (selected.map fun i => values.getD i 0)
  | 16 | 17 | 18 | 19 | 22 | 23 => do
      let values ← decodeAdaptiveU32 c col n (columnName column)
      return .unsigned (selected.map fun i => values.getD i 0)
  | _ => do return .strings (← decodeStrSelected c col n selected)

/-- The typed columns of a block, none if it has no typed columns. -/
def parseColumnar (bytes : List UInt8) : Except String (Option (Nat × Nat × List (List UInt8))) :=
  Reader.run bytes do
    let version ← u8 "format version"
    if version = formatVersionV2 ∨ version = formatVersion then do
      let codec ← u8 "codec"
      rejectIf (knownCodec codec = false) s!"span block: unknown codec {codec}"
      if isTypedCodec codec then do
        let physical := if version = formatVersionV2 then v2Columns else columnNames.length
        let n ← u32 "entry_count"
        liftM (checkEntryCount n "span block")
        let _ ← i64 "ts_min"
        let _ ← i64 "ts_max"
        let lens ← readLengths (columnNames.take physical)
        let stored ← readColumns lens (columnNames.take physical)
        let left ← remaining
        rejectIf (left ≠ 0)
          s!"span block: {left} trailing byte(s) after last column (corrupt header?)"
        return some (n, physical, stored)
      else return none
    else return none

/-! ### Rows -/

/-- What the conditions of a query look at. -/
structure SpanPredicateRow where
  traceId : FixedBytes 16
  name : Text
  service : Text
  kind : UInt8
  status : UInt8
  startTs : Int64
  durationNs : Int64
  attributes : Text
  resource : Text
  instrumentationScope : Text

/-- A span as a predicate sees it. -/
def entryPredicateRow (e : Span) : SpanPredicateRow :=
  ⟨e.traceId, e.name, e.service, e.kind, e.status, e.startTs, e.durationNs, e.attributes,
    e.resource, e.instrumentationScope⟩

variable (columns : List (Option ProjectedColumn))

/-- The value of a row in a column of a kind, or a default if the column was not decoded. -/
def stringAt (row column : Nat) : Text :=
  match columns.getD column none with
  | some (.strings values) => values.getD row []
  | _ => []

@[inherit_doc stringAt]
def byteAt (row column : Nat) : UInt8 :=
  match columns.getD column none with
  | some (.bytes values) => values.getD row 0
  | _ => 0

@[inherit_doc stringAt]
def integerAt (row column : Nat) : Int64 :=
  match columns.getD column none with
  | some (.integers values) => values.getD row 0
  | _ => 0

@[inherit_doc stringAt]
def traceIdAt (row column : Nat) : FixedBytes 16 :=
  match columns.getD column none with
  | some (.traceIds values) => values.getD row emptyProjectedSpan.traceId
  | _ => emptyProjectedSpan.traceId

/-- A row as a predicate sees it, out of the columns read so far. -/
def projectedRow (row : Nat) : SpanPredicateRow where
  traceId := traceIdAt columns row 0
  name := stringAt columns row 3
  service := stringAt columns row 4
  kind := byteAt columns row 5
  status := byteAt columns row 6
  startTs := integerAt columns row 7
  durationNs := integerAt columns row 8
  attributes := stringAt columns row 9
  resource := stringAt columns row 12
  instrumentationScope := stringAt columns row 13

/-- The elements that pass a test, which may fail. -/
def selectM {α : Type} (p : α → Except String Bool) : List α → Except String (List α)
  | [] => .ok []
  | a :: l => do
      let keep ← p a
      let rest ← selectM p l
      return if keep then a :: rest else rest

/-! ### Decoding -/

/-- The columns that the conditions look at, for all rows. -/
def predicateColumns (stored : List (List UInt8)) (n physical : Nat) (mask : SpanColumnMask) :
    Except String (List (Option ProjectedColumn)) :=
  (List.range columnNames.length).mapM fun column =>
    if column < physical ∧ mask.column column = true then
      some <$> decodeColumnarColumn c stored n column (List.range n)
    else .ok none

/-- Set a column of the spans from the given rows. -/
def fillColumn (column : Nat) (values : ProjectedColumn) (sources : List Nat)
    (entries : List Span) : List Span :=
  List.zipWith (fun source e => values.assign column source e) sources entries

/-- Set the columns that were asked for; those that were decoded already have all rows. -/
def materialize (stored : List (List UInt8)) (n physical : Nat)
    (columns : List (Option ProjectedColumn)) (mask : SpanColumnMask) (selected : List Nat) :
    (todo : List Nat) → List Span → Except String (List Span)
  | [], entries => .ok entries
  | column :: todo, entries =>
      if mask.column column = true ∧ column < physical then
        match columns.getD column none with
        | some values =>
            materialize stored n physical columns mask selected todo
              (fillColumn column values selected entries)
        | none => do
            let values ← decodeColumnarColumn c stored n column selected
            materialize stored n physical columns mask selected todo
              (fillColumn column values (List.range entries.length) entries)
      else materialize stored n physical columns mask selected todo entries

/-- Read the predicate's columns, and the others for the rows it keeps. -/
def decodeSpanBlockProjected (bytes : List UInt8) (predicateMask outputMask : SpanColumnMask)
    (predicate : SpanPredicateRow → Except String Bool) : Except String (List Span) := do
  match ← parseColumnar bytes with
  | none => do
      let entries ← decodeSpanBlock c bytes
      let found ← selectM (fun e => predicate (entryPredicateRow e)) entries
      return found.map (clearUnprojected (predicateMask ||| outputMask))
  | some (n, physical, stored) => do
      let columns ← predicateColumns c stored n physical predicateMask
      let selected ← selectM (fun row => predicate (projectedRow columns row)) (List.range n)
      if selected.isEmpty then return []
      else
        materialize c stored n physical columns (predicateMask ||| outputMask) selected
          (List.range columnNames.length) (selected.map fun _ => emptyProjectedSpan)

end Decode

end Timeless.Spans
