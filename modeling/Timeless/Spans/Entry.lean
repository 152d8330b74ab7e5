import Timeless.Codec.Column

/-!
# Entry — spans

A span of a trace: its ids, what operation of which service it was, when it began and how long it
took, and the texts that describe it. Kind and status are checked when a span is pushed.
-/

namespace Timeless.Spans

open Support Codec

def kindNames : List Text :=
  ["internal".toList, "server".toList, "client".toList, "producer".toList, "consumer".toList]

def statusNames : List Text :=
  ["unset".toList, "ok".toList, "error".toList]

def kindName (kind : UInt8) : Text :=
  kindNames.getD kind.toNat []

def statusName (status : UInt8) : Text :=
  statusNames.getD status.toNat []

/-- One span. The fields that only the block format reads are one value of type `D`;
`SpanDetail` has them. -/
structure SpanEntry (D : Type) where
  traceId : FixedBytes 16
  name : Text
  service : Text
  kind : UInt8
  status : UInt8
  statusDescription : Text
  startTs : Int64
  durationNs : Int64
  attributes : Text
  events : Text
  resource : Text
  instrumentationScope : Text
  rest : D
  deriving DecidableEq

/-- Ids, links and what was dropped. -/
structure SpanDetail where
  spanId : FixedBytes 8
  /-- none for a root span -/
  parentSpanId : Option (FixedBytes 8)
  links : Text
  traceState : Text
  traceFlags : UInt32
  droppedAttributesCount : UInt32
  droppedEventsCount : UInt32
  droppedLinksCount : UInt32
  resourceSchemaUrl : Text
  scopeSchemaUrl : Text
  resourceDroppedAttributesCount : UInt32
  scopeDroppedAttributesCount : UInt32
  deriving DecidableEq

abbrev Span := SpanEntry SpanDetail

variable {D : Type}

def SpanEntry.rawIngestBytes (e : SpanEntry D) : Nat :=
  50 + ([e.name, e.service, e.attributes, e.statusDescription, e.events, e.resource,
    e.instrumentationScope].map fun t => (utf8 t).length).sum

def accept (e : SpanEntry D) : Except String (SpanEntry D) := do
  rejectIf (4 < e.kind.toNat)
    s!"invalid span kind {e.kind} (0=internal 1=server 2=client 3=producer 4=consumer)"
  rejectIf (2 < e.status.toNat) s!"invalid span status {e.status} (0=unset 1=ok 2=error)"
  return e

end Timeless.Spans
