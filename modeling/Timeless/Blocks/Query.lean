import Timeless.Blocks.Engine

/-!
# Query — the entries of an engine that match

A query asks the store for the blocks that overlap its time range and carry the terms of its
filters, drops those whose trigrams rule a match out, decodes the rest and filters their entries
one by one; the buffered entries are filtered directly. With a text to be contained in the message
a block is first asked whether it can hold such a message, and then only the rows that may match are
decoded.

This is the unbounded query of `blocks/engine.rs` in ascending order.
-/

namespace Timeless.Blocks

open Support Codec Engine

/-- What a caller asks of the entries. -/
structure LogQuery where
  tsMin : Int64
  tsMax : Int64
  level : Option UInt8
  severity : Option Text
  metadataEq : Pairs
  messageContains : Option Text
  messageLikePrune : Option Text

/-- Does an entry match? -/
def entryMatches (lowercase : Text → Text) (q : LogQuery) (e : LogEntry) : Bool :=
  !(decide (e.ts < q.tsMin) || decide (q.tsMax < e.ts)) &&
    q.level.all (fun level => e.level == level) &&
    q.severity.all (fun severity => e.severityName == severity) &&
    q.metadataEq.all (fun p => pairValue p.1 e.metadata == some p.2) &&
    q.messageContains.all (fun needle => messageContainsCi lowercase e.message needle)

/-! ### Candidates -/

/-- The blocks that carry all terms and overlap a time range, oldest first. -/
def blocksWith (rows : List (Row (List Text))) (terms : List Text) (tsMin tsMax : Int64) :
    List (Row (List Text)) :=
  (rows.filter fun r => decide (r.blockMeta.tsMin ≤ tsMax) && decide (tsMin ≤ r.blockMeta.tsMax) &&
    terms.all fun t => r.extra.contains t).insertionSort
      fun a b => a.blockMeta.tsMin ≤ b.blockMeta.tsMin

/-- SQLite compounds so many selects at most. -/
def maxCompoundSelect : Nat := 500

/-- The store intersects one select for each term. -/
def queryTerms (rows : List (Row (List Text))) (terms : List Text) (tsMin tsMax : Int64) :
    Except String (List (Row (List Text))) := do
  rejectIf (maxCompoundSelect < terms.length)
    "prepare term query failed: too many terms in compound SELECT"
  return blocksWith rows terms tsMin tsMax

def levelFilterTerms (q : LogQuery) : Except String (List Text) :=
  match q.level with
  | none => .ok []
  | some level => do
      rejectIf (3 < level.toNat) s!"invalid level {level} in query"
      return [levelTerm level]

/-- The terms that a block must carry. -/
def filterTerms (indexKeys : List Text) (q : LogQuery) : Except String (List Text) := do
  let level ← levelFilterTerms q
  return level ++ (q.metadataEq.filter fun p => indexKeys.contains p.1).map
    fun p => pairTerm p.1 p.2

/-- The trigrams a text must have to contain a needle; none are asked for beyond ASCII. -/
def messageContainsTrigrams (needle : Text) : List Text :=
  if isAscii (utf8 needle) then (messageTrigramsOf needle).map tgTerm else []

def likePatternTrigrams (pattern : Text) : List Text :=
  ((pattern.splitOnP fun ch => ch == '%' || ch == '_').flatMap messageTrigramsOf).map tgTerm

def requiredTrigrams (q : LogQuery) : List Text :=
  sortedKeys ((q.messageContains.map messageContainsTrigrams).getD [] ++
    (q.messageLikePrune.map likePatternTrigrams).getD [])

/-- The blocks to be decoded. -/
def candidateBlocks (indexKeys : List Text) (rows : List (Row (List Text))) (q : LogQuery) :
    Except String (List (Row (List Text))) := do
  let terms ← filterTerms indexKeys q
  let locs ← queryTerms rows terms q.tsMin q.tsMax
  let required := requiredTrigrams q
  if required.isEmpty then return locs
  else
    let indexed ← queryTerms rows (terms ++ [tgMarker]) q.tsMin q.tsMax
    let matching ← queryTerms rows (terms ++ [tgMarker] ++ required) q.tsMin q.tsMax
    return locs.filter fun r =>
      !(indexed.map Row.id).contains r.id || (matching.map Row.id).contains r.id

/-! ### Order -/

def textCmp (a b : Text) : Ordering :=
  if textLt a b then .lt else if textLt b a then .gt else .eq

def pairsCmp : Pairs → Pairs → Ordering
  | [], [] => .eq
  | [], _ :: _ => .lt
  | _ :: _, [] => .gt
  | p :: ps, q :: qs => (textCmp p.1 q.1).then ((textCmp p.2 q.2).then (pairsCmp ps qs))

/-- The order of entries with one timestamp. -/
def canonicalEntryCmp (a b : LogEntry) : Ordering :=
  (textCmp a.message b.message).then ((textCmp a.severityName b.severityName).then
    (match a.metadataJson, b.metadataJson with
    | some left, some right => textCmp left right
    | _, _ => pairsCmp a.metadata b.metadata))

def EntryLe (a b : LogEntry) : Prop :=
  a.ts < b.ts ∨ a.ts = b.ts ∧ canonicalEntryCmp a b ≠ .gt

instance : DecidableRel EntryLe := fun a b => by unfold EntryLe; infer_instance

/-! ### The query -/

section

variable (c : Compressors) {N : Type} (js : SerdeJson N) (lowercase : Text → Text)

/-- The matching entries of one block. -/
def blockMatches (q : LogQuery) (bytes : List UInt8) : Except String (List LogEntry) :=
  match q.messageContains.filter fun needle => !needle.isEmpty with
  | some needle =>
      if blockMessageFeasible c bytes needle = .ok false then .ok []
      else do
        let found ← decodeBlockFiltered c js lowercase bytes needle
        return (found.rows.map Prod.snd).filter (entryMatches lowercase q)
  | none => do
      let entries ← decodeBlock c js bytes
      return entries.filter (entryMatches lowercase q)

/-- The query. Reading a block from the store is taken not to fail. -/
def query (indexKeys : List Text) (e : BlockEngine LogEntry (List Text)) (q : LogQuery) :
    Except String (List LogEntry) := do
  let blocks ← candidateBlocks indexKeys e.store.rows q
  let found ← blocks.mapM fun r => blockMatches c js lowercase q r.data
  return (found.flatten ++ e.buffer.filter (entryMatches lowercase q)).insertionSort EntryLe

end

end Timeless.Blocks
