import Timeless.Blocks.Levels
import Timeless.Blocks.Projection

/-!
# Stream — rows one at a time, with the columns that are asked for

A stream is opened over the blocks that a query would decode and the buffered matches. It decodes a
block when the rows of the last one are used up, leaving out payload columns that neither the
projection nor a filter needs, and gives the buffered rows last.

* `entryMatches_projected`: the filters do not notice what is left out;
* `drains_blocks`: draining gives the rows of all blocks and then the buffered ones;
* `queryStream_rows`: these are the rows of the query, as far as they are asked for.
-/

namespace Timeless.Blocks

open Support Codec Engine

/-- The projection with the columns that the filters need. -/
def LogProjection.widen (p : LogProjection) (q : LogQuery) : LogProjection where
  message := p.message || q.messageContains.isSome
  metadata := p.metadata
  metadataPairs := p.metadataPairs || !q.metadataEq.isEmpty
  severity := p.severity || q.severity.isSome

structure LogQueryStream where
  query : LogQuery
  projection : LogProjection
  blocks : List (Row (List Text))
  decoded : List LogEntry
  buffered : List LogEntry

section

variable (c : Compressors) {N : Type} (js : SerdeJson N) (lowercase : Text → Text)

def queryStream (indexKeys : List Text) (e : BlockEngine LogEntry (List Text)) (q : LogQuery)
    (projection : LogProjection) : Except String LogQueryStream := do
  let blocks ← candidateBlocks indexKeys e.store.rows q
  return ⟨q, projection.widen q, blocks, [], e.buffer.filter (entryMatches lowercase q)⟩

/-- The rows of the next block. With a text to be contained in the message whole rows are decoded. -/
def streamBlock (q : LogQuery) (projection : LogProjection) (bytes : List UInt8) :
    Except String (List LogEntry) :=
  match q.messageContains.filter fun needle => !needle.isEmpty with
  | some needle =>
      if blockMessageFeasible c bytes needle = .ok false then .ok []
      else do
        let filtered ← decodeBlockFiltered c js lowercase bytes needle
        return (filtered.rows.map Prod.snd).filter (entryMatches lowercase q)
  | none => do
      let entries ← decodeBlockProjected c js bytes projection
      return entries.filter (entryMatches lowercase q)

/-- One row: of those decoded, of the next block that has one, of the buffer. -/
def nextRow (q : LogQuery) (projection : LogProjection) :
    List (Row (List Text)) → List LogEntry → List LogEntry →
      Except String (Option (LogEntry × LogQueryStream))
  | blocks, entry :: decoded, buffered =>
      .ok (some (entry, ⟨q, projection, blocks, decoded, buffered⟩))
  | block :: blocks, [], buffered => do
      let entries ← streamBlock c js lowercase q projection block.data
      nextRow q projection blocks entries buffered
  | [], [], entry :: buffered => .ok (some (entry, ⟨q, projection, [], [], buffered⟩))
  | [], [], [] => .ok none

def queryStreamNext (s : LogQueryStream) : Except String (Option (LogEntry × LogQueryStream)) :=
  nextRow c js lowercase s.query s.projection s.blocks s.decoded s.buffered

/-- Asking for rows until there are no more. -/
inductive Drains : LogQueryStream → List LogEntry → Prop
  | done {s : LogQueryStream} (h : queryStreamNext c js lowercase s = .ok none) : Drains s []
  | row {s s' : LogQueryStream} {entry : LogEntry} {rows : List LogEntry}
      (h : queryStreamNext c js lowercase s = .ok (some (entry, s'))) (rest : Drains s' rows) :
      Drains s (entry :: rows)

end

variable {c : Compressors} {N : Type} {js : SerdeJson N} {lowercase : Text → Text}

/-! ### Draining -/

section Draining

variable {q : LogQuery} {p : LogProjection}

variable {blocks : List (Row (List Text))}

theorem drains_decoded {decoded buffered rows : List LogEntry}
    (h : Drains c js lowercase ⟨q, p, blocks, [], buffered⟩ rows) :
    Drains c js lowercase ⟨q, p, blocks, decoded, buffered⟩ (decoded ++ rows) := by
  induction decoded with
  | nil => exact h
  | cons entry decoded ih => exact .row (by rw [queryStreamNext, nextRow]) ih

theorem drains_buffered (buffered : List LogEntry) :
    Drains c js lowercase ⟨q, p, [], [], buffered⟩ buffered := by
  induction buffered with
  | nil => exact .done rfl
  | cons entry buffered ih => exact .row rfl ih

theorem drains_block {block : Row (List Text)} {entries buffered rows : List LogEntry}
    (hblock : streamBlock c js lowercase q p block.data = .ok entries)
    (h : Drains c js lowercase ⟨q, p, blocks, entries, buffered⟩ rows) :
    Drains c js lowercase ⟨q, p, block :: blocks, [], buffered⟩ rows := by
  have hnext : queryStreamNext c js lowercase ⟨q, p, block :: blocks, [], buffered⟩ =
      queryStreamNext c js lowercase ⟨q, p, blocks, entries, buffered⟩ := by
    rw [queryStreamNext, nextRow, hblock, ok_bind]
    rfl
  cases h with
  | done h => exact .done (hnext.trans h)
  | row h rest => exact .row (hnext.trans h) rest

/-- **Draining.** All rows of the blocks, then the buffered ones. -/
theorem drains_blocks {rows : Row (List Text) → List LogEntry}
    (h : ∀ r ∈ blocks, streamBlock c js lowercase q p r.data = .ok (rows r))
    (buffered : List LogEntry) :
    Drains c js lowercase ⟨q, p, blocks, [], buffered⟩ (blocks.flatMap rows ++ buffered) := by
  induction blocks with
  | nil => exact drains_buffered buffered
  | cons block blocks ih =>
      rw [List.flatMap_cons, List.append_assoc]
      exact drains_block (h block List.mem_cons_self)
        (drains_decoded (ih fun r hr => h r (List.mem_cons_of_mem _ hr)))

end Draining

/-! ### What is left out -/

section Projected

variable {q : LogQuery} {p : LogProjection}

/-- Rows that show the same of the columns the filters need match alike. -/
theorem entryMatches_projected {a b : LogEntry} (h : (p.widen q).row a = (p.widen q).row b) :
    entryMatches lowercase q a = entryMatches lowercase q b := by
  rw [LogProjection.row, LogProjection.row, ShownRow.mk.injEq] at h
  obtain ⟨hts, hlevel, hmessage, hseverity, -, hpairs⟩ := h
  rw [asked_eq_asked] at hmessage hseverity hpairs
  have hsame : ∀ {a b : LogEntry}, a.ts = b.ts → a.level = b.level →
      ((p.widen q).message = true → a.message = b.message) →
      ((p.widen q).severity = true → a.severityName = b.severityName) →
      ((p.widen q).metadataPairs = true → a.metadata = b.metadata) →
      entryMatches lowercase q a = true → entryMatches lowercase q b = true := by
    intro a b hts hlevel hmessage hseverity hpairs ha
    obtain ⟨hrange, hlevels, hseverities, hmetadata, hcontains⟩ := entryMatches_iff.mp ha
    refine entryMatches_iff.mpr ⟨hts ▸ hrange, fun l hq => hlevel ▸ hlevels l hq, ?_, ?_, ?_⟩
    · intro severity hq
      rw [← hseverity (by rw [LogProjection.widen, hq]; exact Bool.or_true _)]
      exact hseverities severity hq
    · intro pair hpair
      have hasks : (p.widen q).metadataPairs = true := by
        rw [LogProjection.widen, Bool.or_eq_true]
        refine .inr ?_
        cases hq : q.metadataEq with
        | nil =>
            rw [hq] at hpair
            cases hpair
        | cons _ _ => rfl
      rw [← hpairs hasks]
      exact hmetadata pair hpair
    · intro needle hq
      rw [← hmessage (by rw [LogProjection.widen, hq]; exact Bool.or_true _)]
      exact hcontains needle hq
  rw [Bool.eq_iff_iff]
  exact ⟨hsame hts hlevel hmessage hseverity hpairs,
    hsame hts.symm hlevel.symm (fun hp => (hmessage hp).symm) (fun hp => (hseverity hp).symm)
      fun hp => (hpairs hp).symm⟩

theorem rows_filter {es es' : List LogEntry}
    (h : es'.map (p.widen q).row = es.map (p.widen q).row) :
    (es'.filter (entryMatches lowercase q)).map (p.widen q).row =
      (es.filter (entryMatches lowercase q)).map (p.widen q).row := by
  induction es generalizing es' with
  | nil =>
      obtain rfl := List.map_eq_nil_iff.mp h
      rfl
  | cons e es ih =>
      obtain _ | ⟨e', es'⟩ := es'
      · cases h
      rw [List.map_cons, List.map_cons, List.cons.injEq] at h
      rw [List.filter_cons, List.filter_cons, entryMatches_projected h.1]
      split_ifs
      · rw [List.map_cons, List.map_cons, h.1, ih h.2]
      · exact ih h.2

/-- A block that the query reads is read by the stream too. -/
theorem streamBlock_rows {bytes : List UInt8} {found : List LogEntry}
    (h : blockMatches c js lowercase q bytes = .ok found) (p : LogProjection) :
    ∃ out, streamBlock c js lowercase q (p.widen q) bytes = .ok out ∧
      out.map (p.widen q).row = found.map (p.widen q).row := by
  rw [blockMatches] at h
  rw [streamBlock]
  cases hneedle : q.messageContains.filter fun needle => !needle.isEmpty with
  | some needle =>
      rw [hneedle] at h
      exact ⟨found, h, rfl⟩
  | none =>
      rw [hneedle] at h
      obtain ⟨es, hes, rfl⟩ := bind_pure_eq_ok.mp h
      obtain ⟨es', hes', hrows⟩ := decodeBlockProjected_rows hes (p.widen q)
      refine ⟨es'.filter (entryMatches lowercase q), ?_, rows_filter hrows⟩
      dsimp only
      rw [hes', ok_bind]
      rfl

/-- **Projected stream.** Where the query returns rows, the stream can be drained, and gives the
same rows, as far as the projection or a filter asks for them. -/
theorem queryStream_rows {keys : List Text} {e : BlockEngine LogEntry (List Text)}
    {rows : List LogEntry} (h : query c js lowercase keys e q = .ok rows) (p : LogProjection) :
    ∃ stream out, queryStream lowercase keys e q p = .ok stream ∧
      Drains c js lowercase stream out ∧
      (out.map (p.widen q).row).Perm (rows.map (p.widen q).row) := by
  obtain ⟨blocks, hblocks, h⟩ := of_bind h
  obtain ⟨found, hfound, rfl⟩ := bind_pure_eq_ok.mp h
  let decoded := fun r : Row (List Text) =>
    (streamBlock c js lowercase q (p.widen q) r.data).toOption.getD []
  have hdecoded : ∀ r ∈ blocks, ∀ matching, blockMatches c js lowercase q r.data = .ok matching →
      streamBlock c js lowercase q (p.widen q) r.data = .ok (decoded r) ∧
        (decoded r).map (p.widen q).row = matching.map (p.widen q).row := by
    intro r _ matching hmatching
    obtain ⟨out, hout, hrows⟩ := streamBlock_rows hmatching p
    have heq : decoded r = out := by
      dsimp only [decoded]
      rw [hout]
      rfl
    rw [heq]
    exact ⟨hout, hrows⟩
  have hread : ∀ r ∈ blocks, streamBlock c js lowercase q (p.widen q) r.data = .ok (decoded r) := by
    intro r hr
    obtain ⟨matching, hmatching⟩ := ok_of_mapM hfound hr
    exact (hdecoded r hr matching hmatching).1
  have hrows : (blocks.flatMap decoded).map (p.widen q).row =
      found.flatten.map (p.widen q).row := by
    have hmap : blocks.mapM (fun r => Except.ok ((decoded r).map (p.widen q).row)) =
        (.ok (found.map (List.map (p.widen q).row)) : Except String _) :=
      mapM_ok_map hfound fun r hr matching hmatching =>
        congrArg Except.ok (hdecoded r hr matching hmatching).2
    rw [mapM_ok_of_forall fun _ _ => rfl] at hmap
    rw [List.map_flatMap, List.map_flatten, ← Except.ok.inj hmap, List.flatMap_def]
  refine ⟨_, _, by rw [queryStream, hblocks, ok_bind]; rfl, drains_blocks hread _, ?_⟩
  rw [List.map_append, hrows, ← List.map_append]
  exact (List.perm_insertionSort _ _).symm.map _

end Projected

theorem queryStream_rows_notices : ∃ rows stream out,
    query .storing taggedJson id [] (flushedNotices 2).engine upTo1000 = .ok rows ∧
    queryStream id [] (flushedNotices 2).engine upTo1000 ⟨true, false, false, true⟩ = .ok stream ∧
    Drains .storing taggedJson id stream out ∧
    (out.map (LogProjection.widen ⟨true, false, false, true⟩ upTo1000).row).Perm
      (rows.map (LogProjection.widen ⟨true, false, false, true⟩ upTo1000).row) := by
  have hsome : (query .storing taggedJson id [] (flushedNotices 2).engine upTo1000).toOption.isSome =
      true := by decide +kernel
  cases hrows : query .storing taggedJson id [] (flushedNotices 2).engine upTo1000 with
  | error err =>
      rw [hrows] at hsome
      cases hsome
  | ok rows =>
      obtain ⟨stream, out, hall⟩ := queryStream_rows hrows ⟨true, false, false, true⟩
      exact ⟨rows, stream, out, rfl, hall⟩

end Timeless.Blocks
