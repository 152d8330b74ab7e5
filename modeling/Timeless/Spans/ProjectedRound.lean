import Timeless.Spans.Projected
import Timeless.Spans.RoundTrip
import Mathlib.Tactic.IntervalCases

/-!
# ProjectedRound — projection finds the matching spans

What `decodeSpanBlockProjected` returns for a written block within the caps, when all columns are
asked for: the spans that pass, whichever codec the block has. Rows are judged before they are whole,
so the predicate may look only at columns of its mask.

* `SpanStored.projected_eq`: projection of a written block.
-/

namespace Timeless.Spans

open Support Codec

open Blocks (BlockMeta)

/-! ### Masks -/

theorem column_or (a b : SpanColumnMask) (i : Nat) :
    (a ||| b).column i = (a.column i || b.column i) := by
  unfold SpanColumnMask.column
  split_ifs <;> exact BitVec.getLsbD_or

/-! ### Columns of spans -/

/-- The values that spans have in a column. -/
def columnValues (column : Nat) (es : List Span) : ProjectedColumn :=
  match column with
  | 0 => .traceIds (es.map (·.traceId))
  | 1 => .spanIds (es.map (·.rest.spanId))
  | 2 => .parents (es.map (·.rest.parentSpanId))
  | 3 => .strings (es.map (·.name))
  | 4 => .strings (es.map (·.service))
  | 5 => .bytes (es.map (·.kind))
  | 6 => .bytes (es.map (·.status))
  | 7 => .integers (es.map (·.startTs))
  | 8 => .integers (es.map (·.durationNs))
  | 9 => .strings (es.map (·.attributes))
  | 10 => .strings (es.map (·.statusDescription))
  | 11 => .strings (es.map (·.events))
  | 12 => .strings (es.map (·.resource))
  | 13 => .strings (es.map (·.instrumentationScope))
  | 14 => .strings (es.map (·.rest.links))
  | 15 => .strings (es.map (·.rest.traceState))
  | 16 => .unsigned (es.map (·.rest.traceFlags))
  | 17 => .unsigned (es.map (·.rest.droppedAttributesCount))
  | 18 => .unsigned (es.map (·.rest.droppedEventsCount))
  | 19 => .unsigned (es.map (·.rest.droppedLinksCount))
  | 20 => .strings (es.map (·.rest.resourceSchemaUrl))
  | 21 => .strings (es.map (·.rest.scopeSchemaUrl))
  | 22 => .unsigned (es.map (·.rest.resourceDroppedAttributesCount))
  | _ => .unsigned (es.map (·.rest.scopeDroppedAttributesCount))

/-- The spans in some rows. -/
def spansAt (es : List Span) (rows : List Nat) : List Span :=
  rows.map fun i => es.getD i emptyProjectedSpan

variable {rows : List Nat} {es : List Span} {α : Type} {column : Nat} {p : α → Except String Bool}
  {l out : List α}

theorem getD_map_span (f : Span → α) {i : Nat} (hi : i < es.length) (d : α) :
    (es.map f).getD i d = f (es.getD i emptyProjectedSpan) := by
  rw [getD_map f hi, List.getD_eq_getElem?_getD, List.getElem?_eq_getElem hi]
  rfl

theorem map_spansAt (f : Span → α) (hrows : RowsIn 0 es.length rows) (d : α) :
    rows.map (fun i => (es.map f).getD i d) = (spansAt es rows).map f := by
  rw [spansAt, List.map_map]
  refine List.map_congr_left fun i hi => getD_map_span f ?_ d
  simpa using (hrows.bounds i hi).2

theorem rowsIn_range (n : Nat) : RowsIn 0 n (List.range n) :=
  ⟨List.pairwise_lt_range, fun i hi => by simpa using hi⟩

theorem spansAt_range (es : List Span) : spansAt es (List.range es.length) = es := by
  refine List.ext_getElem (by simp [spansAt]) fun i hi hi' => ?_
  simp [spansAt, List.getD_eq_getElem?_getD, List.getElem?_eq_getElem hi']

section Columns

variable {c : Compressors} {level : Int} {es : List Span} {stored : List (List UInt8)}

theorem select_strColumn (hc : c.Lossless) {f : Span → Text} {b : List UInt8}
    (h : strColumn c level (es.map f) = .ok b) (hfit : StrColumnFits (es.map f))
    (hrows : RowsIn 0 es.length rows) :
    decodeStrSelected c b es.length rows = .ok ((spansAt es rows).map f) := by
  obtain ⟨e, he, hb⟩ := of_bind h
  rw [List.length_map] at he
  rw [decodeStrSelected_encodeStr hc he hb hfit hrows, map_spansAt f hrows]

theorem map_fixedAt {w : Nat} (f : Span → FixedBytes w) (hrows : RowsIn 0 es.length rows) :
    rows.map (fixedAt w (es.flatMap fun e => (f e).val)) = (spansAt es rows).map f := by
  rw [spansAt, List.map_map]
  refine List.map_congr_left fun i hi => ?_
  have hlt : i < es.length := by simpa using (hrows.bounds i hi).2
  rw [fixedAt_flatMap f hlt, Function.comp_apply, List.getD_eq_getElem?_getD,
    List.getElem?_eq_getElem hlt, Option.getD_some]

/-- A typed column is read for the rows that are asked for. -/
theorem decodeColumnarColumn_eq (hc : c.Lossless)
    (hcol : ∀ i (hi : i < 24), (typedColumns c level es).get ⟨i, hi⟩ = .ok (stored.getD i []))
    (hcount : es.length ≤ maxBlockEntries) (hfit : ∀ texts ∈ textColumns es, StrColumnFits texts)
    (hvalid : ∀ e ∈ es, SpanValid e) (hrows : RowsIn 0 es.length rows) (hcolumn : column < 24) :
    decodeColumnarColumn c stored es.length column rows =
      .ok (columnValues column (spansAt es rows)) := by
  have hstr (i : Nat) (hi : i < 24) {f : Span → Text}
      (h : (typedColumns c level es).get ⟨i, hi⟩ = strColumn c level (es.map f))
      (hmem : es.map f ∈ textColumns es) :
      (decodeStrSelected c (stored.getD i []) es.length rows >>=
        fun values => pure (ProjectedColumn.strings values)) =
          .ok (.strings ((spansAt es rows).map f)) := by
    rw [select_strColumn hc (h.symm.trans (hcol i hi)) (hfit _ hmem) hrows]
    rfl
  have hint (i : Nat) (hi : i < 24) {f : Span → Int64}
      (h : (typedColumns c level es).get ⟨i, hi⟩ = i64Column c level (es.map f)) :
      (decodeI64 c (stored.getD i []) es.length >>=
        fun values => pure (ProjectedColumn.integers (rows.map fun i => values.getD i 0))) =
          .ok (.integers ((spansAt es rows).map f)) := by
    rw [decode_i64Column hc (h.symm.trans (hcol i hi)), ok_bind, map_spansAt f hrows]
    rfl
  have hu32 (i : Nat) (hi : i < 24) {f : Span → UInt32}
      (h : (typedColumns c level es).get ⟨i, hi⟩ = u32Column c level (es.map f)) :
      (decodeAdaptiveU32 c (stored.getD i []) es.length (columnName i) >>=
        fun values => pure (ProjectedColumn.unsigned (rows.map fun i => values.getD i 0))) =
          .ok (.unsigned ((spansAt es rows).map f)) := by
    rw [decode_u32Column hc (h.symm.trans (hcol i hi)), ok_bind, map_spansAt f hrows]
    rfl
  interval_cases column
  · change (decodeFixedBytes c (stored.getD 0 []) es.length 16 >>= _) = _
    rw [decode_fixedColumn hc (hcol 0 (by decide)), ok_bind, map_fixedAt _ hrows]
    rfl
  · change (decodeFixedBytes c (stored.getD 1 []) es.length 8 >>= _) = _
    rw [decode_fixedColumn hc (hcol 1 (by decide)), ok_bind, map_fixedAt _ hrows]
    rfl
  · change (zstdDecompress c (stored.getD 2 []) (columnName 2) >>= _) = _
    rw [decompress_parents hc (hcol 2 (by decide)) hcount, ok_bind, parseParents_spans, ok_bind,
      map_spansAt _ hrows]
    rfl
  · exact hstr 3 (by decide) rfl (by simp [textColumns])
  · exact hstr 4 (by decide) rfl (by simp [textColumns])
  · change (decodeU8 c (stored.getD 5 []) es.length >>= _) = _
    have hkinds : validateKindsStatuses (es.map (·.kind)) [] = .ok () := by
      rw [validateKindsStatuses,
        validateKinds_ok (List.forall_mem_map.mpr fun e he => (hvalid e he).kind)]
      rfl
    rw [decode_u8Column hc (hcol 5 (by decide)), ok_bind, hkinds, ok_bind, map_spansAt _ hrows]
    rfl
  · change (decodeU8 c (stored.getD 6 []) es.length >>= _) = _
    have hstatuses : validateKindsStatuses [] (es.map (·.status)) = .ok () :=
      validateStatuses_ok (List.forall_mem_map.mpr fun e he => (hvalid e he).status) 0
    rw [decode_u8Column hc (hcol 6 (by decide)), ok_bind, hstatuses, ok_bind, map_spansAt _ hrows]
    rfl
  · exact hint 7 (by decide) rfl
  · exact hint 8 (by decide) rfl
  iterate 7 · exact hstr _ (by decide) rfl (by simp [textColumns])
  iterate 4 · exact hu32 _ (by decide) rfl
  iterate 2 · exact hstr _ (by decide) rfl (by simp [textColumns])
  iterate 2 · exact hu32 _ (by decide) rfl

end Columns

/-! ### Spans from their columns -/

/-- Copy one column of a span. -/
def copyColumn (column : Nat) (src e : Span) : Span :=
  match column with
  | 0 => { e with traceId := src.traceId }
  | 1 => { e with rest := { e.rest with spanId := src.rest.spanId } }
  | 2 => { e with rest := { e.rest with parentSpanId := src.rest.parentSpanId } }
  | 3 => { e with name := src.name }
  | 4 => { e with service := src.service }
  | 5 => { e with kind := src.kind }
  | 6 => { e with status := src.status }
  | 7 => { e with startTs := src.startTs }
  | 8 => { e with durationNs := src.durationNs }
  | 9 => { e with attributes := src.attributes }
  | 10 => { e with statusDescription := src.statusDescription }
  | 11 => { e with events := src.events }
  | 12 => { e with resource := src.resource }
  | 13 => { e with instrumentationScope := src.instrumentationScope }
  | 14 => { e with rest := { e.rest with links := src.rest.links } }
  | 15 => { e with rest := { e.rest with traceState := src.rest.traceState } }
  | 16 => { e with rest := { e.rest with traceFlags := src.rest.traceFlags } }
  | 17 => { e with
      rest := { e.rest with droppedAttributesCount := src.rest.droppedAttributesCount } }
  | 18 => { e with rest := { e.rest with droppedEventsCount := src.rest.droppedEventsCount } }
  | 19 => { e with rest := { e.rest with droppedLinksCount := src.rest.droppedLinksCount } }
  | 20 => { e with rest := { e.rest with resourceSchemaUrl := src.rest.resourceSchemaUrl } }
  | 21 => { e with rest := { e.rest with scopeSchemaUrl := src.rest.scopeSchemaUrl } }
  | 22 => { e with rest := { e.rest with
      resourceDroppedAttributesCount := src.rest.resourceDroppedAttributesCount } }
  | _ => { e with rest := { e.rest with
      scopeDroppedAttributesCount := src.rest.scopeDroppedAttributesCount } }

/-- All columns make the span: those of version 2 make it with the defaults, the others add the
rest. -/
theorem copy_all (src : Span) :
    (List.range 24).foldl (fun e column => copyColumn column src e) emptyProjectedSpan = src := by
  have hrange : List.range 24 = [0, 1, 2, 3, 4, 5, 6, 7, 8, 9, 10, 11, 12, 13] ++
    [14, 15, 16, 17, 18, 19, 20, 21, 22, 23] := rfl
  have hbase : [0, 1, 2, 3, 4, 5, 6, 7, 8, 9, 10, 11, 12, 13].foldl
      (fun e column => copyColumn column src e) emptyProjectedSpan = src.stripped := by
    simp only [List.foldl_cons, List.foldl_nil, copyColumn, emptyProjectedSpan, defaultDetail,
      SpanEntry.stripped]
  rw [hrange, List.foldl_append, hbase]
  simp only [List.foldl_cons, List.foldl_nil, copyColumn, SpanEntry.stripped, defaultDetail]

theorem assign_columnValues (hcolumn : column < 24) {i : Nat} (hi : i < es.length) (e : Span) :
    (columnValues column es).assign column i e =
      copyColumn column (es.getD i emptyProjectedSpan) e := by
  interval_cases column <;>
    simp only [columnValues, ProjectedColumn.assign, copyColumn, getD_map_span _ hi]

/-- Set a column of spans that are filled in, from rows of the same spans. -/
theorem fillColumn_eq (hcolumn : column < 24) (es : List Span) {sources : List Nat}
    (hsources : ∀ i ∈ sources, i < es.length) (g : Span → Span) :
    fillColumn column (columnValues column es) sources ((spansAt es sources).map g) =
      (spansAt es sources).map fun e => copyColumn column e (g e) := by
  rw [fillColumn, spansAt, List.map_map, List.zipWith_map_right, List.zipWith_self, List.map_map]
  exact List.map_congr_left fun i hi => assign_columnValues hcolumn (hsources i hi) _

section Materialize

variable {c : Compressors} {level : Int} {es : List Span} {stored : List (List UInt8)}
  {pm mask : SpanColumnMask} {selected : List Nat}

/-- The columns of a mask, for all rows. -/
def maskedColumns (pm : SpanColumnMask) (es : List Span) : List (Option ProjectedColumn) :=
  (List.range 24).map fun column =>
    if pm.column column = true then some (columnValues column es) else none

theorem getD_maskedColumns (hcolumn : column < 24) :
    (maskedColumns pm es).getD column none =
      if pm.column column = true then some (columnValues column es) else none := by
  rw [maskedColumns, List.getD_eq_getElem?_getD, List.getElem?_map, List.getElem?_range hcolumn]
  rfl

theorem predicateColumns_eq
    (hdecode : ∀ column < 24, decodeColumnarColumn c stored es.length column (List.range es.length) =
      .ok (columnValues column (spansAt es (List.range es.length)))) :
    predicateColumns c stored es.length 24 pm = .ok (maskedColumns pm es) := by
  refine mapM_ok_of_forall fun column hcolumn => ?_
  have hlt : column < 24 := List.mem_range.mp hcolumn
  by_cases hmask : pm.column column = true
  · rw [if_pos ⟨hlt, hmask⟩, if_pos hmask, hdecode column hlt, spansAt_range]
    rfl
  · rw [if_neg fun h => hmask h.2, if_neg hmask]

/-- **Materialization.** The columns that are asked for are copied, one after another. -/
theorem materialize_eq (pm : SpanColumnMask) (hall : ∀ column < 24, mask.column column = true)
    (hselected : ∀ i ∈ selected, i < es.length)
    (hdecode : ∀ column < 24, decodeColumnarColumn c stored es.length column selected =
      .ok (columnValues column (spansAt es selected)))
    {todo : List Nat} (htodo : ∀ column ∈ todo, column < 24) (g : Span → Span) :
    materialize c stored es.length 24 (maskedColumns pm es) mask selected todo
        ((spansAt es selected).map g) =
      .ok ((spansAt es selected).map fun e =>
        todo.foldl (fun acc column => copyColumn column e acc) (g e)) := by
  induction todo generalizing g with
  | nil => rfl
  | cons column todo ih =>
      have hcolumn := htodo column List.mem_cons_self
      have ih := ih fun column' h => htodo column' (List.mem_cons_of_mem _ h)
      rw [materialize, if_pos ⟨hall column hcolumn, hcolumn⟩, getD_maskedColumns hcolumn]
      by_cases hpm : pm.column column = true
      · rw [if_pos hpm]
        dsimp only
        rw [fillColumn_eq hcolumn es hselected, ih]
        rfl
      · rw [if_neg hpm]
        dsimp only
        have hrows : spansAt (spansAt es selected) (List.range (spansAt es selected).length) =
            spansAt es selected := spansAt_range _
        have hfill := fillColumn_eq hcolumn (spansAt es selected)
          (fun i hi => List.mem_range.mp hi) g
        rw [hrows] at hfill
        rw [hdecode column hcolumn, ok_bind, List.length_map, hfill, ih]
        rfl

end Materialize

/-! ### Rows -/

/-- What is known of a row when only the columns of a mask were decoded. -/
def maskRow (mask : SpanColumnMask) (r : SpanPredicateRow) : SpanPredicateRow where
  traceId := if mask.column 0 then r.traceId else emptyProjectedSpan.traceId
  name := if mask.column 3 then r.name else []
  service := if mask.column 4 then r.service else []
  kind := if mask.column 5 then r.kind else 0
  status := if mask.column 6 then r.status else 0
  startTs := if mask.column 7 then r.startTs else 0
  durationNs := if mask.column 8 then r.durationNs else 0
  attributes := if mask.column 9 then r.attributes else []
  resource := if mask.column 12 then r.resource else []
  instrumentationScope := if mask.column 13 then r.instrumentationScope else []

theorem projectedRow_eq {pm : SpanColumnMask} {row : Nat} (hrow : row < es.length) :
    projectedRow (maskedColumns pm es) row =
      maskRow pm (entryPredicateRow (es.getD row emptyProjectedSpan)) := by
  have hstring (column : Nat) (hcolumn : column < 24) (f : Span → Text)
      (h : columnValues column es = .strings (es.map f)) :
      stringAt (maskedColumns pm es) row column =
        if pm.column column then f (es.getD row emptyProjectedSpan) else [] := by
    rw [stringAt, getD_maskedColumns hcolumn]
    split_ifs with hmask
    · rw [h]
      exact getD_map_span f hrow []
    · rfl
  have hbyte (column : Nat) (hcolumn : column < 24) (f : Span → UInt8)
      (h : columnValues column es = .bytes (es.map f)) :
      byteAt (maskedColumns pm es) row column =
        if pm.column column then f (es.getD row emptyProjectedSpan) else 0 := by
    rw [byteAt, getD_maskedColumns hcolumn]
    split_ifs with hmask
    · rw [h]
      exact getD_map_span f hrow 0
    · rfl
  have hinteger (column : Nat) (hcolumn : column < 24) (f : Span → Int64)
      (h : columnValues column es = .integers (es.map f)) :
      integerAt (maskedColumns pm es) row column =
        if pm.column column then f (es.getD row emptyProjectedSpan) else 0 := by
    rw [integerAt, getD_maskedColumns hcolumn]
    split_ifs with hmask
    · rw [h]
      exact getD_map_span f hrow 0
    · rfl
  have htrace : traceIdAt (maskedColumns pm es) row 0 =
      if pm.column 0 then (es.getD row emptyProjectedSpan).traceId
      else emptyProjectedSpan.traceId := by
    rw [traceIdAt, getD_maskedColumns (by decide)]
    split_ifs with hmask
    · exact getD_map_span (·.traceId) hrow _
    · rfl
  rw [projectedRow, htrace, hstring 3 (by decide) (·.name) rfl,
    hstring 4 (by decide) (·.service) rfl, hbyte 5 (by decide) (·.kind) rfl,
    hbyte 6 (by decide) (·.status) rfl, hinteger 7 (by decide) (·.startTs) rfl,
    hinteger 8 (by decide) (·.durationNs) rfl, hstring 9 (by decide) (·.attributes) rfl,
    hstring 12 (by decide) (·.resource) rfl, hstring 13 (by decide) (·.instrumentationScope) rfl]
  rfl

theorem selectM_map {β : Type} (f : α → β) (p : β → Except String Bool) (l : List α) :
    selectM p (l.map f) = (selectM (fun a => p (f a)) l).map (List.map f) := by
  induction l with
  | nil => rfl
  | cons a l ih =>
      rw [List.map_cons, selectM, selectM, ih]
      cases p (f a) with
      | error err => rfl
      | ok keep =>
          cases selectM (fun a => p (f a)) l with
          | error err => rfl
          | ok rest => cases keep <;> rfl

theorem selectM_sublist (h : selectM p l = .ok out) : out.Sublist l := by
  induction l generalizing out with
  | nil => rw [← Except.ok.inj h]
  | cons a l ih =>
      obtain ⟨keep, -, h⟩ := of_bind h
      obtain ⟨rest, hrest, rfl⟩ := bind_pure_eq_ok.mp h
      cases keep with
      | true => exact (ih hrest).cons_cons a
      | false => exact (ih hrest).cons a

theorem selectM_eq_ok (h : selectM p l = .ok out) :
    out = l.filter fun a => decide (p a = .ok true) := by
  induction l generalizing out with
  | nil => exact (Except.ok.inj h).symm
  | cons a l ih =>
      obtain ⟨keep, hkeep, h⟩ := of_bind h
      obtain ⟨rest, hrest, rfl⟩ := bind_pure_eq_ok.mp h
      rw [ih hrest, List.filter_cons, hkeep]
      cases keep <;> rfl

theorem selectM_rejects (h : selectM p l = .ok out) {a : α} (ha : a ∈ l) (hout : a ∉ out) :
    p a = .ok false := by
  induction l generalizing out with
  | nil => cases ha
  | cons b l ih =>
      rw [selectM] at h
      obtain ⟨keep, hkeep, h⟩ := of_bind h
      obtain ⟨rest, hrest, h⟩ := of_bind h
      cases Except.ok.inj h
      cases keep with
      | false =>
          rcases List.mem_cons.mp ha with rfl | ha
          · exact hkeep
          · exact ih hrest ha hout
      | true =>
          rcases List.mem_cons.mp ha with rfl | ha
          · exact absurd List.mem_cons_self hout
          · exact ih hrest ha fun hmem => hout (List.mem_cons_of_mem _ hmem)

theorem selectM_congr {q : α → Except String Bool} (h : ∀ a ∈ l, p a = q a) :
    selectM p l = selectM q l := by
  induction l with
  | nil => rfl
  | cons a l ih =>
      rw [selectM, selectM, h a List.mem_cons_self, ih fun b hb => h b (List.mem_cons_of_mem _ hb)]

theorem selectM_eq_filter (h : ∀ a ∈ l, ∃ b, p a = .ok b) :
    selectM p l = .ok (l.filter fun a => decide (p a = .ok true)) := by
  induction l with
  | nil => rfl
  | cons a l ih =>
      obtain ⟨b, hb⟩ := h a List.mem_cons_self
      rw [selectM, hb, ok_bind, ih fun a' ha' => h a' (List.mem_cons_of_mem _ ha'), ok_bind]
      cases b with
      | true => rw [List.filter_cons_of_pos (by simp [hb])]; rfl
      | false => rw [List.filter_cons_of_neg (by simp [hb])]; rfl

/-! ### Projection of a written block -/

section Stored

variable {c : Compressors} {level : Int} {codec : UInt8} {es : List Span} {bytes : List UInt8}
  {m : BlockMeta} {stored : List (List UInt8)}

theorem SpanStored.parseColumnar_typed (h : SpanStored c es codec level bytes m stored)
    (hcount : es.length ≤ maxBlockEntries) (htyped : isTypedCodec codec = true) :
    parseColumnar bytes = .ok (some (es.length, 24, stored)) := by
  have hlen := length_columns h.columns
  have hlt : es.length < 2 ^ 32 := hcount.trans_lt (by decide)
  have hcheck : checkEntryCount es.length "span block" = .ok () :=
    rejectIf_neg (not_lt.mpr hcount) _
  rw [h.bytes_eq, h.entryCount_eq]
  refine Reads.run ?_
  refine (reads_u8 formatVersion _ _).bind ?_
  rw [if_pos (.inr rfl)]
  refine (reads_u8 codec _ _).bind ?_
  refine (reads_rejectIf (by simp [h.known]) _ _).bind_nil ?_
  rw [if_pos htyped]
  refine (reads_u32 hlt _ _).bind ?_
  refine (reads_lift hcheck _).bind_nil ?_
  refine (reads_i64 m.tsMin _ _).bind ?_
  refine (reads_i64 m.tsMax _ _).bind ?_
  refine (reads_lengths (by rw [hlen]; rfl) h.stored_le _).bind ?_
  rw [← List.append_nil stored.flatten]
  exact (reads_columns (by rw [hlen]; rfl) _).bind (reads_end _ _)

theorem SpanStored.parseColumnar_plain (h : SpanStored c es codec level bytes m stored)
    (htyped : isTypedCodec codec = false) : parseColumnar bytes = .ok none := by
  rw [h.bytes_eq, container, ← List.append_assoc]
  refine Reads.run_append ?_
  refine (reads_u8 formatVersion _ _).bind ?_
  rw [if_pos (.inr rfl)]
  refine (reads_u8 codec _ _).bind_last ?_
  refine (reads_rejectIf (by simp [h.known]) _ _).bind_nil ?_
  rw [if_neg (by simp [htyped])]
  exact Reads.pure none _

theorem clearUnprojected_all {mask : SpanColumnMask} (hall : ∀ column < 24, mask.column column = true)
    (e : Span) : clearUnprojected mask e = e := by
  simp only [clearUnprojected, hall _ (by decide : 0 < 24), hall _ (by decide : 1 < 24),
    hall _ (by decide : 2 < 24), hall _ (by decide : 3 < 24), hall _ (by decide : 4 < 24),
    hall _ (by decide : 5 < 24), hall _ (by decide : 6 < 24), hall _ (by decide : 7 < 24),
    hall _ (by decide : 8 < 24), hall _ (by decide : 9 < 24), hall _ (by decide : 10 < 24),
    hall _ (by decide : 11 < 24), hall _ (by decide : 12 < 24), hall _ (by decide : 13 < 24),
    hall _ (by decide : 14 < 24), if_true]

/-- **Projection.** Of a written block within the caps, the spans that pass are returned whole. -/
theorem SpanStored.projected_eq (h : SpanStored c es codec level bytes m stored) (hc : c.Lossless)
    (hfit : SpanFits es codec) {pm om : SpanColumnMask}
    (hall : ∀ column < 24, (pm ||| om).column column = true)
    {p : SpanPredicateRow → Except String Bool} (hp : ∀ r, p (maskRow pm r) = p r) :
    decodeSpanBlockProjected c bytes pm om p = selectM (fun e => p (entryPredicateRow e)) es := by
  cases htyped : isTypedCodec codec with
  | false =>
      rw [decodeSpanBlockProjected, h.parseColumnar_plain htyped, ok_bind]
      dsimp only
      rw [h.decode_v3 hc hfit, ok_bind]
      cases selectM (fun e => p (entryPredicateRow e)) es with
      | error err => rfl
      | ok found =>
          refine congrArg Except.ok ?_
          rw [List.map_congr_left fun e _ => clearUnprojected_all hall e, List.map_id']
  | true =>
      have hcolumns := h.columns
      rw [encodeColumns, if_pos htyped] at hcolumns
      have hdecode {rows : List Nat} (hrows : RowsIn 0 es.length rows) (column : Nat)
          (hcolumn : column < 24) :=
        decodeColumnarColumn_eq hc (fun i hi => getD_of_mapM hcolumns [] hi) hfit.count
          (hfit.typed htyped) h.valid hrows hcolumn
      rw [decodeSpanBlockProjected, h.parseColumnar_typed hfit.count htyped, ok_bind]
      dsimp only
      rw [predicateColumns_eq (hdecode (rowsIn_range _)), ok_bind,
        selectM_congr fun row hrow => by rw [projectedRow_eq (List.mem_range.mp hrow), hp]]
      have hspans := selectM_map (fun i => es.getD i emptyProjectedSpan)
        (fun e => p (entryPredicateRow e)) (List.range es.length)
      rw [show (List.range es.length).map (fun i => es.getD i emptyProjectedSpan) = es from
        spansAt_range es] at hspans
      rw [hspans]
      cases hsel : selectM (fun i => p (entryPredicateRow (es.getD i emptyProjectedSpan)))
          (List.range es.length) with
      | error err => rfl
      | ok selected =>
          have hsub := selectM_sublist hsel
          have hrows : RowsIn 0 es.length selected :=
            ⟨List.pairwise_lt_range.sublist hsub, fun i hi => by simpa using hsub.subset hi⟩
          rw [ok_bind]
          split_ifs with hempty
          · rw [List.isEmpty_iff.mp hempty]
            rfl
          · have hstart : (selected.map fun _ => emptyProjectedSpan) =
                (spansAt es selected).map fun _ => emptyProjectedSpan := by
              rw [spansAt, List.map_map]
              rfl
            have hmade := materialize_eq pm hall (fun i hi => by
              simpa using (hrows.bounds i hi).2) (hdecode hrows)
              (fun column hcolumn => List.mem_range.mp hcolumn) fun _ => emptyProjectedSpan
            rw [hstart]
            refine hmade.trans (congrArg Except.ok ?_)
            rw [List.map_congr_left fun e _ => copy_all e, List.map_id']
            rfl

end Stored

end Timeless.Spans
