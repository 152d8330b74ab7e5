import Timeless.Spans.ProjectedRound

/-!
# Caps — span blocks the decoder refuses

The decoder bounds the number of spans and the size of what it decompresses; the encoder does not
look at these bounds. A written block is read exactly if it is within them (`SpanStored.decode_iff`),
and a query that has no conditions cannot do without reading it (`SpanStored.fits_of_projected`).
-/

namespace Timeless.Spans

open Support Codec

open Blocks (BlockMeta)

variable {c : Compressors} {level : Int} {codec : UInt8} {es : List Span} {bytes : List UInt8}
  {m : BlockMeta} {stored : List (List UInt8)}

/-! ### Typed columns -/

theorem fits_of_decodeStr (hc : c.Lossless) {f : Span → Text} {b : List UInt8}
    (h : strColumn c level (es.map f) = .ok b) {out : List Text}
    (hout : decodeStr c b es.length = .ok out) : StrColumnFits (es.map f) := by
  by_contra hover
  obtain ⟨e, he, hb⟩ := of_bind h
  rw [List.length_map] at he
  obtain ⟨err, herr⟩ := decodeStr_over hc he hb hover
  rw [hout] at herr
  cases herr

theorem fits_of_decodeTyped (hc : c.Lossless)
    (hcol : ∀ i (hi : i < 24), (typedColumns c level es).get ⟨i, hi⟩ = .ok (stored.getD i []))
    {base : BaseColumns} (hbase : decodeBaseTyped c stored es.length = .ok base)
    {fidelity : FidelityColumns}
    (hfidelity : decodeFidelityTyped c stored es.length = .ok fidelity) :
    ∀ texts ∈ textColumns es, StrColumnFits texts := by
  obtain ⟨_, -, hbase⟩ := of_bind hbase
  obtain ⟨_, -, hbase⟩ := of_bind hbase
  obtain ⟨_, -, hbase⟩ := of_bind hbase
  obtain ⟨_, -, hbase⟩ := of_bind hbase
  obtain ⟨_, hnames, hbase⟩ := of_bind hbase
  obtain ⟨_, hservices, hbase⟩ := of_bind hbase
  obtain ⟨_, -, hbase⟩ := of_bind hbase
  obtain ⟨_, -, hbase⟩ := of_bind hbase
  obtain ⟨_, -, hbase⟩ := of_bind hbase
  obtain ⟨_, -, hbase⟩ := of_bind hbase
  obtain ⟨_, hattributes, hbase⟩ := of_bind hbase
  obtain ⟨_, hdescriptions, hbase⟩ := of_bind hbase
  obtain ⟨_, hevents, hbase⟩ := of_bind hbase
  obtain ⟨_, hresources, hbase⟩ := of_bind hbase
  obtain ⟨_, hscopes, -⟩ := of_bind hbase
  obtain ⟨_, hlinks, hfidelity⟩ := of_bind hfidelity
  obtain ⟨_, hstates, hfidelity⟩ := of_bind hfidelity
  obtain ⟨_, -, hfidelity⟩ := of_bind hfidelity
  obtain ⟨_, -, hfidelity⟩ := of_bind hfidelity
  obtain ⟨_, -, hfidelity⟩ := of_bind hfidelity
  obtain ⟨_, -, hfidelity⟩ := of_bind hfidelity
  obtain ⟨_, hresourceUrls, hfidelity⟩ := of_bind hfidelity
  obtain ⟨_, hscopeUrls, -⟩ := of_bind hfidelity
  simp only [textColumns, List.forall_mem_cons, List.not_mem_nil, false_imp_iff, implies_true,
    and_true]
  exact ⟨fits_of_decodeStr hc (hcol 3 (by decide)) hnames,
    fits_of_decodeStr hc (hcol 4 (by decide)) hservices,
    fits_of_decodeStr hc (hcol 9 (by decide)) hattributes,
    fits_of_decodeStr hc (hcol 10 (by decide)) hdescriptions,
    fits_of_decodeStr hc (hcol 11 (by decide)) hevents,
    fits_of_decodeStr hc (hcol 12 (by decide)) hresources,
    fits_of_decodeStr hc (hcol 13 (by decide)) hscopes,
    fits_of_decodeStr hc (hcol 14 (by decide)) hlinks,
    fits_of_decodeStr hc (hcol 15 (by decide)) hstates,
    fits_of_decodeStr hc (hcol 20 (by decide)) hresourceUrls,
    fits_of_decodeStr hc (hcol 21 (by decide)) hscopeUrls⟩

/-! ### Compressed columns -/

/-- Columns that are decompressed were within the cap. -/
theorem fits_of_openColumns (hc : c.Lossless) {cols : List (List UInt8)}
    (h : List.Forall₂ (fun col z => zstdCompress c col level = .ok z) cols stored) {i : Nat}
    {out : List (List UInt8)} (hout : openColumns c codecZstd i stored = .ok out) :
    ∀ col ∈ cols, col.length ≤ decompressMaxBytes := by
  induction h generalizing i out with
  | nil => simp
  | @cons col z cols stored hz _ ih =>
      rw [openColumns, if_pos rfl] at hout
      obtain ⟨raw, hraw, hout⟩ := of_bind hout
      obtain ⟨more, hmore, -⟩ := of_bind hout
      refine List.forall_mem_cons.mpr ⟨?_, ih hmore⟩
      by_contra hover
      obtain ⟨err, herr⟩ := zstd_over hc hz (columnName i) (not_le.mp hover)
      rw [zstdDecompress, herr] at hraw
      cases hraw

/-! ### Blocks -/

namespace SpanStored

variable (h : SpanStored c es codec level bytes m stored)

include h

theorem count_over (hover : maxBlockEntries < es.length) :
    (∃ err, checkEntryCount m.entryCount "span block" = .error err) ∧ m.entryCount < 2 ^ 32 := by
  rw [h.entryCount_eq]
  exact ⟨⟨_, rejectIf_pos hover _⟩, lt_of_le_u32Max h.count_le⟩

theorem read_over (hover : maxBlockEntries < es.length) (names : List String) :
    ∃ err, Reader.run bytes (readContainer names) = .error err := by
  obtain ⟨hcheck, hlt⟩ := h.count_over hover
  rw [h.bytes_eq]
  refine Fails.run ?_
  refine (reads_u8 formatVersion _ _).bind_fails ?_
  refine (reads_u8 codec _ _).bind_fails ?_
  refine (reads_rejectIf (by simp [h.known]) _ _).bind_nil_fails ?_
  exact (reads_u32 hlt _ _).bind_fails ((fails_lift hcheck _).bind _)

theorem parseColumnar_over
    (htyped : isTypedCodec codec = true) (hover : maxBlockEntries < es.length) :
    ∃ err, parseColumnar bytes = .error err := by
  obtain ⟨hcheck, hlt⟩ := h.count_over hover
  rw [h.bytes_eq]
  refine Fails.run ?_
  refine (reads_u8 formatVersion _ _).bind_fails ?_
  rw [if_pos (.inr rfl)]
  refine (reads_u8 codec _ _).bind_fails ?_
  refine (reads_rejectIf (by simp [h.known]) _ _).bind_nil_fails ?_
  rw [if_pos htyped]
  exact (reads_u32 hlt _ _).bind_fails ((fails_lift hcheck _).bind _)

variable {out : List Span} {pm : SpanColumnMask}

theorem fits_of_decode (hc : c.Lossless) (hout : decodeSpanBlock c bytes = .ok out) :
    SpanFits es codec := by
  have hdecode : decodeSpanBlockV2V3 c formatVersion bytes = .ok out := by
    rw [h.bytes_eq] at hout ⊢
    exact hout
  rw [decodeSpanBlockV2V3, if_neg (by decide)] at hdecode
  obtain ⟨b, hread, hdecode⟩ := of_bind hdecode
  have hcount : es.length ≤ maxBlockEntries := by
    by_contra hover
    obtain ⟨err, herr⟩ := h.read_over (not_le.mp hover) columnNames
    rw [hread] at herr
    cases herr
  have hback := h.read_back hcount formatVersion columnNames (k := 24)
    (by simp [length_columns h.columns, columnNames])
  rw [List.take_of_length_le (length_columns h.columns).le, ← h.bytes_eq, hread] at hback
  obtain rfl := Except.ok.inj hback
  obtain ⟨base, hbase, hdecode⟩ := of_bind hdecode
  obtain ⟨_, -, hdecode⟩ := of_bind hdecode
  rw [if_pos rfl] at hdecode
  have hcolumns := h.columns
  refine ⟨hcount, fun htyped => ?_, fun hz => ?_⟩
  · rw [encodeColumns, if_pos htyped] at hcolumns
    rw [decodeBase, if_pos htyped] at hbase
    dsimp only at hdecode
    rw [decodeFidelity, if_pos htyped] at hdecode
    obtain ⟨fidelity, hfidelity, -⟩ := of_bind hdecode
    exact fits_of_decodeTyped hc (fun i hi => getD_of_mapM hcolumns [] hi) hbase hfidelity
  · subst hz
    rw [encodeColumns, if_neg (by decide), if_pos rfl] at hcolumns
    dsimp only at hbase
    rw [decodeBase, if_neg (by decide)] at hbase
    obtain ⟨cols, hcols, -⟩ := of_bind hbase
    exact fits_of_openColumns hc (mapM_eq_ok.mp hcolumns) hcols

/-- **Caps.** A written block is read exactly if it is within the caps, and then it is what was
written. -/
theorem decode_iff (hc : c.Lossless) :
    decodeSpanBlock c bytes = .ok out ↔ SpanFits es codec ∧ out = es := by
  constructor
  · intro hout
    have hfit := h.fits_of_decode hc hout
    exact ⟨hfit, Except.ok.inj (hout.symm.trans (h.decode_v3 hc hfit))⟩
  · rintro ⟨hfit, rfl⟩
    exact h.decode_v3 hc hfit

end SpanStored

/-! ### Projections -/

variable {columns : List (Option ProjectedColumn)}

/-- Columns that are asked for and were not decoded before are decoded. -/
theorem decodes_of_materialize {n physical : Nat} {mask : SpanColumnMask} {selected todo : List Nat}
    {entries : List Span}
    (h : materialize c stored n physical columns mask selected todo entries = .ok out)
    {column : Nat} (htodo : column ∈ todo) (hmask : mask.column column = true)
    (hphysical : column < physical) (hnone : columns.getD column none = none) :
    ∃ values, decodeColumnarColumn c stored n column selected = .ok values := by
  induction todo generalizing entries with
  | nil => cases htodo
  | cons first todo ih =>
      rw [materialize] at h
      rcases List.mem_cons.mp htodo with rfl | htodo
      · rw [if_pos ⟨hmask, hphysical⟩, hnone] at h
        obtain ⟨values, hvalues, -⟩ := of_bind h
        exact ⟨values, hvalues⟩
      · split_ifs at h
        · cases hfirst : columns.getD first none with
          | some values =>
              rw [hfirst] at h
              exact ih h htodo
          | none =>
              rw [hfirst] at h
              obtain ⟨values, -, h⟩ := of_bind h
              exact ih h htodo
        · exact ih h htodo

/-- A column of texts that is decoded for some rows was within the caps. -/
theorem fits_of_decodeStrSelected (hc : c.Lossless) {f : Span → Text} {b : List UInt8}
    (h : strColumn c level (es.map f) = .ok b) {rows : List Nat}
    {values : ProjectedColumn} (hvalues : (decodeStrSelected c b es.length rows >>=
      fun values => pure (ProjectedColumn.strings values)) = .ok values) :
    StrColumnFits (es.map f) := by
  by_contra hover
  obtain ⟨e, he, hb⟩ := of_bind h
  rw [List.length_map] at he
  obtain ⟨err, herr⟩ := decodeStrSelected_over hc he hb hover _
  rw [herr] at hvalues
  cases hvalues

/-- A column that the conditions look at was decoded for all rows. -/
theorem decodes_of_predicateColumns {n physical : Nat}
    (h : predicateColumns c stored n physical pm = .ok columns) {column : Nat}
    (hcolumn : column < 24) (hsome : columns.getD column none ≠ none) :
    ∃ values, decodeColumnarColumn c stored n column (List.range n) = .ok values := by
  have hget := getD_of_mapM h none (i := column) (by simpa [columnNames] using hcolumn)
  rw [List.getElem_range] at hget
  split_ifs at hget
  · obtain ⟨values, hvalues, -⟩ := map_eq_ok.mp hget
    exact ⟨values, hvalues⟩
  · exact absurd (Except.ok.inj hget).symm hsome

/-- Spans that are filled in from all columns were within the caps. -/
theorem SpanStored.fits_of_materialize (h : SpanStored c es codec level bytes m stored)
    (hc : c.Lossless) (htyped : isTypedCodec codec = true) (hcount : es.length ≤ maxBlockEntries)
    {mask : SpanColumnMask} (hall : ∀ column < 24, mask.column column = true)
    (hpredicate : predicateColumns c stored es.length 24 pm = .ok columns) {selected : List Nat}
    {entries : List Span}
    (hout : materialize c stored es.length 24 columns mask selected (List.range columnNames.length)
      entries = .ok out) : SpanFits es codec := by
  have hcolumns := h.columns
  rw [encodeColumns, if_pos htyped] at hcolumns
  have hcol (i : Nat) (hi : i < 24) := getD_of_mapM hcolumns [] hi
  have hread (column : Nat) (hcolumn : column < 24) : ∃ rows values,
      decodeColumnarColumn c stored es.length column rows = .ok values := by
    by_cases hnone : columns.getD column none = none
    · obtain ⟨values, hvalues⟩ := decodes_of_materialize hout (List.mem_range.mpr hcolumn)
        (hall column hcolumn) hcolumn hnone
      exact ⟨selected, values, hvalues⟩
    · obtain ⟨values, hvalues⟩ := decodes_of_predicateColumns hpredicate hcolumn hnone
      exact ⟨List.range es.length, values, hvalues⟩
  have hstr (column : Nat) (hcolumn : column < 24) {f : Span → Text}
      (hcolumnIs : (typedColumns c level es).get ⟨column, hcolumn⟩ = strColumn c level (es.map f))
      (hdecode : ∀ rows, decodeColumnarColumn c stored es.length column rows =
        (decodeStrSelected c (stored.getD column []) es.length rows >>=
          fun values => pure (ProjectedColumn.strings values))) : StrColumnFits (es.map f) := by
    obtain ⟨rows, values, hvalues⟩ := hread column hcolumn
    rw [hdecode] at hvalues
    exact fits_of_decodeStrSelected hc (hcolumnIs.symm.trans (hcol column hcolumn)) hvalues
  refine ⟨hcount, fun _ => ?_, fun hz => ?_⟩
  · simp only [textColumns, List.forall_mem_cons, List.not_mem_nil, false_imp_iff, implies_true,
      and_true]
    exact ⟨hstr 3 (by decide) rfl fun _ => rfl, hstr 4 (by decide) rfl fun _ => rfl,
      hstr 9 (by decide) rfl fun _ => rfl, hstr 10 (by decide) rfl fun _ => rfl,
      hstr 11 (by decide) rfl fun _ => rfl, hstr 12 (by decide) rfl fun _ => rfl,
      hstr 13 (by decide) rfl fun _ => rfl, hstr 14 (by decide) rfl fun _ => rfl,
      hstr 15 (by decide) rfl fun _ => rfl, hstr 20 (by decide) rfl fun _ => rfl,
      hstr 21 (by decide) rfl fun _ => rfl⟩
  · rw [hz] at htyped
    exact absurd htyped (by decide)

/-- A block is read in full, or no span of it is returned. -/
theorem SpanStored.fits_of_projected (h : SpanStored c es codec level bytes m stored)
    (hc : c.Lossless) {om : SpanColumnMask} (hall : ∀ column < 24, om.column column = true)
    {p : SpanPredicateRow → Except String Bool}
    (hout : decodeSpanBlockProjected c bytes pm om p = .ok out) :
    SpanFits es codec ∨ out = [] ∧ ∃ row, p row = .ok false := by
  cases htyped : isTypedCodec codec with
  | false =>
      rw [decodeSpanBlockProjected, h.parseColumnar_plain htyped, ok_bind] at hout
      obtain ⟨entries, hentries, -⟩ := of_bind hout
      exact .inl (h.fits_of_decode hc hentries)
  | true =>
      have hcount : es.length ≤ maxBlockEntries := by
        by_contra hover
        obtain ⟨err, herr⟩ := h.parseColumnar_over htyped (not_le.mp hover)
        rw [decodeSpanBlockProjected, herr] at hout
        cases hout
      rw [decodeSpanBlockProjected, h.parseColumnar_typed hcount htyped, ok_bind] at hout
      obtain ⟨columns, hcolumns, hout⟩ := of_bind hout
      obtain ⟨selected, hselected, hout⟩ := of_bind hout
      split_ifs at hout with hempty
      · obtain ⟨row, hrow⟩ : ∃ row, row ∈ List.range es.length :=
          ⟨0, List.mem_range.mpr (List.length_pos_iff.mpr h.nonempty)⟩
        have hnot : row ∉ selected := by
          rw [List.isEmpty_iff.mp hempty]
          exact List.not_mem_nil
        exact .inr ⟨(Except.ok.inj hout).symm, projectedRow columns row,
          selectM_rejects hselected hrow hnot⟩
      · refine .inl (h.fits_of_materialize hc htyped hcount (fun column hcolumn => ?_) hcolumns hout)
        rw [column_or, hall column hcolumn, Bool.or_true]

end Timeless.Spans
