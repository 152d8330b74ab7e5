import Timeless.Spans.Content
import Timeless.Spans.ProjectedRound

/-!
# Pruning — which blocks a span query may skip

For a block that was written from some spans, the bounds of its times and durations, its trace ids
and its attribute filters rule a match out only if there is none; so do its terms, but for one: a
span without a service leaves no term for it, and yet a query for the empty service asks for one.

* `query_perm`: a query that does not ask for the empty service by terms, nor for a float zero, finds
  what matches among all spans, stored and buffered, over blocks within the decoder's caps;
* `query_exact_iff`: without an attribute filter it does so exactly if it does not ask for the empty
  service by terms while a stored span matches.
-/

namespace Timeless.Spans

open Support Codec Engine
open Blocks (SerdeJson)

variable {c : Compressors} {js : SerdeJson JsonNumber} {P : Span → Prop}

/-! ### Masks -/

section Mask

variable (q : SpanQuery js) (durationMin durationMax : Int64)

/-- Each condition that a query has brings its column. -/
theorem column_queryPredicateMask :
    (q.traceId.isSome → (queryPredicateMask q durationMin durationMax).column 0) ∧
    (q.name.isSome → (queryPredicateMask q durationMin durationMax).column 3) ∧
    (q.service.isSome → (queryPredicateMask q durationMin durationMax).column 4) ∧
    (q.kind.isSome → (queryPredicateMask q durationMin durationMax).column 5) ∧
    (q.status.isSome → (queryPredicateMask q durationMin durationMax).column 6) ∧
    (q.tsMin ≠ Int64.minValue ∨ q.tsMax ≠ Int64.maxValue →
      (queryPredicateMask q durationMin durationMax).column 7) ∧
    (durationMin ≠ Int64.minValue ∨ durationMax ≠ Int64.maxValue →
      (queryPredicateMask q durationMin durationMax).column 8) ∧
    (∀ filter ∈ q.attributeFilter, ∀ i, (scopeMask filter.index.scope).column i →
      (queryPredicateMask q durationMin durationMax).column i) := by
  have h0 : SpanColumnMask.traceId.column 0 = true := by decide
  have h3 : SpanColumnMask.name.column 3 = true := by decide
  have h4 : SpanColumnMask.service.column 4 = true := by decide
  have h5 : SpanColumnMask.kind.column 5 = true := by decide
  have h6 : SpanColumnMask.status.column 6 = true := by decide
  have h7 : SpanColumnMask.startTs.column 7 = true := by decide
  have h8 : SpanColumnMask.durationNs.column 8 = true := by decide
  simp only [queryPredicateMask, column_or, Bool.or_eq_true]
  refine ⟨fun h => ?_, fun h => ?_, fun h => ?_, fun h => ?_, fun h => ?_, fun h => ?_, fun h => ?_,
    fun filter h i hi => .inr ?_⟩
  all_goals first
    | rwa [Option.mem_def.mp h]
    | simp only [h, if_true, h0, h3, h4, h5, h6, h7, h8, true_or, or_true]

theorem all_congr {α : Type} {o : Option α} {p p' : α → Bool}
    (h : o.isSome → ∀ a, p a = p' a) : o.all p = o.all p' := by
  cases o with
  | none => rfl
  | some a => exact h rfl a

/-- What the conditions look at is in the columns that are decoded for them. -/
theorem fieldsMatch_mask (row : SpanPredicateRow) :
    fieldsMatch q durationMin durationMax
        (maskRow (queryPredicateMask q durationMin durationMax) row) =
      fieldsMatch q durationMin durationMax row := by
  obtain ⟨htrace, hname, hservice, hkind, hstatus, hts, hduration, -⟩ :=
    column_queryPredicateMask q durationMin durationMax
  generalize queryPredicateMask q durationMin durationMax = mask at *
  have htimes (lo hi x x' : Int64) (h : lo ≠ Int64.minValue ∨ hi ≠ Int64.maxValue → x' = x) :
      (!(decide (x' < lo) || decide (hi < x'))) = !(decide (x < lo) || decide (hi < x)) := by
    by_cases hfull : lo ≠ Int64.minValue ∨ hi ≠ Int64.maxValue
    · rw [h hfull]
    · push Not at hfull
      simp [hfull]
  have h7 : q.tsMin ≠ Int64.minValue ∨ q.tsMax ≠ Int64.maxValue →
      (maskRow mask row).startTs = row.startTs := fun h => if_pos (hts h)
  have h8 : durationMin ≠ Int64.minValue ∨ durationMax ≠ Int64.maxValue →
      (maskRow mask row).durationNs = row.durationNs := fun h => if_pos (hduration h)
  rw [fieldsMatch, fieldsMatch, htimes _ _ _ _ h7, htimes _ _ _ _ h8]
  congr 1
  · congr 1
    · congr 1
      · congr 1
        · congr 1
          exact all_congr fun h v => by rw [maskRow, if_pos (htrace h)]
        · exact all_congr fun h v => by rw [maskRow, if_pos (hservice h)]
      · exact all_congr fun h v => by rw [maskRow, if_pos (hkind h)]
    · exact all_congr fun h v => by rw [maskRow, if_pos (hstatus h)]
  · exact all_congr fun h v => by rw [maskRow, if_pos (hname h)]

theorem predicateRowMatches_mask (row : SpanPredicateRow) :
    predicateRowMatches q durationMin durationMax
        (maskRow (queryPredicateMask q durationMin durationMax) row) =
      predicateRowMatches q durationMin durationMax row := by
  have hscope := (column_queryPredicateMask q durationMin durationMax).2.2.2.2.2.2.2
  rw [predicateRowMatches, predicateRowMatches, fieldsMatch_mask]
  cases hfilter : q.attributeFilter with
  | none => rfl
  | some filter =>
      have hcolumn := hscope filter hfilter
      have hjson : (maskRow (queryPredicateMask q durationMin durationMax) row).json
          filter.index.scope = row.json filter.index.scope := by
        cases hs : filter.index.scope <;> rw [hs] at hcolumn
        · exact if_pos (hcolumn 9 (by decide))
        · exact if_pos (hcolumn 12 (by decide))
        · exact if_pos (hcolumn 13 (by decide))
      dsimp only
      rw [hjson]

theorem predicateRowMatches_entry (e : Span) :
    predicateRowMatches q durationMin durationMax (entryPredicateRow e) =
      entryMatches q durationMin durationMax e := by
  unfold predicateRowMatches entryMatches
  cases q.attributeFilter with
  | none => rfl
  | some filter =>
      have hjson : (entryPredicateRow e).json filter.index.scope = filter.index.scope.json e := by
        cases filter.index.scope <;> rfl
      dsimp only
      rw [hjson, SpanAttributeFilter.matchesEntry]

end Mask

/-! ### Matches -/

section Matches

variable {q : SpanQuery js} {durationMin durationMax : Int64}

/-- Does a span match? -/
def spanMatches (q : SpanQuery js) (durationMin durationMax : Int64) (e : Span) : Bool :=
  decide (entryMatches q durationMin durationMax e = .ok true)

/-- The attributes that a query looks at can be read. -/
def Judged (q : SpanQuery js) (e : Span) : Prop :=
  ∀ filter ∈ q.attributeFilter, ∃ root, js.fromStr (filter.index.scope.json e) = .ok root

variable {e : Span}

theorem entryMatches_ok (h : Judged q e) (durationMin durationMax : Int64) :
    ∃ b, entryMatches q durationMin durationMax e = .ok b := by
  unfold entryMatches
  split_ifs
  · cases hfilter : q.attributeFilter with
    | none => exact ⟨true, rfl⟩
    | some filter =>
        obtain ⟨root, hroot⟩ := h filter hfilter
        simp only [SpanAttributeFilter.matchesEntry, SpanAttributeFilter.matchesJson, hroot,
          Except.mapError, ok_bind]
        cases pointer root filter.index.path with
        | none => exact ⟨_, rfl⟩
        | some value => exact ⟨_, rfl⟩
  · exact ⟨false, rfl⟩

theorem fieldsMatch_iff {row : SpanPredicateRow} :
    fieldsMatch q durationMin durationMax row = true ↔
      (q.tsMin ≤ row.startTs ∧ row.startTs ≤ q.tsMax) ∧
        (durationMin ≤ row.durationNs ∧ row.durationNs ≤ durationMax) ∧
        (∀ traceId ∈ q.traceId, row.traceId = traceId) ∧
        (∀ service ∈ q.service, row.service = service) ∧ (∀ kind ∈ q.kind, row.kind = kind) ∧
        (∀ status ∈ q.status, row.status = status) ∧ ∀ name ∈ q.name, row.name = name := by
  simp only [fieldsMatch, Bool.and_eq_true, Bool.not_eq_true', Bool.or_eq_false_iff,
    decide_eq_false_iff_not, Int64.not_lt, Option.all_eq_true, beq_iff_eq, Option.mem_def, and_assoc]

theorem spanMatches_iff :
    spanMatches q durationMin durationMax e = true ↔
      ((q.tsMin ≤ e.startTs ∧ e.startTs ≤ q.tsMax) ∧
        (durationMin ≤ e.durationNs ∧ e.durationNs ≤ durationMax) ∧
        (∀ traceId ∈ q.traceId, e.traceId = traceId) ∧
        (∀ service ∈ q.service, e.service = service) ∧ (∀ kind ∈ q.kind, e.kind = kind) ∧
        (∀ status ∈ q.status, e.status = status) ∧ ∀ name ∈ q.name, e.name = name) ∧
      ∀ filter ∈ q.attributeFilter, filter.matchesEntry e = .ok true := by
  have hparts : spanMatches q durationMin durationMax e = true ↔
      fieldsMatch q durationMin durationMax (entryPredicateRow e) = true ∧
        ∀ filter ∈ q.attributeFilter, filter.matchesEntry e = .ok true := by
    rw [spanMatches, decide_eq_true_iff, entryMatches]
    split_ifs with h
    · cases q.attributeFilter with
      | none => simp [h]
      | some filter => simp [h]
    · simp [h]
  exact hparts.trans (and_congr_left fun _ => fieldsMatch_iff)

end Matches

/-! ### Candidates -/

section Candidates

variable {q : SpanQuery js} {durationMin durationMax : Int64} {rows : List SpanRow} {r : SpanRow}
  {es : List Span} {e : Span} {b : Encoded (SpanIndex (List BloomRow))}
  {filter : SpanAttributeFilter js}

theorem SpanWritten.in_range (h : SpanWritten c js P b es) (he : e ∈ es) :
    b.blockMeta.tsMin ≤ e.startTs ∧ e.startTs ≤ b.blockMeta.tsMax := by
  obtain ⟨codec, level, henc⟩ := h.encoded
  obtain ⟨stored, hst⟩ := encodeSpanBlock_ok henc
  exact hst.describes.2.2.2.2 e he

theorem SpanWritten.inBounds (h : SpanWritten c js P r.toEncoded es) (he : e ∈ es)
    (hmatch : spanMatches q durationMin durationMax e = true) :
    inBounds q.tsMin q.tsMax durationMin durationMax r = true := by
  obtain ⟨hlo, hhi⟩ := h.in_range he
  obtain ⟨⟨⟨hmin, hmax⟩, ⟨hdmin, hdmax⟩, -⟩, -⟩ := spanMatches_iff.mp hmatch
  rw [Spans.inBounds, Bool.and_eq_true, Bool.and_eq_true, decide_eq_true_iff, decide_eq_true_iff]
  refine ⟨⟨Int64.le_trans hlo hmax, Int64.le_trans hmin hhi⟩, ?_⟩
  rw [Option.all_eq_true]
  intro d hd
  obtain ⟨hd1, hd2⟩ := h.durations d hd e he
  simp [Int64.le_trans hdmin hd2, Int64.le_trans hd1 hdmax]

/-- A match has the terms that are asked for, if the empty service is not. -/
theorem mem_searchTerms_of_match (hmatch : spanMatches q durationMin durationMax e = true)
    (hservice : q.service ≠ some []) : ∀ t ∈ queryTerms q, t ∈ searchTerms e := by
  obtain ⟨⟨-, -, -, hs, hk, hst, hn⟩, -⟩ := spanMatches_iff.mp hmatch
  intro t ht
  simp only [queryTerms, List.mem_append, Option.mem_toList, Option.map_eq_some_iff, or_assoc] at ht
  unfold searchTerms
  rcases ht with ⟨service, hq, rfl⟩ | ⟨kind, hq, rfl⟩ | ⟨status, hq, rfl⟩ | ⟨name, hq, rfl⟩
  · obtain rfl := hs service hq
    have hne : e.service.isEmpty = false := by
      rw [List.isEmpty_eq_false_iff]
      rintro hempty
      exact hservice (hempty ▸ hq)
    rw [if_neg (by simp [hne])]
    exact List.mem_append_right _ List.mem_cons_self
  · obtain rfl := hk kind hq
    exact List.mem_append_left _ List.mem_cons_self
  · obtain rfl := hst status hq
    exact List.mem_append_left _ (List.mem_cons_of_mem _ List.mem_cons_self)
  · obtain rfl := hn name hq
    exact List.mem_append_left _ (List.mem_cons_of_mem _ (List.mem_cons_of_mem _ List.mem_cons_self))

theorem candidateLocations_perm (rows : List SpanRow) (q : SpanQuery js)
    (durationMin durationMax : Int64) : ∃ p : SpanRow → Bool,
      (candidateLocations rows q durationMin durationMax).Perm (rows.filter p) := by
  unfold candidateLocations
  cases q.traceId with
  | some traceId =>
      exact ⟨_, ((List.perm_insertionSort _ _).filter _).trans (by rw [List.filter_filter])⟩
  | none => exact ⟨_, List.perm_insertionSort _ _⟩

theorem SpanWritten.mem_candidateLocations (h : SpanWritten c js P r.toEncoded es) (hr : r ∈ rows)
    (he : e ∈ es) (hmatch : spanMatches q durationMin durationMax e = true)
    (hservice : q.traceId = none → q.service ≠ some []) :
    r ∈ candidateLocations rows q durationMin durationMax := by
  have hbounds := h.inBounds he hmatch
  unfold candidateLocations
  cases htrace : q.traceId with
  | some traceId =>
      obtain ⟨⟨-, -, ht, -⟩, -⟩ := spanMatches_iff.mp hmatch
      have hmem : traceId ∈ r.extra.traceIds := ht traceId htrace ▸ h.traces e he
      rw [Spans.inBounds, Bool.and_eq_true] at hbounds
      refine List.mem_filter.mpr ⟨?_, hbounds.1⟩
      rw [queryTraceWithDurationBounds, List.mem_insertionSort, List.mem_filter, Spans.inBounds]
      simp [hr, hmem, hbounds.1, hbounds.2]
  | none =>
      have hterms : ((queryTerms q).all fun t => r.extra.terms.contains t) = true := by
        rw [List.all_eq_true]
        intro t ht
        rw [List.contains_iff_mem]
        exact h.terms e he t (mem_searchTerms_of_match hmatch (hservice htrace) t ht)
      dsimp only
      rw [queryTermsWithDurationBounds, List.mem_insertionSort, List.mem_filter]
      simp only [hr, hbounds, hterms, Bool.and_self, and_self]

/-- The attribute filter of a written block passes the checks and is asked. -/
theorem SpanWritten.attributeMayMatch_eq (h : SpanWritten c js P r.toEncoded es) {row : BloomRow}
    (hrow : (r.extra.attributeBlooms.find? fun row => row.bloom.index = filter.index) = some row) :
    attributeMayMatch filter r = row.bloom.mightContain filter.scalarJson := by
  have hsound := h.blooms row (List.mem_of_find?_eq_some hrow)
  have hsize : validateSpanAttributeBloom row.bloom.bits = .ok () :=
    rejectIf_neg (not_not.mpr hsound.covers.size) _
  unfold attributeMayMatch
  rw [hrow]
  simp only [rejectIf_neg (not_not.mpr hsound.version), rejectIf_neg (not_not.mpr hsound.checksum),
    hsize, Except.mapError, ok_bind]

theorem SpanWritten.attributeMayMatch_ok (h : SpanWritten c js P r.toEncoded es)
    (filter : SpanAttributeFilter js) : ∃ b, attributeMayMatch filter r = .ok b := by
  cases hrow : r.extra.attributeBlooms.find? fun row => row.bloom.index = filter.index with
  | none => exact ⟨true, by rw [attributeMayMatch, hrow]⟩
  | some row =>
      have hsize := (h.blooms row (List.mem_of_find?_eq_some hrow)).covers.size
      rw [h.attributeMayMatch_eq hrow, SpanAttributeBloom.mightContain, validateSpanAttributeBloom,
        rejectIf_neg (not_not.mpr hsize)]
      exact ⟨_, rfl⟩

/-- A block with a match is not ruled out by its attribute filter, unless a zero is looked for. -/
theorem SpanWritten.attributeMayMatch_true (h : SpanWritten c js P r.toEncoded es) (he : e ∈ es)
    (hzero : isFloatZero filter.scalar = false) (hmatch : filter.matchesEntry e = .ok true) :
    attributeMayMatch filter r = .ok true := by
  cases hrow : r.extra.attributeBlooms.find? fun row => row.bloom.index = filter.index with
  | none => rw [attributeMayMatch, hrow]
  | some row =>
      have hindex : row.bloom.index = filter.index := by simpa using List.find?_some hrow
      rw [h.attributeMayMatch_eq hrow]
      exact (h.blooms row (List.mem_of_find?_eq_some hrow)).covers.mightContain hindex hzero he hmatch

/-- Queries whose candidates are sure to include every match: the empty service is not asked for by
terms, and no attribute is compared with a float zero. -/
structure SpanQuery.Sure (q : SpanQuery js) : Prop where
  service : q.traceId = none → q.service ≠ some []
  zero : ∀ filter ∈ q.attributeFilter, isFloatZero filter.scalar = false

/-- **Candidates.** What a query decodes is a part of the rows, and every row with a match is in
it. -/
theorem queryLocations_spec (hrows : ∀ r ∈ rows, ∃ es, SpanWritten c js P r.toEncoded es)
    (hsure : q.Sure) (durationMin durationMax : Int64) :
    ∃ blocks, queryLocations rows q durationMin durationMax = .ok blocks ∧
      ∃ p : SpanRow → Bool, blocks.Perm (rows.filter p) ∧
        ∀ r ∈ rows, ∀ es, SpanWritten c js P r.toEncoded es →
          (∃ e ∈ es, spanMatches q durationMin durationMax e = true) → r ∈ blocks := by
  unfold queryLocations
  by_cases hempty : durationMax < durationMin
  · rw [if_pos hempty]
    refine ⟨[], rfl, fun _ => false, by simp, fun r hr es hw ⟨e, he, hmatch⟩ => ?_⟩
    obtain ⟨⟨-, ⟨hlo, hhi⟩, -⟩, -⟩ := spanMatches_iff.mp hmatch
    exact absurd hempty (Int64.not_lt.mpr (Int64.le_trans hlo hhi))
  rw [if_neg hempty]
  dsimp only
  obtain ⟨p, hp⟩ := candidateLocations_perm rows q durationMin durationMax
  cases hfilter : q.attributeFilter with
  | none =>
      exact ⟨_, rfl, p, hp, fun r hr es hw ⟨e, he, hmatch⟩ =>
        hw.mem_candidateLocations hr he hmatch hsure.service⟩
  | some filter =>
      have hasked : ∀ r ∈ candidateLocations rows q durationMin durationMax,
          ∃ b, attributeMayMatch filter r = .ok b := by
        intro r hr
        obtain ⟨es, hes⟩ := hrows r (List.mem_of_mem_filter (hp.subset hr))
        exact hes.attributeMayMatch_ok filter
      refine ⟨_, selectM_eq_filter hasked, _, (hp.filter _).trans (by rw [List.filter_filter]), ?_⟩
      rintro r hr es hw ⟨e, he, hmatch⟩
      refine List.mem_filter.mpr ⟨hw.mem_candidateLocations hr he hmatch hsure.service, ?_⟩
      exact decide_eq_true (hw.attributeMayMatch_true he (hsure.zero filter hfilter)
        ((spanMatches_iff.mp hmatch).2 filter hfilter))

end Candidates

/-! ### One block -/

/-- A block that the decoder's caps let through, whatever it was encoded from. -/
def WithinCaps (c : Compressors) (b : Encoded (SpanIndex (List BloomRow))) : Prop :=
  ∀ es codec level, encodeSpanBlock c es codec level = .ok (b.data, b.blockMeta) → SpanFits es codec

/-- The spans of a block, none if it cannot be read. -/
def spansOf (c : Compressors) (bytes : List UInt8) : List Span :=
  (decodeSpanBlock c bytes).toOption.getD []

section Block

variable {b : Encoded (SpanIndex (List BloomRow))} {es : List Span}

theorem SpanWritten.decodes (hc : c.Lossless) (h : SpanWritten c js P b es)
    (hcaps : WithinCaps c b) : decodeSpanBlock c b.data = .ok es ∧ spansOf c b.data = es := by
  obtain ⟨codec, level, henc⟩ := h.encoded
  obtain ⟨stored, hst⟩ := encodeSpanBlock_ok henc
  have hdecode := hst.decode_v3 hc (hcaps _ _ _ henc)
  exact ⟨hdecode, by rw [spansOf, hdecode]; rfl⟩

theorem SpanWritten.reads_iff (hc : c.Lossless) (h : SpanWritten c js P b es) :
    (∃ out, decodeSpanBlock c b.data = .ok out) ↔ WithinCaps c b := by
  constructor
  · rintro ⟨out, hout⟩ es' codec level henc
    obtain ⟨stored, hst⟩ := encodeSpanBlock_ok henc
    exact hst.fits_of_decode hc hout
  · exact fun hcaps => ⟨es, (h.decodes hc hcaps).1⟩

theorem SpanWritten.spansOf_in_range (hc : c.Lossless) (h : SpanWritten c js P b es)
    (he : e ∈ spansOf c b.data) :
    b.blockMeta.tsMin ≤ e.startTs ∧ e.startTs ≤ b.blockMeta.tsMax := by
  cases hdecode : decodeSpanBlock c b.data with
  | error err =>
      rw [spansOf, hdecode] at he
      cases he
  | ok out =>
      rw [(h.decodes hc ((h.reads_iff hc).mp ⟨out, hdecode⟩)).2] at he
      exact h.in_range he

/-- A block within the caps is searched span by span. -/
theorem SpanWritten.blockMatches_select (hc : c.Lossless) (h : SpanWritten c js P b es)
    (hcaps : WithinCaps c b) (q : SpanQuery js) (durationMin durationMax : Int64) :
    blockMatches c q durationMin durationMax b.data =
      selectM (entryMatches q durationMin durationMax) es := by
  obtain ⟨codec, level, henc⟩ := h.encoded
  obtain ⟨stored, hst⟩ := encodeSpanBlock_ok henc
  have hall : ∀ column < 24, (queryPredicateMask q durationMin durationMax |||
      (SpanColumnMask.all ||| .startTs ||| .spanId)).column column = true := by
    intro column hcolumn
    have hcolumns : ∀ column < 24, SpanColumnMask.all.column column = true := by decide
    rw [column_or, column_or, column_or, hcolumns column hcolumn]
    simp
  rw [blockMatches, hst.projected_eq hc (hcaps _ _ _ henc) hall
    (predicateRowMatches_mask q durationMin durationMax),
    selectM_congr fun e _ => predicateRowMatches_entry q durationMin durationMax e]

/-- **One block.** The matches of a block are found exactly. -/
theorem SpanWritten.blockMatches_eq (hc : c.Lossless) (h : SpanWritten c js P b es)
    (hcaps : WithinCaps c b) {q : SpanQuery js} (hjudged : ∀ e, P e → Judged q e)
    (durationMin durationMax : Int64) :
    blockMatches c q durationMin durationMax b.data =
      .ok ((spansOf c b.data).filter (spanMatches q durationMin durationMax)) := by
  rw [h.blockMatches_select hc hcaps, (h.decodes hc hcaps).2]
  exact selectM_eq_filter fun e he => entryMatches_ok (hjudged e (h.ok e he)) _ _

/-- Whatever a block gives to a query, it is the spans of the block that match. -/
theorem SpanWritten.blockMatches_found (hc : c.Lossless) (h : SpanWritten c js P b es)
    {q : SpanQuery js} {durationMin durationMax : Int64} {out : List Span}
    (hout : blockMatches c q durationMin durationMax b.data = .ok out) :
    out = (spansOf c b.data).filter (spanMatches q durationMin durationMax) := by
  by_cases hcaps : WithinCaps c b
  · rw [h.blockMatches_select hc hcaps] at hout
    rw [(h.decodes hc hcaps).2]
    exact selectM_eq_ok hout
  · have hreads := mt (h.reads_iff hc).mp hcaps
    obtain ⟨codec, level, henc⟩ := h.encoded
    obtain ⟨stored, hst⟩ := encodeSpanBlock_ok henc
    have hcolumns : ∀ column < 24,
        (SpanColumnMask.all ||| .startTs ||| .spanId).column column = true := by decide
    rcases hst.fits_of_projected hc hcolumns hout with hfits | ⟨rfl, -⟩
    · exact absurd ⟨es, hst.decode_v3 hc hfits⟩ hreads
    · cases hdecode : decodeSpanBlock c b.data with
      | ok es' => exact absurd ⟨es', hdecode⟩ hreads
      | error err => rw [spansOf, hdecode]; rfl

end Block

/-! ### All blocks -/

/-- The spans that an engine holds: those of its blocks and of its buffer. -/
def allSpans (c : Compressors) (e : BlockEngine Span (SpanIndex (List BloomRow))) : List Span :=
  (e.store.rows.flatMap fun r => spansOf c r.data) ++ e.buffer

section Query

variable {e : BlockEngine Span (SpanIndex (List BloomRow))} {indexes : List SpanAttributeIndex}
  {q : SpanQuery js}

/-- What a query returns once the blocks to be decoded are known. -/
theorem query_eq (hc : c.Lossless)
    (hrows : ∀ r ∈ e.store.rows, ∃ es, SpanWritten c js P r.toEncoded es)
    (hbuffer : ∀ x ∈ e.buffer, P x) (hcaps : ∀ r ∈ e.store.rows, WithinCaps c r.toEncoded)
    (hvalid : validateQuery indexes q = .ok ()) (hjudged : ∀ x, P x → Judged q x)
    {durationMin durationMax : Int64} {blocks : List SpanRow}
    (hblocks : queryLocations e.store.rows q durationMin durationMax = .ok blocks)
    (hsub : ∀ r ∈ blocks, r ∈ e.store.rows) (order : SpanQueryOrder) :
    queryOrderedWithDuration c indexes e q durationMin durationMax order =
      .ok (((blocks.flatMap fun r => (spansOf c r.data).filter
        (spanMatches q durationMin durationMax)) ++
          e.buffer.filter (spanMatches q durationMin durationMax)).insertionSort (SpanLe order)) := by
  have hbuffered : selectM (entryMatches q durationMin durationMax) e.buffer =
      .ok (e.buffer.filter (spanMatches q durationMin durationMax)) :=
    selectM_eq_filter fun x hx => entryMatches_ok (hjudged x (hbuffer x hx)) _ _
  have hfound : blocks.mapM (fun r => blockMatches c q durationMin durationMax r.data) =
      .ok (blocks.map fun r => (spansOf c r.data).filter
        (spanMatches q durationMin durationMax)) := by
    refine mapM_ok_of_forall fun r hr => ?_
    obtain ⟨es, hes⟩ := hrows r (hsub r hr)
    exact hes.blockMatches_eq hc (hcaps r (hsub r hr)) hjudged _ _
  rw [queryOrderedWithDuration, hvalid, ok_bind, hblocks, ok_bind, hbuffered, ok_bind, hfound,
    ok_bind, ← List.flatMap_def]
  rfl

/-- **A query.** Over written blocks within the caps it finds what matches among all spans. -/
theorem query_perm (hc : c.Lossless)
    (hrows : ∀ r ∈ e.store.rows, ∃ es, SpanWritten c js P r.toEncoded es)
    (hbuffer : ∀ x ∈ e.buffer, P x) (hcaps : ∀ r ∈ e.store.rows, WithinCaps c r.toEncoded)
    (hvalid : validateQuery indexes q = .ok ()) (hjudged : ∀ x, P x → Judged q x)
    (hsure : q.Sure) (durationMin durationMax : Int64) (order : SpanQueryOrder) :
    ∃ out, queryOrderedWithDuration c indexes e q durationMin durationMax order = .ok out ∧
      out.Perm ((allSpans c e).filter (spanMatches q durationMin durationMax)) := by
  obtain ⟨blocks, hblocks, p, hperm, hmatch⟩ :=
    queryLocations_spec hrows hsure durationMin durationMax
  have hsub : ∀ r ∈ blocks, r ∈ e.store.rows := fun r hr =>
    List.mem_of_mem_filter (hperm.subset hr)
  refine ⟨_, query_eq hc hrows hbuffer hcaps hvalid hjudged hblocks hsub order, ?_⟩
  -- the rows that are left out have no match
  have hskipped : ∀ r ∈ e.store.rows, p r = false →
      (spansOf c r.data).filter (spanMatches q durationMin durationMax) = [] := by
    intro r hr hp
    refine List.filter_eq_nil_iff.mpr fun x hx hxm => ?_
    obtain ⟨es, hes⟩ := hrows r hr
    rw [(hes.decodes hc (hcaps r hr)).2] at hx
    have hblock := hperm.subset (hmatch r hr es hes ⟨x, hx, hxm⟩)
    rw [(List.mem_filter.mp hblock).2] at hp
    cases hp
  refine (List.perm_insertionSort _ _).trans ?_
  rw [allSpans, List.filter_append, List.filter_flatMap]
  refine List.Perm.append_right _ ((hperm.flatMap_right _).trans ?_)
  rw [Keyed.flatMap_filter_of_nil hskipped]

/-! ### The empty service -/

/-- No span leaves a term for an empty service. -/
theorem emptyService_not_mem (x : Span) : "service:".toList ∉ entryTerms x := by
  intro h
  have hother {t : Text} (k : Nat) (ch : Char) (hk : ("service:".toList.drop k).head? ≠ some ch)
      (ht : (t.drop k).head? = some ch) : "service:".toList ≠ t := fun heq => hk (heq ▸ ht)
  unfold entryTerms at h
  rcases List.mem_append.mp h with h | h
  · simp only [List.mem_cons, List.not_mem_nil, or_false] at h
    rcases h with h | h | h
    · exact hother 0 'k' (by decide) rfl h
    · exact hother 1 't' (by decide) rfl h
    · exact hother 0 'n' (by decide) rfl h
  · split_ifs at h with hservice
    · cases h
    · simp only [List.mem_cons, List.not_mem_nil, or_false] at h
      rcases h with h | h | h
      · exact hservice (List.isEmpty_iff.mpr (List.self_eq_append_right.mp h))
      · exact hother 0 'o' (by decide) rfl h
      · exact hother 0 'o' (by decide) rfl h

/-- A query for the empty service by terms decodes no block. -/
theorem queryLocations_emptyService {rows : List SpanRow}
    (hrows : ∀ r ∈ rows, ∃ es, SpanWritten c js P r.toEncoded es) (hattribute : q.attributeFilter = none)
    (htrace : q.traceId = none) (hservice : q.service = some []) (durationMin durationMax : Int64) :
    queryLocations rows q durationMin durationMax = .ok [] := by
  have hnone : candidateLocations rows q durationMin durationMax = [] := by
    rw [candidateLocations, htrace]
    refine List.eq_nil_iff_forall_not_mem.mpr fun r hr => ?_
    rw [queryTermsWithDurationBounds, List.mem_insertionSort, List.mem_filter, Bool.and_eq_true,
      List.all_eq_true] at hr
    have hterm : "service:".toList ∈ queryTerms q := by
      rw [queryTerms, hservice]
      exact List.mem_append_left _ (List.mem_append_left _ (List.mem_append_left _
        List.mem_cons_self))
    obtain ⟨es, hes⟩ := hrows r hr.1
    obtain ⟨x, -, hx⟩ := hes.termsOnly _ (List.contains_iff_mem.mp (hr.2.2 _ hterm))
    exact emptyService_not_mem x hx
  rw [queryLocations, hnone, hattribute]
  split_ifs <;> rfl

theorem validateQuery_ok_iff (indexes : List SpanAttributeIndex)
    (hattribute : q.attributeFilter = none) :
    validateQuery indexes q = .ok () ↔
      (∀ kind ∈ q.kind, kind ≤ 4) ∧ ∀ status ∈ q.status, status ≤ 2 := by
  have hgetD (o : Option UInt8) (n : UInt8) : ¬n < o.getD 0 ↔ ∀ x ∈ o, x ≤ n := by
    cases o with
    | none => simp
    | some x => simp
  rw [validateQuery, hattribute]
  simp only [rejectIf_bind_eq_ok, hgetD, pure_eq_ok, and_true]

end Query

/-- **Trace queries.** In every session of a span table whose blocks are within the decoder's caps,
every block is read, and a query without an attribute filter gives exactly the spans that match if
and only if its kind and status are ones and it does not ask for the empty service by terms while a
stored span matches. -/
theorem query_exact_iff (hc : c.Lossless) {env : StoreEnv}
    {s : Session Span (SpanIndex (List BloomRow))} (hs : SpanSession env c js (fun _ => True) s)
    (hcaps : ∀ r ∈ s.engine.store.rows, WithinCaps c r.toEncoded)
    (indexes : List SpanAttributeIndex) {q : SpanQuery js} (hattribute : q.attributeFilter = none)
    (durationMin durationMax : Int64) (order : SpanQueryOrder) :
    (∀ r ∈ s.engine.store.rows, decodeSpanBlock c r.data = .ok (spansOf c r.data)) ∧
      ((∃ out, queryOrderedWithDuration c indexes s.engine q durationMin durationMax order = .ok out ∧
        out.Perm ((allSpans c s.engine).filter (spanMatches q durationMin durationMax))) ↔
      ((∀ kind ∈ q.kind, kind ≤ 4) ∧ ∀ status ∈ q.status, status ≤ 2) ∧
        ¬(q.traceId = none ∧ q.service = some [] ∧ ∃ r ∈ s.engine.store.rows,
          ∃ e ∈ spansOf c r.data, spanMatches q durationMin durationMax e = true)) := by
  have hintact := (SpanSession.intact hc hs).engine
  obtain ⟨N, hN, -⟩ := hintact.rows
  have hrows := exists_rowsHold_iff.mp ⟨N, hN⟩
  have hjudged : ∀ x : Span, True → Judged q x := fun x _ filter hfilter => by
    rw [hattribute] at hfilter
    cases hfilter
  refine ⟨fun r hr => ?_, ?_⟩
  · obtain ⟨es, hes⟩ := hrows r hr
    obtain ⟨hdecode, hspans⟩ := SpanWritten.decodes hc hes (hcaps r hr)
    rw [hspans]
    exact hdecode
  rw [← validateQuery_ok_iff indexes hattribute]
  constructor
  · rintro ⟨out, hout, hperm⟩
    obtain ⟨_, hvalid, -⟩ := of_bind hout
    refine ⟨hvalid, ?_⟩
    rintro ⟨htrace, hservice, r, hr, x, hx, hmatch⟩
    -- only buffered spans are returned, so there is no place for the stored match
    have hblocks := queryLocations_emptyService hrows hattribute htrace hservice durationMin
      durationMax
    rw [query_eq hc hrows hintact.ok hcaps hvalid hjudged hblocks (by simp) order] at hout
    obtain rfl := Except.ok.inj hout
    have hlen := hperm.length_eq
    rw [List.length_insertionSort, List.flatMap_nil, List.nil_append, allSpans, List.filter_append,
      List.length_append, Nat.right_eq_add, List.length_eq_zero_iff, List.filter_eq_nil_iff] at hlen
    exact hlen x (List.mem_flatMap.mpr ⟨r, hr, hx⟩) hmatch
  · rintro ⟨hvalid, hnone⟩
    by_cases hempty : q.traceId = none ∧ q.service = some []
    · have hblocks := queryLocations_emptyService hrows hattribute hempty.1 hempty.2 durationMin
        durationMax
      refine ⟨_, query_eq hc hrows hintact.ok hcaps hvalid hjudged hblocks (by simp) order, ?_⟩
      have hstored : (s.engine.store.rows.flatMap fun r => spansOf c r.data).filter
          (spanMatches q durationMin durationMax) = [] := by
        refine List.filter_eq_nil_iff.mpr fun x hx hmatch => ?_
        obtain ⟨r, hr, hx⟩ := List.mem_flatMap.mp hx
        exact hnone ⟨hempty.1, hempty.2, r, hr, x, hx, hmatch⟩
      rw [allSpans, List.filter_append, hstored]
      exact List.perm_insertionSort _ _
    · refine query_perm hc hrows hintact.ok hcaps hvalid hjudged ⟨fun htrace hservice => ?_, ?_⟩
        durationMin durationMax order
      · exact hempty ⟨htrace, hservice⟩
      · rw [hattribute]
        rintro _ ⟨⟩

variable (js : SerdeJson JsonNumber)

/-- A span table that was opened empty, after one span was pushed. -/
def pushedSession (indexes : List SpanAttributeIndex) (e : Span) :
    Session Span (SpanIndex (List BloomRow)) :=
  let sig := spanSignal (spanCodec .storing indexes js) .default
  ⟨sig, ((push sig .reliable e).exec (.create sig .empty 0)).2, none⟩

/-- The table after a flush. -/
def flushedSession (indexes : List SpanAttributeIndex) (e : Span) :
    Session Span (SpanIndex (List BloomRow)) :=
  let s := pushedSession js indexes e
  { s with engine := ((flush s.sig .reliable).exec s.engine).2 }

theorem pushedSession_session (indexes : List SpanAttributeIndex) (h : P e) :
    SpanSession .reliable .storing js P (pushedSession js indexes e) := by
  let sig := spanSignal (spanCodec .storing indexes js) .default
  have hstart : SpanSession .reliable .storing js P ⟨sig, .create sig .empty 0, none⟩ :=
    .start 0 ⟨⟨indexes, .default, rfl⟩, fun r hr => absurd hr List.not_mem_nil⟩
  exact hstart.step (show SpanOp .storing js P (.push e) from h) rfl

theorem flushedSession_session (indexes : List SpanAttributeIndex) (h : P e) :
    SpanSession .reliable .storing js P (flushedSession js indexes e) :=
  (pushedSession_session js indexes h).step (show SpanOp .storing js P .flush from trivial) rfl

theorem withinCaps_of_raw (hraw : b.blockMeta.codec = codecRaw)
    (hcount : b.blockMeta.entryCount ≤ maxBlockEntries) :
    WithinCaps c b := by
  intro es codec level henc
  obtain ⟨stored, hst⟩ := encodeSpanBlock_ok henc
  obtain ⟨hn, hcodec, -⟩ := hst.describes
  rw [← hcodec, hraw]
  exact ⟨hn ▸ hcount, fun h => absurd h (by decide), fun h => absurd h (by decide)⟩

theorem withinCaps_of_all {rows : List SpanRow}
    (h : (rows.all fun r => r.blockMeta.codec == codecRaw &&
      decide (r.blockMeta.entryCount ≤ maxBlockEntries)) = true) :
    ∀ r ∈ rows, WithinCaps c r.toEncoded := by
  intro r hr
  obtain ⟨hraw, hcount⟩ := Bool.and_eq_true_iff.mp (List.all_eq_true.mp h r hr)
  exact withinCaps_of_raw (beq_iff_eq.mp hraw) (of_decide_eq_true hcount)

/-- JSON that nothing is read from. -/
def noJson : SerdeJson JsonNumber :=
  ⟨fun _ => .error "not JSON", fun _ => .error "not JSON"⟩

/-- All spans of a service. -/
def serviceQuery (service : Text) : SpanQuery noJson :=
  ⟨Int64.minValue, Int64.maxValue, none, some service, none, none, none, none⟩

theorem query_exact_iff_service : ∃ out,
    queryOrderedWithDuration .storing [] (flushedSession noJson [] rootSpan).engine
        (serviceQuery "web".toList) 0 1000 .asc = .ok out ∧
      out.Perm ((allSpans .storing (flushedSession noJson [] rootSpan).engine).filter
        (spanMatches (serviceQuery "web".toList) 0 1000)) :=
  ((query_exact_iff Compressors.storing_lossless
    (flushedSession_session noJson [] (P := fun _ => True) trivial)
    (withinCaps_of_all (by decide +kernel)) [] rfl 0 1000 .asc).2).mpr
    ⟨⟨by rintro _ ⟨⟩, by rintro _ ⟨⟩⟩, fun h => absurd h.2.1 (by decide)⟩

/-- A span without a service is found by the empty service in the buffer, and no more once it is
flushed. -/
theorem query_loses_emptyService :
    SpanSession .reliable .storing noJson (fun _ => True)
        (flushedSession noJson [] { rootSpan with service := [] }) ∧
      query .storing [] (pushedSession noJson [] { rootSpan with service := [] }).engine
        (serviceQuery []) = .ok [{ rootSpan with service := [] }] ∧
      allSpans .storing (flushedSession noJson [] { rootSpan with service := [] }).engine =
        [{ rootSpan with service := [] }] ∧
      entryMatches (serviceQuery []) Int64.minValue Int64.maxValue
        { rootSpan with service := [] } = .ok true ∧
      query .storing [] (flushedSession noJson [] { rootSpan with service := [] }).engine
        (serviceQuery []) = .ok [] :=
  ⟨flushedSession_session noJson [] trivial, by decide +kernel, by decide +kernel, by decide +kernel,
    by decide +kernel⟩

end Timeless.Spans
