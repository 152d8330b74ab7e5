import Timeless.Engine.Rewrite
import Timeless.Spans.Encoding
import Timeless.Spans.Pruning

/-!
# Maintenance — when maintenance of spans cannot be seen in queries

Spans move from the buffer to raw blocks and from there to merged blocks of codec 5, with all their
fields (`Timeless.Engine.Content`), and a query finds them wherever they are
(`Timeless.Spans.Pruning`), as long as their blocks can be read. Neither a flush nor the planner
looks at the caps of the decoder: a raw block has no cap on its bytes, and what is merged from blocks
that can be read need not be readable.

* `query_shown`: over readable blocks what a query returns depends on the content only;
* `maintenance_invisible_iff`: all queries return the same before and after exactly if the blocks
  that are written are within the caps (`SpanMaintenance.Fits`).
-/

namespace Timeless.Spans

open Support Codec Engine Program
open Blocks (SerdeJson u16Max)

/-! ### Operations -/

/-- What maintenance a host can ask for, and the part of it that fills in duration bounds. -/
inductive SpanMaintenance where
  | flush
  | optimize
  | optimizeBudgeted (maxEntries : Nat)
  | backfill (budget : Option Nat)

section

variable (sig : Signal Span (SpanIndex (List BloomRow))) (env : StoreEnv)

def SpanMaintenance.run : SpanMaintenance → EngineM Span (SpanIndex (List BloomRow)) Unit
  | .flush => do
      let _ ← Engine.flush sig env
      return ()
  | .optimize => do
      let _ ← Engine.optimize sig env
      return ()
  | .optimizeBudgeted maxEntries => do
      let _ ← Engine.optimizeBudgeted sig env maxEntries
      return ()
  | .backfill budget => backfillDurationBounds sig env budget

/-- If the groups that maintenance takes on can all be written, they are within the caps. -/
def MergesFit (rows : List SpanRow) (index : List IndexEntry) (budget : Option Nat) : Prop :=
  (∀ g ∈ selectedGroups sig index budget, ∃ b, rewritten sig rows g = .ok b) →
    ∀ g ∈ selectedGroups sig index budget, ∀ es, mergedEntries sig rows g = .ok es →
      SpanFits es codecColumnarV2

/-- If the runs of the buffer can all be written, they are within the caps, and so is what the
maintenance behind the flush writes. -/
def FlushFits (e : BlockEngine Span (SpanIndex (List BloomRow))) : Prop :=
  ∀ blocks, encodeRuns sig (e.buffer.insertionSort (FlushLe sig)) = .ok blocks →
    (∀ run ∈ flushRuns sig e.buffer, run.length ≤ maxBlockEntries) ∧
      (AutoOptimizes sig e (flushedIndex env blocks e) →
        MergesFit sig (flushedRows env blocks e) (flushedIndex env blocks e)
          (some sig.autoOptimizeBudget))

/-- What an operation writes is within the caps. -/
def SpanMaintenance.Fits (e : BlockEngine Span (SpanIndex (List BloomRow))) :
    SpanMaintenance → Prop
  | .flush => FlushFits sig env e
  | .optimize => MergesFit sig e.store.rows e.index none
  | .optimizeBudgeted maxEntries =>
      maxEntries ≠ 0 → MergesFit sig e.store.rows e.index (some maxEntries)
  | .backfill _ => True

end

variable {c : Compressors} {js : SerdeJson JsonNumber} {P : Span → Prop} {env : StoreEnv}

theorem carries_spanMaintenance {m : Reading Span (SpanIndex (List BloomRow)) Span}
    {sig : Signal Span (SpanIndex (List BloomRow))} {want lost : Option (Multiset Span)}
    {saves : Option (Journal.Saves Int (BlockEngine Span (SpanIndex (List BloomRow))))}
    (hm : m.Honors sig) (hx : Excuse env want lost) (op : SpanMaintenance) :
    Triple (fun e => Good saves e ∧ Carries m want e) (op.run sig env) (fun _ => Carries m want)
      (Carries m lost) := by
  cases op with
  | flush => exact (carries_maintained hm hx).flush.discard
  | optimize => exact ((carries_maintained hm hx).optimizeWithBudget none).discard
  | optimizeBudgeted n => exact ((carries_maintained hm hx).optimizeBudgeted n).discard
  | backfill budget =>
      exact (carries_backfill hm hx budget).pre fun _ h => h.2

/-! ### Caps -/

section Caps

variable {indexes : List SpanAttributeIndex} {cfg : SpanEngineConfig} {es : List Span}
  {b : Encoded (SpanIndex (List BloomRow))}

theorem encodeSpans_reads (hc : c.Lossless) {codec : UInt8}
    (h : encodeSpans (spanCodec c indexes js) cfg codec es = .ok b) :
    (∃ out, decodeSpanBlock c b.data = .ok out) ↔ SpanFits es codec := by
  obtain ⟨⟨data, blockMeta⟩, henc, h⟩ := of_bind h
  obtain ⟨_, -, h⟩ := of_bind h
  obtain ⟨_, -, rfl⟩ := bind_pure_eq_ok.mp h
  obtain ⟨stored, hst⟩ := encodeSpanBlock_ok henc
  constructor
  · rintro ⟨out, hout⟩
    exact hst.fits_of_decode hc hout
  · exact fun hfit => ⟨es, hst.decode_v3 hc hfit⟩

theorem spanFits_raw_iff : SpanFits es codecRaw ↔ es.length ≤ maxBlockEntries :=
  ⟨fun h => h.count, fun h =>
    ⟨h, fun htyped => absurd htyped (by decide), fun hz => absurd hz (by decide)⟩⟩

theorem mergesFit_iff (hc : c.Lossless) {rows : List SpanRow} {index : List IndexEntry}
    {budget : Option Nat} :
    MergesRead (spanSignal (spanCodec c indexes js) cfg) rows index budget ↔
      MergesFit (spanSignal (spanCodec c indexes js) cfg) rows index budget := by
  refine imp_congr_right fun hall => forall₂_congr fun g hg => ?_
  obtain ⟨b, hb⟩ := hall g hg
  obtain ⟨es, hes, hencode⟩ := of_bind hb
  have hreads : (∃ out, decodeSpanBlock c b.data = .ok out) ↔ SpanFits es codecColumnarV2 :=
    encodeSpans_reads hc hencode
  constructor
  · intro h es' hes'
    obtain rfl := Except.ok.inj (hes.symm.trans hes')
    exact hreads.mp (h b hb)
  · intro h b' hb'
    obtain rfl := Except.ok.inj (hb.symm.trans hb')
    exact hreads.mpr (h es hes)

theorem flushFits_iff (hc : c.Lossless) {e : BlockEngine Span (SpanIndex (List BloomRow))} :
    FlushReads (spanSignal (spanCodec c indexes js) cfg) env e ↔
      FlushFits (spanSignal (spanCodec c indexes js) cfg) env e := by
  refine forall₂_congr fun blocks hblocks => and_congr ?_ (imp_congr_right fun _ => mergesFit_iff hc)
  refine (forall_mem_iff_of_forall₂ (mapM_eq_ok.mp hblocks) fun run b hb => ?_).symm
  obtain ⟨block, hblock, rfl⟩ := bind_pure_eq_ok.mp hb
  exact spanFits_raw_iff.symm.trans (encodeSpans_reads hc hblock).symm

/-- All blocks can be read after an operation exactly if they could be before and what it writes is
within the caps. -/
theorem spanMaintenance_reads (hc : c.Lossless) (hnf : env.NeverFails)
    {e : BlockEngine Span (SpanIndex (List BloomRow))} (hret : e.retentionNative = 0)
    (op : SpanMaintenance) :
    Triple (· = e) (op.run (spanSignal (spanCodec c indexes js) cfg) env)
      (fun _ e' => AllRead (spanSignal (spanCodec c indexes js) cfg) e'.store.rows ↔
        AllRead (spanSignal (spanCodec c indexes js) cfg) e.store.rows ∧
          op.Fits (spanSignal (spanCodec c indexes js) cfg) env e)
      (fun e' => AllRead (spanSignal (spanCodec c indexes js) cfg) e'.store.rows ↔
        AllRead (spanSignal (spanCodec c indexes js) cfg) e.store.rows ∧
          op.Fits (spanSignal (spanCodec c indexes js) cfg) env e) := by
  cases op with
  | flush =>
      simp only [SpanMaintenance.Fits, ← flushFits_iff hc]
      exact (flush_reads hnf rfl hret).bind fun _ => .pure fun _ h => h
  | optimize =>
      simp only [SpanMaintenance.Fits, ← mergesFit_iff hc]
      exact (optimizeWithBudget_reads hnf rfl hret none).bind fun _ => .pure fun _ h => h
  | optimizeBudgeted n =>
      simp only [SpanMaintenance.Fits, ← mergesFit_iff hc]
      refine Triple.bind (Triple.ite (fun hzero => Triple.throw ?_) fun hpos => ?_) fun _ =>
        .pure fun _ h => h
      · rintro _ rfl
        exact (and_iff_left fun h => absurd hzero h).symm
      · exact (optimizeWithBudget_reads hnf rfl hret (some n)).imp (fun _ h => h)
          (fun _ _ h => h.trans (and_congr_right' ⟨fun h _ => h, fun h => h hpos⟩))
          fun _ h => h.trans (and_congr_right' ⟨fun h _ => h, fun h => h hpos⟩)
  | backfill budget =>
      simp only [SpanMaintenance.Fits, and_true]
      have hkeeps := @Leaves.backfill _ _ (spanSignal (spanCodec c indexes js) cfg) env 0
        (AllRead (spanSignal (spanCodec c indexes js) cfg) e.store.rows) budget
      refine hkeeps.imp ?_ (fun _ _ h => h.reads) fun _ h => h.reads
      rintro _ rfl
      exact ⟨Iff.rfl, hret⟩

end Caps

/-! ### Queries see the content -/

/-- The spans of a result, in any order. -/
def shown (out : List Span) : Multiset Span := out

section Queries

variable {e : BlockEngine Span (SpanIndex (List BloomRow))} {M : Multiset Span}

/-- Within the caps, the rows hold what is decoded from them. -/
theorem rowsHold_spans (hc : c.Lossless) {rows : List SpanRow} {M : Multiset Span}
    (h : RowsHold (spanReading c js P) rows M) (hcaps : ∀ r ∈ rows, WithinCaps c r.toEncoded) :
    shown (rows.flatMap fun r => spansOf c r.data) = M := by
  obtain ⟨ann, ⟨rfl, hwritten⟩, rfl⟩ := h
  refine congrArg Multiset.ofList ?_
  rw [List.flatMap_map, List.map_flatMap]
  refine List.flatMap_congr fun p hp => ?_
  rw [(SpanWritten.decodes hc (hwritten p hp) (hcaps p.1 (List.mem_map_of_mem hp))).2]
  exact (List.map_id _).symm

/-- Within the caps, what an engine holds is what is decoded. -/
theorem carries_allSpans (hc : c.Lossless) (h : Carries (spanReading c js P) (some M) e)
    (hcaps : ∀ r ∈ e.store.rows, WithinCaps c r.toEncoded) : shown (allSpans c e) = M := by
  obtain ⟨N, hN, hM⟩ := h.rows
  obtain ⟨rfl, -⟩ := hM _ rfl
  rw [← rowsHold_spans hc hN hcaps, allSpans]
  change ((_ ++ e.buffer : List Span) : Multiset Span) = (_ : List Span) +
    (e.buffer.map id : List Span)
  rw [List.map_id, Multiset.coe_add]

/-- What a query returns depends on the content only. -/
theorem query_shown (hc : c.Lossless) (h : Carries (spanReading c js P) (some M) e)
    (hcaps : ∀ r ∈ e.store.rows, WithinCaps c r.toEncoded) (indexes : List SpanAttributeIndex)
    {q : SpanQuery js} (hjudged : ∀ x, P x → Judged q x) (hsure : q.Sure)
    (durationMin durationMax : Int64) (order : SpanQueryOrder) :
    (queryOrderedWithDuration c indexes e q durationMin durationMax order).map shown =
      (validateQuery indexes q).map fun _ =>
        M.filter fun x => spanMatches q durationMin durationMax x = true := by
  cases hvalid : validateQuery indexes q with
  | error err =>
      rw [queryOrderedWithDuration, hvalid]
      rfl
  | ok u =>
      obtain ⟨N, hN, -⟩ := h.rows
      obtain ⟨out, hout, hperm⟩ := query_perm hc (exists_rowsHold_iff.mp ⟨N, hN⟩) h.ok hcaps
        hvalid hjudged hsure durationMin durationMax order
      rw [hout]
      refine congrArg Except.ok ?_
      rw [← carries_allSpans hc h hcaps, shown, shown, Multiset.filter_coe]
      refine Multiset.coe_eq_coe.mpr (hperm.trans (.of_eq ?_))
      exact List.filter_congr fun x _ => by simp

/-- All spans there are. -/
def everyQuery (js : SerdeJson JsonNumber) : SpanQuery js :=
  ⟨Int64.minValue, Int64.maxValue, none, none, none, none, none, none⟩

theorem blockMatches_every_reads (hc : c.Lossless) {out : List Span} (h : SpanWritten c js P b es)
    (hout : blockMatches c (everyQuery js) Int64.minValue Int64.maxValue b.data = .ok out) :
    WithinCaps c b := by
  refine (h.reads_iff hc).mp ?_
  obtain ⟨codec, level, henc⟩ := h.encoded
  obtain ⟨stored, hst⟩ := encodeSpanBlock_ok henc
  have hcolumns : ∀ column < 24,
      (SpanColumnMask.all ||| .startTs ||| .spanId).column column = true := by decide
  rcases hst.fits_of_projected hc hcolumns hout with hfits | ⟨-, r, hr⟩
  · exact ⟨es, hst.decode_v3 hc hfits⟩
  · have hlow (x : Int64) : ¬x < Int64.minValue := Int64.not_lt.mpr (Int64.minValue_le x)
    have hhigh (x : Int64) : ¬Int64.maxValue < x := Int64.not_lt.mpr (Int64.le_maxValue x)
    simp [predicateRowMatches, fieldsMatch, everyQuery, hlow, hhigh] at hr

/-- If all spans can be listed, every block can be read. -/
theorem withinCaps_of_every (hc : c.Lossless)
    (hrows : ∀ r ∈ e.store.rows, ∃ es, SpanWritten c js P r.toEncoded es)
    {indexes : List SpanAttributeIndex} {out : List Span}
    (hout : query c indexes e (everyQuery js) = .ok out) :
    ∀ r ∈ e.store.rows, WithinCaps c r.toEncoded := by
  intro r hr
  obtain ⟨es, hes⟩ := hrows r hr
  obtain ⟨_, -, hout⟩ := of_bind hout
  obtain ⟨blocks, hblocks, hout⟩ := of_bind hout
  obtain ⟨_, -, hout⟩ := of_bind hout
  obtain ⟨found, hfound, -⟩ := of_bind hout
  have hmem : r ∈ blocks := by
    rw [queryLocations, if_neg (by decide)] at hblocks
    obtain rfl := Except.ok.inj hblocks
    rw [candidateLocations]
    simp only [everyQuery, queryTermsWithDurationBounds, queryTerms, inBounds, Int64.minValue_le,
      Int64.le_maxValue]
    simpa [List.mem_insertionSort] using hr
  obtain ⟨part, -, hpart⟩ := exists_of_forall₂_left (mapM_eq_ok.mp hfound) hmem
  exact blockMatches_every_reads hc hes hpart

end Queries

/-! ### The theorem -/

section Session

variable {s : Session Span (SpanIndex (List BloomRow))} {result : Except String Unit}
  {after : BlockEngine Span (SpanIndex (List BloomRow))}

/-- Maintenance keeps the content, and all blocks are within the caps afterwards exactly if what it
writes is. -/
theorem after_maintenance (hc : c.Lossless) (hnf : env.NeverFails) (hs : SpanSession env c js P s)
    (hret : s.engine.retentionNative = 0)
    (hcaps : ∀ r ∈ s.engine.store.rows, WithinCaps c r.toEncoded) (op : SpanMaintenance)
    (hrun : (op.run s.sig env).exec s.engine = (result, after)) :
    (∃ W, Carries (spanReading c js P) (some W) s.engine ∧
      Carries (spanReading c js P) (some W) after) ∧
      ((∀ r ∈ after.store.rows, WithinCaps c r.toEncoded) ↔ op.Fits s.sig env s.engine) := by
  have hintact := hs.intact hc
  obtain ⟨N, hN, -⟩ := hintact.engine.rows
  have hcarries : Carries (spanReading c js P)
      (some (N + (s.engine.buffer.map id : List Span))) s.engine :=
    ⟨hintact.engine.ok, N, hN, by rintro _ ⟨⟩; exact ⟨rfl, hret⟩⟩
  have hkept : Carries (spanReading c js P)
      (some (N + (s.engine.buffer.map id : List Span))) after := by
    have hmade := carries_spanMaintenance hintact.kind (.inr ⟨rfl, hnf⟩) op s.engine
      ⟨hs.sound.good, hcarries⟩
    rw [hrun] at hmade
    cases result with
    | ok _ => exact hmade
    | error _ => exact hmade
  refine ⟨⟨_, hcarries, hkept⟩, ?_⟩
  obtain ⟨N', hN', -⟩ := hkept.rows
  -- for blocks that an engine wrote, being within the caps and being readable are the same
  obtain ⟨indexes, cfg, hsig⟩ := hs.isSpans hc
  have hread {rows : List SpanRow} {N : Multiset Span}
      (h : RowsHold (spanReading c js P) rows N) :
      AllRead s.sig rows ↔ ∀ r ∈ rows, WithinCaps c r.toEncoded := by
    refine forall₂_congr fun r hr => ?_
    obtain ⟨es, hes⟩ := exists_rowsHold_iff.mp ⟨N, h⟩ r hr
    rw [hsig]
    exact SpanWritten.reads_iff hc hes
  have hmade := @spanMaintenance_reads _ js _ indexes cfg hc hnf _ hret op s.engine rfl
  rw [← hsig, hrun] at hmade
  have hiff : AllRead s.sig after.store.rows ↔
      AllRead s.sig s.engine.store.rows ∧ op.Fits s.sig env s.engine := by
    cases result with
    | ok _ => exact hmade
    | error _ => exact hmade
  rwa [hread hN', hread hN, and_iff_right hcaps] at hiff

/-- **Span maintenance.** In every session of a span table without retention whose blocks are within
the caps, over a store that never fails, maintenance leaves the spans that every query returns as
they were if and only if what it writes is within the caps. -/
theorem maintenance_invisible_iff (hc : c.Lossless) (hnf : env.NeverFails)
    (hs : SpanSession env c js (fun _ => True) s) (hret : s.engine.retentionNative = 0)
    (hcaps : ∀ r ∈ s.engine.store.rows, WithinCaps c r.toEncoded) (op : SpanMaintenance)
    (hrun : (op.run s.sig env).exec s.engine = (result, after)) :
    (∀ (indexes : List SpanAttributeIndex) (q : SpanQuery js), q.attributeFilter = none →
      q.service ≠ some [] → q.name ≠ some [] → ∀ durationMin durationMax order,
        (queryOrderedWithDuration c indexes after q durationMin durationMax order).map shown =
          (queryOrderedWithDuration c indexes s.engine q durationMin durationMax order).map shown) ↔
      op.Fits s.sig env s.engine := by
  obtain ⟨⟨W, hcarries, hkept⟩, hfits⟩ := after_maintenance hc hnf hs hret hcaps op hrun
  rw [← hfits]
  have hjudged (q : SpanQuery js) (hattribute : q.attributeFilter = none) :
      ∀ x : Span, True → Judged q x := fun x _ filter hfilter => by
    rw [hattribute] at hfilter
    cases hfilter
  constructor
  · intro h
    have hevery := h [] (everyQuery js) rfl nofun nofun Int64.minValue Int64.maxValue .asc
    have hsure : (everyQuery js).Sure := ⟨fun _ => nofun, nofun⟩
    rw [query_shown hc hcarries hcaps [] (hjudged _ rfl) hsure] at hevery
    cases hout : query c [] after (everyQuery js) with
    | ok out =>
        obtain ⟨N, hN, -⟩ := hkept.rows
        exact withinCaps_of_every hc (exists_rowsHold_iff.mp ⟨N, hN⟩) hout
    | error err =>
        rw [query] at hout
        rw [hout] at hevery
        cases hevery
  · intro hafter indexes q hattribute hservice hname durationMin durationMax order
    have hsure : q.Sure := ⟨fun _ => hservice, by rw [hattribute]; exact nofun⟩
    rw [query_shown hc hcarries hcaps indexes (hjudged q hattribute) hsure,
      query_shown hc hkept hafter indexes (hjudged q hattribute) hsure]

end Session

/-- A span of the service `db`. -/
def dbSpan (name : String) : Span :=
  { rootSpan with service := "db".toList, name := name.toList, startTs := 3000 }

/-- A table with a block of two services and more spans in its buffer. -/
def busyTable : Session Span (SpanIndex (List BloomRow)) :=
  let sig := spanSignal (spanCodec .storing [] noJson) .default
  let pushed := ((pushBatch sig .reliable [rootSpan, dbSpan "select"]).exec
    (.create sig .empty 0)).2
  let flushed := ((flush sig .reliable).exec pushed).2
  ⟨sig, ((pushBatch sig .reliable [dbSpan "insert", dbSpan "select"]).exec flushed).2, none⟩

theorem busyTable_reachable
    {starts : Signal Span (SpanIndex (List BloomRow)) → Store (SpanIndex (List BloomRow)) → Prop}
    (h : starts busyTable.sig .empty) :
    Reachable .reliable starts (SpanOp .storing noJson fun _ => True) busyTable :=
  (((Reachable.start 0 h).step (show SpanOp .storing noJson (fun _ => True)
    (.pushBatch [rootSpan, dbSpan "select"]) from fun _ _ => trivial) rfl).step
    (show SpanOp .storing noJson (fun _ => True) .flush from trivial) rfl).step
    (show SpanOp .storing noJson (fun _ => True)
      (.pushBatch [dbSpan "insert", dbSpan "select"]) from fun _ _ => trivial) rfl

/-- The flush writes a second block, and no query can tell. -/
theorem maintenance_invisible_iff_flush :
    SpanSession .reliable .storing noJson (fun _ => True) busyTable ∧
      SpanMaintenance.flush.Fits busyTable.sig .reliable busyTable.engine ∧
      ∃ after, (SpanMaintenance.flush.run busyTable.sig .reliable).exec busyTable.engine =
          (.ok (), after) ∧
        (busyTable.engine.store.rows.length, after.store.rows.length) = (1, 2) ∧
        ∀ (indexes : List SpanAttributeIndex) (q : SpanQuery noJson), q.attributeFilter = none →
          q.service ≠ some [] → q.name ≠ some [] → ∀ durationMin durationMax order,
            (queryOrderedWithDuration .storing indexes after q durationMin durationMax order).map
                shown =
              (queryOrderedWithDuration .storing indexes busyTable.engine q durationMin durationMax
                order).map shown := by
  have hs : SpanSession .reliable .storing noJson (fun _ => True) busyTable :=
    busyTable_reachable ⟨⟨[], .default, rfl⟩, fun r hr => absurd hr List.not_mem_nil⟩
  have hrun : (SpanMaintenance.flush.run busyTable.sig .reliable).exec busyTable.engine =
    (.ok (), ((flush busyTable.sig .reliable).exec busyTable.engine).2) := rfl
  have hfits : SpanMaintenance.flush.Fits busyTable.sig .reliable busyTable.engine := by
    refine fun blocks _ => ⟨?_, fun hauto => absurd rfl hauto.1⟩
    exact List.forall_mem_singleton.mpr (by decide : 2 ≤ maxBlockEntries)
  exact ⟨hs, hfits, _, hrun, by decide +kernel, (maintenance_invisible_iff
    Compressors.storing_lossless StoreEnv.reliable_neverFails hs rfl
    (withinCaps_of_all (by decide +kernel)) .flush hrun).mpr hfits⟩

/-! ### A span that is too long to be merged -/

/-- A root span with other attributes. -/
def withAttributes (t : Text) : Span :=
  { rootSpan with attributes := t }

section Long

variable {t : Text} (ht : (utf8 t).length ≤ 2 ^ 27)

include ht

theorem withAttributes_valid : SpanValid (withAttributes t) where
  kind := (by decide : (1 : UInt8).toNat ≤ 4)
  status := (by decide : (0 : UInt8).toNat ≤ 2)
  name := (by decide : (utf8 rootSpan.name).length ≤ u16Max)
  service := (by decide : (utf8 rootSpan.service).length ≤ u16Max)
  wide := by
    have hrest : ∀ p ∈ (wideTexts rootSpan).tail, (utf8 p.2).length ≤ u32Max := by decide
    intro p hp
    rcases List.mem_cons.mp hp with rfl | hp
    · exact ht.trans (by decide)
    · exact hrest p hp

theorem withAttributes_rawEncodable : RawEncodable [withAttributes t] where
  count_le := (by decide : 1 ≤ u32Max)
  valid := List.forall_mem_singleton.mpr (withAttributes_valid ht)
  columns := by
    have hother : ∀ col ∈ plainColumns codecRaw [rootSpan], col.length ≤ u32Max := by decide
    have hsplit : plainColumns codecRaw [withAttributes t] =
        (plainColumns codecRaw [rootSpan]).take 9 ++
          (lenPrefixed t ++ []) :: (plainColumns codecRaw [rootSpan]).drop 10 := rfl
    intro col hcol
    rw [hsplit] at hcol
    rcases List.mem_append.mp hcol with hcol | hcol
    · exact hother col (List.mem_of_mem_take hcol)
    rcases List.mem_cons.mp hcol with rfl | hcol
    · have hmax : 2 ^ 27 + 4 ≤ u32Max := by decide
      rw [List.append_nil, lenPrefixed, List.length_append, length_leBytes]
      omega
    · exact hother col (List.mem_of_mem_drop hcol)

/-- It can be written in codec 5. -/
theorem withAttributes_encodes {cfg : SpanEngineConfig} :
    ∃ b, encodeSpans (spanCodec .storing [] noJson) cfg codecColumnarV2 [withAttributes t] =
      .ok b := by
  refine (encodeSpans_ok_iff ⟨[], buildSpanAttributeBlooms_nil⟩).mpr (encodeSpanBlock_typed
    Compressors.storing_bounded (List.cons_ne_nil _ _)
    (List.forall_mem_singleton.mpr (withAttributes_valid ht)) (by decide : 1 ≤ maxBlockEntries) ?_ _)
  have hother : ∀ texts ∈ textColumns [rootSpan], StrColumnWithin (2 ^ 28) texts := by decide
  have hsplit : textColumns [withAttributes t] =
      (textColumns [rootSpan]).take 2 ++ [t] :: (textColumns [rootSpan]).drop 3 := rfl
  intro texts htexts
  rw [hsplit] at htexts
  rcases List.mem_append.mp htexts with htexts | htexts
  · exact hother texts (List.mem_of_mem_take htexts)
  rcases List.mem_cons.mp htexts with rfl | htexts
  · rw [strColumnWithin_singleton]
    omega
  · exact hother texts (List.mem_of_mem_drop htexts)

/-- After the flush there is the block of the span and nothing else. -/
theorem flushedSession_withAttributes :
    ∃ b : Encoded (SpanIndex (List BloomRow)),
      encodeSpans (spanCodec .storing [] noJson) .default codecRaw [withAttributes t] = .ok b ∧
      (flushedSession noJson [] (withAttributes t)).engine.store.rows = [⟨b, 1⟩] ∧
      (flushedSession noJson [] (withAttributes t)).engine.index =
        [⟨⟨1000, 1000, 1, codecRaw⟩, 1, some 0⟩] ∧
      (flushedSession noJson [] (withAttributes t)).engine.buffer = [] ∧
      (flushedSession noJson [] (withAttributes t)).engine.retentionNative = 0 ∧
      decodeSpanBlock .storing b.data = .ok [withAttributes t] := by
  obtain ⟨b, hb⟩ := (@encodeSpans_ok_iff noJson [withAttributes t] .storing [] .default codecRaw
    ⟨[], buildSpanAttributeBlooms_nil⟩).mpr
      ((encodeSpanBlock_raw_iff (List.cons_ne_nil _ _)).mpr (withAttributes_rawEncodable ht))
  obtain ⟨hmeta, hdecode⟩ : b.blockMeta = ⟨1000, 1000, 1, codecRaw⟩ ∧
      decodeSpanBlock .storing b.data = .ok [withAttributes t] := by
    obtain ⟨⟨data, m⟩, henc, hrest⟩ := of_bind hb
    obtain ⟨stored, hst⟩ := encodeSpanBlock_ok henc
    obtain ⟨_, -, hrest⟩ := of_bind hrest
    obtain ⟨_, -, rfl⟩ := bind_pure_eq_ok.mp hrest
    exact ⟨hst.meta_eq, hst.decode_v3 Compressors.storing_lossless
      (spanFits_raw_iff.mpr (by decide : 1 ≤ maxBlockEntries))⟩
  have hblocks : encodeRuns (pushedSession noJson [] (withAttributes t)).sig
      ((pushedSession noJson [] (withAttributes t)).engine.buffer.insertionSort
        (FlushLe (pushedSession noJson [] (withAttributes t)).sig)) = .ok [(b, some 0)] := by
    change [[withAttributes t]].mapM _ = _
    rw [List.mapM_cons]
    change (do
      let x ← (do
        let block ← encodeSpans (spanCodec .storing [] noJson) .default codecRaw [withAttributes t]
        return (block, some 0) : Except String _)
      _ : Except String _) = _
    rw [hb]
    rfl
  obtain ⟨_, e, hrun, hflushed⟩ := (flush_quiet (e := (pushedSession noJson [] (withAttributes t)).engine)
    StoreEnv.reliable_neverFails rfl rfl hblocks).returns rfl
  have hengine : (flushedSession noJson [] (withAttributes t)).engine = e := congrArg Prod.snd hrun
  rw [hengine]
  refine ⟨b, hb, hflushed.rows_eq, ?_, hflushed.buffer_eq, hflushed.retention_eq, hdecode⟩
  rw [hflushed.index_eq, ← hmeta]
  rfl

/-- It is all that is there, and it can be read. -/
theorem flushedSession_lists :
    (∀ r ∈ (flushedSession noJson [] (withAttributes t)).engine.store.rows,
      ∃ es, SpanWritten .storing noJson (fun _ => True) r.toEncoded es) ∧
    (∀ r ∈ (flushedSession noJson [] (withAttributes t)).engine.store.rows,
      WithinCaps .storing r.toEncoded) ∧
    allSpans .storing (flushedSession noJson [] (withAttributes t)).engine = [withAttributes t] ∧
    (flushedSession noJson [] (withAttributes t)).engine.retentionNative = 0 := by
  have hs := flushedSession_session noJson [] (P := fun _ => True) (e := withAttributes t) trivial
  obtain ⟨b, -, hrows, -, hbuffer, hret, hdecode⟩ := flushedSession_withAttributes ht
  obtain ⟨N, hN, -⟩ := (hs.intact Compressors.storing_lossless).engine.rows
  have hwritten := exists_rowsHold_iff.mp ⟨N, hN⟩
  refine ⟨hwritten, fun r hr => ?_, ?_, hret⟩
  · obtain ⟨es, hes⟩ := hwritten r hr
    rw [hrows] at hr
    obtain rfl := List.mem_singleton.mp hr
    exact (SpanWritten.reads_iff Compressors.storing_lossless hes).mp ⟨_, hdecode⟩
  · rw [allSpans, hrows, hbuffer, List.append_nil, List.flatMap_singleton, spansOf, hdecode]
    rfl

/-- Maintenance takes the block on, and what it writes has the length of the text. -/
theorem withAttributes_fits (h : SpanMaintenance.optimize.Fits
      (flushedSession noJson [] (withAttributes t)).sig .reliable
      (flushedSession noJson [] (withAttributes t)).engine) :
    4 + (utf8 t).length ≤ decompressMaxBytes := by
  obtain ⟨b, -, hrows, hindex, -, -, hdecode⟩ := flushedSession_withAttributes ht
  let source : IndexEntry := ⟨⟨1000, 1000, 1, codecRaw⟩, 1, some 0⟩
  have hmerged : mergedEntries (flushedSession noJson [] (withAttributes t)).sig [⟨b, 1⟩]
      ⟨[source], some 0, .rawCompression⟩ = .ok [withAttributes t] := by
    have hpart : sourceEntries (flushedSession noJson [] (withAttributes t)).sig [⟨b, 1⟩] source =
        .ok [withAttributes t] := hdecode
    rw [mergedEntries, List.mapM_cons, hpart]
    rfl
  have hgroups : selectedGroups (flushedSession noJson [] (withAttributes t)).sig [source] none =
      [⟨[source], some 0, .rawCompression⟩] := rfl
  rw [SpanMaintenance.Fits, hrows, hindex, MergesFit, hgroups] at h
  simp only [List.forall_mem_singleton] at h
  obtain ⟨b', hb'⟩ := @withAttributes_encodes t ht .default
  have hfits := h ⟨b', by rw [rewritten, hmerged]; exact hb'⟩ _ hmerged
  exact strColumnWithin_singleton.mp (strColumnFits_iff.mp
    (hfits.typed rfl [t] (List.mem_cons_of_mem _ (List.mem_cons_of_mem _ List.mem_cons_self))))

end Long

theorem exists_utf8_length (n : Nat) : ∃ t : Text, (utf8 t).length = n := by
  have hone : (String.utf8EncodeChar 'a').length = 1 := rfl
  refine ⟨List.replicate n 'a', ?_⟩
  rw [utf8, List.length_flatMap, List.map_replicate, List.sum_replicate_nat, hone, Nat.mul_one]

/-- A span with attributes of 64 MiB can be listed after it was flushed, and no more once it was
optimized. -/
theorem optimize_hides_longAttributes : ∃ t : Text,
    SpanSession .reliable .storing noJson (fun _ => True)
        (flushedSession noJson [] (withAttributes t)) ∧
      (flushedSession noJson [] (withAttributes t)).engine.retentionNative = 0 ∧
      (∀ r ∈ (flushedSession noJson [] (withAttributes t)).engine.store.rows,
        WithinCaps .storing r.toEncoded) ∧
      query .storing [] (flushedSession noJson [] (withAttributes t)).engine (everyQuery noJson) =
        .ok [withAttributes t] ∧
      ∃ err, query .storing [] ((SpanMaintenance.optimize.run
          (flushedSession noJson [] (withAttributes t)).sig .reliable).exec
            (flushedSession noJson [] (withAttributes t)).engine).2 (everyQuery noJson) =
        .error err := by
  obtain ⟨t, ht⟩ := exists_utf8_length (2 ^ 26)
  have hle : (utf8 t).length ≤ 2 ^ 27 := ht.trans_le (by decide)
  have hc := Compressors.storing_lossless
  have hs := flushedSession_session noJson [] (P := fun _ => True) (e := withAttributes t) trivial
  obtain ⟨hrows, hcaps, hall, hret⟩ := flushedSession_lists hle
  obtain ⟨⟨W, hcarries, hkept⟩, hfits⟩ := after_maintenance hc StoreEnv.reliable_neverFails hs
    hret hcaps .optimize Prod.mk.eta.symm
  refine ⟨t, hs, hret, hcaps, ?_, ?_⟩
  · have hvalid : validateQuery [] (everyQuery noJson) = .ok () := rfl
    obtain ⟨out, hout, hperm⟩ := query_perm hc hrows hcarries.ok hcaps hvalid
      (fun _ _ _ => nofun) ⟨fun _ => nofun, nofun⟩ Int64.minValue Int64.maxValue .asc
    rw [hall] at hperm
    rw [query, hout, List.perm_singleton.mp hperm]
  · cases hout : query .storing [] _ (everyQuery noJson) with
    | error err => exact ⟨err, rfl⟩
    | ok out =>
        obtain ⟨N, hN, -⟩ := hkept.rows
        have hafter := withinCaps_of_every hc (exists_rowsHold_iff.mp ⟨N, hN⟩) hout
        have hlong := withAttributes_fits hle (hfits.mp hafter)
        rw [ht] at hlong
        exact absurd hlong (by decide)

end Timeless.Spans
