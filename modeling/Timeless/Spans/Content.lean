import Timeless.Engine.Content
import Timeless.Spans.Caps
import Timeless.Spans.Query

/-!
# Content — what a span engine holds

The content of a span engine is its spans, with all their fields. `SpanWritten` is what is known of
a stored block: it was encoded from some spans, its terms and trace ids are theirs, its duration
bounds, if there are any, enclose their durations, and each of its attribute filters has their
scalars. Every configuration keeps this (`spanSignal_honors`), those that fill in duration bounds
included, so it holds of all blocks in every session (`SpanSession.intact`).
-/

namespace Timeless.Spans

open Support Codec Engine
open Blocks (SerdeJson)

/-! ### Index data -/

/-- The terms that a query may ask for. -/
def searchTerms (e : Span) : List Text :=
  ["kind:".toList ++ kindName e.kind, statusTerm e.status, "name:".toList ++ e.name] ++
    if e.service.isEmpty then [] else ["service:".toList ++ e.service]

theorem searchTerms_subset (e : Span) : ∀ t ∈ searchTerms e, t ∈ entryTerms e := by
  intro t ht
  unfold entryTerms
  unfold searchTerms at ht
  rw [List.mem_append] at ht ⊢
  refine ht.imp id fun ht => ?_
  split_ifs at ht ⊢
  · exact ht
  · exact List.mem_cons.mpr (.inl (List.mem_singleton.mp ht))

variable {es : List Span} {s : Session Span (SpanIndex (List BloomRow))}

theorem mem_extractTerms {t : Text} :
    t ∈ extractTerms es ↔ ∃ e ∈ es, t ∈ entryTerms e := by
  rw [extractTerms, mem_sortedKeys, List.mem_flatMap]

theorem mem_extractTraceIds {traceId : FixedBytes 16} :
    traceId ∈ extractTraceIds es ↔ ∃ e ∈ es, e.traceId = traceId := by
  rw [extractTraceIds, List.mem_insertionSort, List.mem_dedup, List.mem_map]

/-- The bounds enclose the durations. -/
def SpanDurationBounds.Encloses (d : SpanDurationBounds) (es : List Span) : Prop :=
  ∀ e ∈ es, d.minNs ≤ e.durationNs ∧ e.durationNs ≤ d.maxNs

theorem foldl_encloses {first x : Int64} {durations : List Int64} (h : x ∈ first :: durations) :
    durations.foldl min first ≤ x ∧ x ≤ durations.foldl max first := by
  have hlo := Blocks.foldl_bound (fun a b => b ≤ a) Int64.le_refl
    (fun _ _ _ hab hbd => Int64.le_trans hbd hab) Blocks.min_le64 durations first
  have hhi := Blocks.foldl_bound (fun a b => a ≤ b) Int64.le_refl
    (fun _ _ _ => Int64.le_trans) Blocks.le_max64 durations first
  rcases List.mem_cons.mp h with rfl | h
  · exact ⟨hlo.1, hhi.1⟩
  · exact ⟨hlo.2 _ h, hhi.2 _ h⟩

theorem spanDurationBounds_encloses {d : SpanDurationBounds} (h : spanDurationBounds es = .ok d) :
    d.Encloses es := by
  intro e he
  have hmem : e.durationNs ∈ es.map SpanEntry.durationNs := List.mem_map_of_mem he
  unfold spanDurationBounds at h
  cases hdurations : es.map SpanEntry.durationNs with
  | nil =>
      rw [hdurations] at h
      cases h
  | cons first durations =>
      rw [hdurations] at h hmem
      dsimp only at h
      split_ifs at h with hle
      obtain rfl := Except.ok.inj h
      exact foldl_encloses hmem

/-- A row of the table of attribute filters as it was written for some spans. -/
structure BloomRow.Sound (js : SerdeJson JsonNumber) (row : BloomRow) (es : List Span) : Prop where
  version : row.hashVersion = spanAttributeBloomVersion
  checksum : row.checksum = spanAttributeBloomChecksum row.bloom.bits
  covers : row.bloom.Over js es

/-! ### Blocks -/

section

variable (c : Compressors) (js : SerdeJson JsonNumber) (P : Span → Prop)

/-- A block that was written from some spans. -/
structure SpanWritten (b : Encoded (SpanIndex (List BloomRow))) (es : List Span) : Prop where
  encoded : ∃ codec level, encodeSpanBlock c es codec level = .ok (b.data, b.blockMeta)
  ok : ∀ e ∈ es, P e
  terms : ∀ e ∈ es, ∀ t ∈ searchTerms e, t ∈ b.extra.terms
  termsOnly : ∀ t ∈ b.extra.terms, ∃ e ∈ es, t ∈ entryTerms e
  traces : ∀ e ∈ es, e.traceId ∈ b.extra.traceIds
  durations : ∀ d ∈ b.extra.durationBounds, d.Encloses es
  blooms : ∀ row ∈ b.extra.attributeBlooms, row.Sound js es

/-- Spans of a kind, with all that they are. -/
def spanReading : Reading Span (SpanIndex (List BloomRow)) Span where
  view := id
  Fit := P
  Ok := P
  Written := SpanWritten c js P

end

variable {c : Compressors} {js : SerdeJson JsonNumber} {P : Span → Prop}
  {b : Encoded (SpanIndex (List BloomRow))}

theorem encodeSpans_written {indexes : List SpanAttributeIndex} {cfg : SpanEngineConfig}
    {codec : UInt8} (hok : ∀ e ∈ es, P e)
    (h : encodeSpans (spanCodec c indexes js) cfg codec es = .ok b) :
    SpanWritten c js P b es := by
  obtain ⟨⟨data, blockMeta⟩, henc, h⟩ := of_bind h
  obtain ⟨rows, hrows, h⟩ := of_bind h
  obtain ⟨d, hd, rfl⟩ := bind_pure_eq_ok.mp h
  obtain ⟨blooms, hblooms, rfl⟩ := bind_pure_eq_ok.mp hrows
  refine ⟨⟨_, _, henc⟩, hok, fun e he t ht => ?_, fun t ht => mem_extractTerms.mp ht,
    fun e he => mem_extractTraceIds.mpr ⟨e, he, rfl⟩, ?_, fun row hrow => ?_⟩
  · exact mem_extractTerms.mpr ⟨e, he, searchTerms_subset e t ht⟩
  · rintro _ ⟨⟩
    exact spanDurationBounds_encloses hd
  · obtain ⟨bloom, hbloom, rfl⟩ := List.mem_map.mp hrow
    exact ⟨rfl, rfl, (buildSpanAttributeBlooms_spec hblooms).2 bloom hbloom⟩

theorem SpanWritten.decode (hc : c.Lossless) {es out : List Span} (h : SpanWritten c js P b es)
    (hout : decodeSpanBlock c b.data = .ok out) :
    out = es := by
  obtain ⟨codec, level, henc⟩ := h.encoded
  obtain ⟨stored, hst⟩ := encodeSpanBlock_ok henc
  exact ((hst.decode_iff hc).mp hout).2

/-- Span engines keep their spans, whichever attributes they index. -/
theorem spanSignal_honors (hc : c.Lossless) (indexes : List SpanAttributeIndex)
    (cfg : SpanEngineConfig) :
    (spanReading c js P).Honors (spanSignal (spanCodec c indexes js) cfg) where
  accept _ _ hfit h := by
    obtain ⟨-, h⟩ := rejectIf_bind_eq_ok.mp h
    obtain ⟨-, h⟩ := rejectIf_bind_eq_ok.mp h
    exact Except.ok.inj h ▸ hfit
  encodeRun _ _ hok h := encodeSpans_written hok h
  encodeGroup _ _ hok h := encodeSpans_written hok h
  decode b es out hb hout := by
    obtain rfl := SpanWritten.decode hc hb hout
    exact ⟨hb.ok, rfl⟩
  purge _ _ _ hkeep := nomatch hkeep
  backfill bf b b' es out fill hbf hb hout hfill hb' := by
    obtain rfl := Option.some.inj hbf
    obtain rfl := SpanWritten.decode hc hb hout
    obtain ⟨d, hd, rfl⟩ := bind_pure_eq_ok.mp hfill
    refine ⟨hb'.encoded, hb'.ok, hb'.terms, hb'.termsOnly, hb'.traces, ?_, hb'.blooms⟩
    rintro _ ⟨⟩
    exact spanDurationBounds_encloses hd

/-! ### Sessions -/

/-- A configuration of a span engine, with any attribute filters. -/
def IsSpans (c : Compressors) (js : SerdeJson JsonNumber)
    (sig : Signal Span (SpanIndex (List BloomRow))) : Prop :=
  ∃ indexes cfg, sig = spanSignal (spanCodec c indexes js) cfg

/-- Pushed spans are of a kind, and the table stays one of spans. -/
def SpanOp (c : Compressors) (js : SerdeJson JsonNumber) (P : Span → Prop) :
    Op Span (SpanIndex (List BloomRow)) → Prop
  | .push e => P e
  | .pushBatch es => ∀ e ∈ es, P e
  | .reopen sig _ => IsSpans c js sig
  | _ => True

/-- The sessions of a span table, over a store that span engines have written. -/
abbrev SpanSession (env : StoreEnv) (c : Compressors) (js : SerdeJson JsonNumber)
    (P : Span → Prop) : Session Span (SpanIndex (List BloomRow)) → Prop :=
  Reachable env (fun sig store => IsSpans c js sig ∧
    ∀ r ∈ store.rows, ∃ es, SpanWritten c js P r.toEncoded es) (SpanOp c js P)

theorem IsSpans.honors (hc : c.Lossless) {sig : Signal Span (SpanIndex (List BloomRow))}
    (h : IsSpans c js sig) : (spanReading c js P).Honors sig := by
  obtain ⟨indexes, cfg, rfl⟩ := h
  exact spanSignal_honors hc indexes cfg

theorem SpanOp.fits {V : Type} {m : Reading Span (SpanIndex (List BloomRow)) V}
    (hm : ∀ sig, IsSpans c js sig → m.Honors sig) {op : Op Span (SpanIndex (List BloomRow))}
    (hop : SpanOp c js m.Fit op) : op.Fits m := by
  cases op with
  | reopen sig interval => exact hm sig hop
  | push e => exact hop
  | pushBatch es => exact hop
  | _ => trivial

/-- All blocks of a session were written from spans. -/
theorem SpanSession.intact (hc : c.Lossless) {env : StoreEnv} (h : SpanSession env c js P s) :
    Intact (spanReading c js P) s :=
  (h.mono (fun _ _ hstart => ⟨hstart.1.honors hc, hstart.2⟩)
    fun _ hop => SpanOp.fits (fun _ => IsSpans.honors hc) hop).intact

theorem SpanSession.isSpans (hc : c.Lossless) {env : StoreEnv} (h : SpanSession env c js P s) :
    IsSpans c js s.sig := by
  have hhonors : ∀ sig, IsSpans c js sig → (spanReading c js P).Honors sig :=
    fun _ => IsSpans.honors hc
  exact (Reachable.holds (carries_inductive hhonors fun _ hop => SpanOp.fits hhonors hop)
    (fun _ _ hop => hop) (fun _ _ interval hstart => ⟨hstart.1, create_carries interval hstart.2⟩)
    h).kind

end Timeless.Spans
