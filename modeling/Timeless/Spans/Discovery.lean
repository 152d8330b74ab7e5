import Timeless.Spans.Maintenance
import Timeless.Support.Decimal

/-!
# Discovery — the services and operations of a trace table

The services of a table, and the operations of a service, are read off the terms of its blocks and
its buffer. A block that was written before there were terms for operations lacks a marker; if a
block of the service does, the operations are read from the spans. Terms are cut by SQL text
functions, which see nothing behind a NUL.

* `mem_queryTermValues`: what the catalog has for a beginning of terms;
* `mem_serviceValues`, `mem_operationValues`: no other term looks like one of a service or of its
  operations;
* `discovery_iff`: discovery is exact if all spans have a service and no text that is read off a
  term has a NUL. If nothing is buffered, it is exact only then.
-/

namespace Timeless.Spans

open Support Codec Engine
open Blocks (SerdeJson)

/-! ### Text functions -/

/-- The characters that SQL text functions see. -/
def sqlChars (t : Text) : Text :=
  t.takeWhile fun ch => ch ≠ '\x00'

def sqlLength (t : Text) : Nat :=
  (sqlChars t).length

/-- The text from a position on; positions count from one. -/
def substr (t : Text) (start : Nat) : Text :=
  (sqlChars t).drop (start - 1)

def substrLen (t : Text) (start length : Nat) : Text :=
  (substr t start).take length

/-! ### Discovery -/

def operationPrefix (service : Text) : Text :=
  "operation:".toList ++ decimal (utf8 service).length ++ ":".toList ++ service

/-- What follows a beginning in the terms of all blocks. -/
def queryTermValues (rows : List SpanRow) (lead : Text) : Option (List Text) :=
  let found := (rows.flatMap fun r => r.extra.terms).filter fun term =>
    substrLen term 1 (sqlLength lead) = lead
  some (sortedKeys (found.map fun term => substr term (sqlLength lead + 1)))

/-- The store's `query_terms` over all times. -/
def storeQueryTerms (rows : List SpanRow) (terms : List Text) : List SpanRow :=
  queryTermsWithDurationBounds rows terms Int64.minValue Int64.maxValue Int64.minValue
    Int64.maxValue

section Discovery

variable (c : Compressors) (js : SerdeJson JsonNumber) (indexes : List SpanAttributeIndex)
  (e : BlockEngine Span (SpanIndex (List BloomRow)))

/-- All spans of a streamed query. -/
def queryStream {js : SerdeJson JsonNumber} (q : SpanQuery js) (durationMin durationMax : Int64)
    (projection : SpanColumnMask) : Except String (List Span) := do
  validateQuery indexes q
  let blocks ← queryLocations e.store.rows q durationMin durationMax
  let buffered ← selectM (entryMatches q durationMin durationMax) e.buffer
  let found ← blocks.mapM fun r => decodeSpanBlockProjected c r.data
    (queryPredicateMask q durationMin durationMax) projection
    (predicateRowMatches q durationMin durationMax)
  return found.flatten ++ buffered

def discoverServices : Except String (List Text) := do
  let buffered := (e.buffer.map SpanEntry.service).filter fun service => !service.isEmpty
  let values ← match queryTermValues e.store.rows "service:".toList with
    | some values => .ok values
    | none => do
        let spans ← queryStream c indexes e (everyQuery js) Int64.minValue Int64.maxValue .service
        pure ((spans.map SpanEntry.service).filter fun service => !service.isEmpty)
  return sortedKeys (values ++ buffered)

def discoverOperations (service : Text) : Except String (List Text) := do
  let serviceTerm := "service:".toList ++ service
  let candidates := storeQueryTerms e.store.rows [serviceTerm]
  let marked := storeQueryTerms e.store.rows [serviceTerm, "operations:".toList]
  let buffered := (e.buffer.filter fun x => x.service = service).map SpanEntry.name
  let allMarked := decide (candidates.length = marked.length)
  let values ← match allMarked, queryTermValues e.store.rows (operationPrefix service) with
    | true, some values => .ok values
    | _, _ => do
        let spans ← queryStream c indexes e { everyQuery js with service := some service }
          Int64.minValue Int64.maxValue .all
        pure (spans.map SpanEntry.name)
  return sortedKeys (values ++ buffered)

end Discovery

/-! ### Beginnings of terms -/

section Terms

variable {t v rest service : Text} {x : Span}

theorem sqlChars_append {u : Text} (ht : '\x00' ∉ t) : sqlChars (t ++ u) = t ++ sqlChars u :=
  List.takeWhile_append_of_pos fun ch hch => by
    simpa using fun heq : ch = '\x00' => ht (heq ▸ hch)

theorem sqlChars_eq (ht : '\x00' ∉ t) : sqlChars t = t := by
  simpa [sqlChars] using sqlChars_append (u := []) ht

theorem nul_not_mem_sqlChars (t : Text) : '\x00' ∉ sqlChars t := fun h => by
  simpa using List.mem_takeWhile_imp h

/-- A term is found by its beginning unless there is a NUL in it. -/
theorem substrLen_eq_iff {term lead : Text} :
    substrLen term 1 (sqlLength lead) = lead ↔ '\x00' ∉ lead ∧ lead <+: term := by
  constructor
  · intro h
    have hlead : lead <+: sqlChars term := h ▸ List.take_prefix _ _
    exact ⟨fun hnul => nul_not_mem_sqlChars term (hlead.subset hnul),
      hlead.trans (List.takeWhile_prefix _)⟩
  · rintro ⟨hnul, rest, rfl⟩
    rw [substrLen, substr, sqlLength, sqlChars_eq hnul, sqlChars_append hnul]
    exact List.take_left

/-- The values listed under a lead are those of some block's terms. -/
theorem mem_queryTermValues {rows : List SpanRow} {lead : Text} :
    (∃ values, queryTermValues rows lead = some values ∧ v ∈ values) ↔
      '\x00' ∉ lead ∧ ∃ r ∈ rows, ∃ rest, lead ++ rest ∈ r.extra.terms ∧ v = sqlChars rest := by
  simp only [queryTermValues, Option.some.injEq, exists_eq_left', mem_sortedKeys, List.mem_map,
    List.mem_filter, List.mem_flatMap, decide_eq_true_eq, substrLen_eq_iff]
  constructor
  · rintro ⟨term, ⟨⟨r, hr, hterm⟩, hnul, rest, rfl⟩, rfl⟩
    refine ⟨hnul, r, hr, rest, hterm, ?_⟩
    rw [substr, sqlLength, sqlChars_eq hnul, sqlChars_append hnul, Nat.add_sub_cancel]
    exact List.drop_left
  · rintro ⟨hnul, r, hr, rest, hterm, rfl⟩
    refine ⟨lead ++ rest, ⟨⟨r, hr, hterm⟩, hnul, List.prefix_append _ _⟩, ?_⟩
    rw [substr, sqlLength, sqlChars_eq hnul, sqlChars_append hnul, Nat.add_sub_cancel]
    exact List.drop_left

theorem ne_of_getElem? {u : Text} (i : Nat) {a b : Char} (ht : t[i]? = some a) (hu : u[i]? = some b)
    (hne : a ≠ b) : t ≠ u := fun heq =>
  hne (Option.some.inj (ht.symm.trans (heq ▸ hu)))

/-- Only a service leaves a term that begins as one. -/
theorem service_mem_entryTerms :
    "service:".toList ++ rest ∈ entryTerms x ↔ x.service = rest ∧ x.service ≠ [] := by
  have hkind : "service:".toList ++ rest ≠ "kind:".toList ++ kindName x.kind :=
    ne_of_getElem? 0 rfl rfl (by decide)
  have hstatus : "service:".toList ++ rest ≠ statusTerm x.status :=
    ne_of_getElem? 1 rfl rfl (by decide)
  have hname : "service:".toList ++ rest ≠ "name:".toList ++ x.name :=
    ne_of_getElem? 0 rfl rfl (by decide)
  have hmarker : "service:".toList ++ rest ≠ "operations:".toList :=
    ne_of_getElem? 0 rfl rfl (by decide)
  have hoperation : "service:".toList ++ rest ≠ operationTerm x.service x.name :=
    ne_of_getElem? 0 rfl rfl (by decide)
  rw [entryTerms, List.mem_append]
  split_ifs with hempty
  · simp only [List.mem_cons, List.not_mem_nil, hkind, hstatus, hname, List.isEmpty_iff.mp hempty,
      ne_eq, not_true_eq_false, and_false, or_false]
  · simp only [List.mem_cons, List.not_mem_nil, hkind, hstatus, hname, hmarker, hoperation,
      List.append_cancel_left_eq, ne_eq, mt List.isEmpty_iff.mpr hempty, not_false_eq_true, and_true,
      or_false, false_or, eq_comm]

/-- The length in front of the service tells where it ends. -/
theorem operationPrefix_append_eq {service' name : Text} :
    operationPrefix service ++ rest = operationTerm service' name ↔
      service' = service ∧ name = rest := by
  constructor
  · intro h
    unfold operationPrefix operationTerm at h
    simp only [List.append_assoc, List.append_cancel_left_eq] at h
    obtain ⟨hlength, htexts⟩ := @decimal_append_inj _ _ ':' (by decide) _ _ h
    have hbytes : utf8 (service ++ rest) = utf8 (service' ++ name) := congrArg utf8 htexts
    rw [utf8_append, utf8_append] at hbytes
    obtain ⟨hservice, hname⟩ := List.append_inj hbytes hlength
    exact ⟨(utf8_injective hservice).symm, (utf8_injective hname).symm⟩
  · rintro ⟨rfl, rfl⟩
    unfold operationPrefix operationTerm
    with_reducible rfl

theorem operation_mem_entryTerms :
    operationPrefix service ++ rest ∈ entryTerms x ↔
      x.service = service ∧ x.service ≠ [] ∧ x.name = rest := by
  have hkind : operationPrefix service ++ rest ≠ "kind:".toList ++ kindName x.kind :=
    ne_of_getElem? 0 rfl rfl (by decide)
  have hstatus : operationPrefix service ++ rest ≠ statusTerm x.status :=
    ne_of_getElem? 0 rfl rfl (by decide)
  have hname : operationPrefix service ++ rest ≠ "name:".toList ++ x.name :=
    ne_of_getElem? 0 rfl rfl (by decide)
  have hservice : operationPrefix service ++ rest ≠ "service:".toList ++ x.service :=
    ne_of_getElem? 0 rfl rfl (by decide)
  have hmarker : operationPrefix service ++ rest ≠ "operations:".toList :=
    ne_of_getElem? 9 rfl rfl (by decide)
  rw [entryTerms, List.mem_append]
  split_ifs with hempty
  · simp only [List.mem_cons, List.not_mem_nil, hkind, hstatus, hname, List.isEmpty_iff.mp hempty,
      ne_eq, not_true_eq_false, false_and, and_false, or_false]
  · simp only [List.mem_cons, List.not_mem_nil, hkind, hstatus, hname, hservice, hmarker,
      operationPrefix_append_eq, ne_eq, mt List.isEmpty_iff.mpr hempty, not_false_eq_true, true_and,
      or_false, false_or]

theorem nul_mem_operationPrefix :
    '\x00' ∈ operationPrefix service ↔ '\x00' ∈ service := by
  have hdigits : '\x00' ∉ decimal (utf8 service).length := decimal_not_mem (by decide)
  have hlead : '\x00' ∉ "operation:".toList := by decide
  have hcolon : '\x00' ∉ ":".toList := by decide
  unfold operationPrefix
  rw [List.mem_append, List.mem_append, List.mem_append, or_iff_right hlead, or_iff_right hdigits,
    or_iff_right hcolon]

end Terms

/-! ### Streams -/

/-- An ordered query sorts what a stream gives. -/
theorem queryOrdered_eq_stream (c : Compressors) {js : SerdeJson JsonNumber}
    (indexes : List SpanAttributeIndex) (e : BlockEngine Span (SpanIndex (List BloomRow)))
    (q : SpanQuery js) (durationMin durationMax : Int64) (order : SpanQueryOrder) :
    queryOrderedWithDuration c indexes e q durationMin durationMax order =
      (queryStream c indexes e q durationMin durationMax .all).map
        fun spans => spans.insertionSort (SpanLe order) := by
  have hmask : SpanColumnMask.all ||| .startTs ||| .spanId = SpanColumnMask.all := by decide
  simp only [queryOrderedWithDuration, queryStream, blockMatches, hmask]
  cases validateQuery indexes q with
  | error err => rfl
  | ok _ =>
      rw [ok_bind, ok_bind]
      cases queryLocations e.store.rows q durationMin durationMax with
      | error err => rfl
      | ok blocks =>
          rw [ok_bind, ok_bind]
          cases selectM (entryMatches q durationMin durationMax) e.buffer with
          | error err => rfl
          | ok buffered =>
              rw [ok_bind, ok_bind]
              cases blocks.mapM fun r => decodeSpanBlockProjected c r.data
                (queryPredicateMask q durationMin durationMax) .all
                (predicateRowMatches q durationMin durationMax) with
              | error err => rfl
              | ok found => rfl

/-! ### Blocks with a marker -/

/-- A block with the marker has all terms of its spans. -/
def Catalogued (b : Encoded (SpanIndex (List BloomRow))) (es : List Span) : Prop :=
  "operations:".toList ∈ b.extra.terms → ∀ x ∈ es, ∀ t ∈ entryTerms x, t ∈ b.extra.terms

section

variable (c : Compressors) (js : SerdeJson JsonNumber)

/-- A block that was written, with or without the terms of operations. -/
def DiscoveryWritten (b : Encoded (SpanIndex (List BloomRow))) (es : List Span) : Prop :=
  SpanWritten c js (fun _ => True) b es ∧ Catalogued b es

def discoveryReading : Reading Span (SpanIndex (List BloomRow)) Span :=
  { spanReading c js (fun _ => True) with Written := DiscoveryWritten c js }

/-- The sessions of a span table over a store that may have blocks without operations. -/
abbrev DiscoverySession (env : StoreEnv) : Session Span (SpanIndex (List BloomRow)) → Prop :=
  Reachable env (fun sig store => IsSpans c js sig ∧
    ∀ r ∈ store.rows, ∃ es, DiscoveryWritten c js r.toEncoded es) (SpanOp c js fun _ => True)

end

variable {c : Compressors} {js : SerdeJson JsonNumber} {env : StoreEnv}
  {b : Encoded (SpanIndex (List BloomRow))}

theorem SpanWritten.service_mem {P : Span → Prop} {es : List Span} (h : SpanWritten c js P b es)
    (hx : x ∈ es) (hsome : x.service ≠ []) :
    "service:".toList ++ x.service ∈ b.extra.terms := by
  refine h.terms x hx _ (List.mem_append_right _ ?_)
  rw [if_neg (mt List.isEmpty_iff.mp hsome)]
  exact List.mem_singleton.mpr rfl

variable {indexes : List SpanAttributeIndex}
  {e e' : BlockEngine Span (SpanIndex (List BloomRow))} {s : Session Span (SpanIndex (List BloomRow))}

theorem encodeSpans_catalogued {cfg : SpanEngineConfig} {codec : UInt8} {es : List Span}
    (h : encodeSpans (spanCodec c indexes js) cfg codec es = .ok b) : Catalogued b es := by
  obtain ⟨⟨data, blockMeta⟩, henc, h⟩ := of_bind h
  obtain ⟨rows, hrows, h⟩ := of_bind h
  obtain ⟨d, hd, rfl⟩ := bind_pure_eq_ok.mp h
  exact fun _ x hx t ht => mem_extractTerms.mpr ⟨x, hx, ht⟩

/-- Blocks keep their catalog, and new ones have it. -/
theorem discoveryReading_honors (hc : c.Lossless) (indexes : List SpanAttributeIndex)
    (cfg : SpanEngineConfig) :
    (discoveryReading c js).Honors (spanSignal (spanCodec c indexes js) cfg) := by
  have hspans := @spanSignal_honors _ js (fun _ => True) hc indexes cfg
  exact {
    accept := hspans.accept
    encodeRun := fun es b hok h => ⟨hspans.encodeRun es b hok h, encodeSpans_catalogued h⟩
    encodeGroup := fun es b hok h => ⟨hspans.encodeGroup es b hok h, encodeSpans_catalogued h⟩
    decode := fun b es out hb hout => hspans.decode b es out hb.1 hout
    purge := fun keep b es hkeep => nomatch hkeep
    backfill := fun bf b b' es out fill hbf hb hout hfill hb' => by
      refine ⟨hspans.backfill bf b b' es out fill hbf hb.1 hout hfill hb'.1, ?_⟩
      obtain rfl := Option.some.inj hbf
      obtain ⟨d, -, rfl⟩ := bind_pure_eq_ok.mp hfill
      exact hb'.2 }

theorem DiscoverySession.intact (hc : c.Lossless) (h : DiscoverySession c js env s) :
    Intact (discoveryReading c js) s := by
  have hhonors : ∀ sig, IsSpans c js sig → (discoveryReading c js).Honors sig := by
    rintro sig ⟨indexes, cfg, rfl⟩
    exact discoveryReading_honors hc indexes cfg
  exact (h.mono (fun sig store hstart => ⟨hhonors sig hstart.1, hstart.2⟩)
    fun op hop => SpanOp.fits hhonors hop).intact

theorem DiscoverySession.spans (h : DiscoverySession c js env s) :
    SpanSession env c js (fun _ => True) s :=
  h.mono (fun _ _ hstart => ⟨hstart.1, fun r hr => (hstart.2 r hr).imp fun _ hes => hes.1⟩)
    fun _ hop => hop

/-! ### What the catalog says -/

/-- The spans of the stored blocks. -/
def storedSpans (c : Compressors) (e : BlockEngine Span (SpanIndex (List BloomRow))) : List Span :=
  e.store.rows.flatMap fun r => spansOf c r.data

/-- All blocks with a service have the marker. -/
def AllMarked (rows : List SpanRow) (service : Text) : Prop :=
  ∀ r ∈ rows, "service:".toList ++ service ∈ r.extra.terms → "operations:".toList ∈ r.extra.terms

theorem allMarked_iff (rows : List SpanRow) (service : Text) :
    (storeQueryTerms rows ["service:".toList ++ service]).length =
      (storeQueryTerms rows ["service:".toList ++ service, "operations:".toList]).length ↔
    AllMarked rows service := by
  have hbounds (r : SpanRow) : inBounds Int64.minValue Int64.maxValue Int64.minValue Int64.maxValue r =
      true := by
    simp [inBounds, Int64.minValue_le, Int64.le_maxValue]
  have hboth : (rows.filter fun r => ["service:".toList ++ service, "operations:".toList].all
        fun t => r.extra.terms.contains t) =
      (rows.filter fun r => ["service:".toList ++ service].all
        fun t => r.extra.terms.contains t).filter
          fun r => r.extra.terms.contains "operations:".toList := by
    rw [List.filter_filter]
    exact List.filter_congr fun r _ => by
      simp only [List.all_cons, List.all_nil, Bool.and_true]
      exact Bool.and_comm _ _
  simp only [storeQueryTerms, queryTermsWithDurationBounds, List.length_insertionSort, hbounds,
    Bool.true_and]
  rw [hboth, eq_comm, List.length_filter_eq_length_iff, AllMarked]
  simp only [List.mem_filter, List.all_cons, List.all_nil, Bool.and_true, List.contains_iff_mem,
    and_imp]

section Catalog

variable {e : BlockEngine Span (SpanIndex (List BloomRow))} (hc : c.Lossless)
  (hrows : ∀ r ∈ e.store.rows, ∃ es, DiscoveryWritten c js r.toEncoded es)
  (hcaps : ∀ r ∈ e.store.rows, WithinCaps c r.toEncoded)

include hc hrows hcaps

theorem written_spansOf {r : SpanRow} (hr : r ∈ e.store.rows) :
    DiscoveryWritten c js r.toEncoded (spansOf c r.data) := by
  obtain ⟨es, hes⟩ := hrows r hr
  rw [(hes.1.decodes hc (hcaps r hr)).2]
  exact hes

/-- The services listed are those of stored spans. -/
theorem mem_serviceValues :
    (∃ values, queryTermValues e.store.rows "service:".toList = some values ∧ v ∈ values) ↔
      ∃ x ∈ storedSpans c e, x.service ≠ [] ∧ v = sqlChars x.service := by
  rw [mem_queryTermValues, and_iff_right (by decide)]
  constructor
  · rintro ⟨r, hr, rest, hterm, rfl⟩
    obtain ⟨x, hx, hxterm⟩ := (written_spansOf hc hrows hcaps hr).1.termsOnly _ hterm
    obtain ⟨rfl, hsome⟩ := service_mem_entryTerms.mp hxterm
    exact ⟨x, List.mem_flatMap.mpr ⟨r, hr, hx⟩, hsome, rfl⟩
  · rintro ⟨x, hx, hsome, rfl⟩
    obtain ⟨r, hr, hx⟩ := List.mem_flatMap.mp hx
    exact ⟨r, hr, x.service, (written_spansOf hc hrows hcaps hr).1.service_mem hx hsome, rfl⟩

/-- If the blocks of a service are marked, the catalog has all its operations. -/
theorem mem_operationValues (hmarked : AllMarked e.store.rows service) :
    (∃ values, queryTermValues e.store.rows (operationPrefix service) = some values ∧ v ∈ values) ↔
      ('\x00' ∉ service ∧ service ≠ []) ∧
        ∃ x ∈ storedSpans c e, x.service = service ∧ v = sqlChars x.name := by
  rw [mem_queryTermValues, nul_mem_operationPrefix, and_assoc]
  refine and_congr_right fun _ => ?_
  constructor
  · rintro ⟨r, hr, rest, hterm, rfl⟩
    obtain ⟨x, hx, hxterm⟩ := (written_spansOf hc hrows hcaps hr).1.termsOnly _ hterm
    obtain ⟨rfl, hsome, rfl⟩ := operation_mem_entryTerms.mp hxterm
    exact ⟨hsome, x, List.mem_flatMap.mpr ⟨r, hr, hx⟩, rfl, rfl⟩
  · rintro ⟨hsome, x, hx, rfl, rfl⟩
    obtain ⟨r, hr, hx⟩ := List.mem_flatMap.mp hx
    have hw := written_spansOf hc hrows hcaps hr
    exact ⟨r, hr, x.name, hw.2 (hmarked r hr (hw.1.service_mem hx hsome)) x hx _
      (operation_mem_entryTerms.mpr ⟨rfl, hsome, rfl⟩), rfl⟩

/-- Otherwise the operations are read from the spans. -/
theorem queryStream_operations (indexes : List SpanAttributeIndex)
    (hmarked : ¬AllMarked e.store.rows service) :
    ∃ spans, queryStream c indexes e { everyQuery js with service := some service } Int64.minValue
        Int64.maxValue .all = .ok spans ∧
      ∀ v, v ∈ spans.map SpanEntry.name ↔ ∃ x ∈ allSpans c e, x.service = service ∧ v = x.name := by
  -- a block with the service has a span with it, which is then not empty
  have hsome : service ≠ [] := by
    rintro rfl
    refine hmarked fun r hr hterm => ?_
    obtain ⟨x, -, hx⟩ := (written_spansOf hc hrows hcaps hr).1.termsOnly _ hterm
    exact absurd (service_mem_entryTerms.mp hx).1 (service_mem_entryTerms.mp hx).2
  let q : SpanQuery js := { everyQuery js with service := some service }
  have hvalid : validateQuery indexes q = .ok () :=
    (validateQuery_ok_iff indexes rfl).mpr ⟨nofun, nofun⟩
  have hsure : q.Sure := ⟨fun _ h => hsome (Option.some.inj h), nofun⟩
  obtain ⟨out, hout, hperm⟩ := query_perm hc (fun r hr => (hrows r hr).imp fun _ hes => hes.1)
    (fun _ _ => trivial) hcaps hvalid (fun _ _ => nofun) hsure Int64.minValue Int64.maxValue .asc
  rw [queryOrdered_eq_stream] at hout
  obtain ⟨spans, hspans, rfl⟩ := map_eq_ok.mp hout
  refine ⟨spans, hspans, fun v => ?_⟩
  have hmem (x : Span) : x ∈ spans ↔ x ∈ allSpans c e ∧ x.service = service := by
    rw [← (List.perm_insertionSort (SpanLe .asc) spans).mem_iff, hperm.mem_iff, List.mem_filter,
      spanMatches_iff]
    refine and_congr_right fun _ => ?_
    simp [q, everyQuery, Int64.minValue_le, Int64.le_maxValue]
  simp only [List.mem_map, hmem, and_assoc, eq_comm]

/-- What is listed of a service: read off the terms or from the spans. -/
theorem discoverOperations_eq (indexes : List SpanAttributeIndex) (service : Text) :
    ∃ values, discoverOperations c js indexes e service = .ok (sortedKeys (values ++
        (e.buffer.filter fun x => x.service = service).map SpanEntry.name)) ∧
      ∀ v, v ∈ values ↔
        (AllMarked e.store.rows service ∧ ('\x00' ∉ service ∧ service ≠ []) ∧
          ∃ x ∈ storedSpans c e, x.service = service ∧ v = sqlChars x.name) ∨
        ¬AllMarked e.store.rows service ∧ ∃ x ∈ allSpans c e, x.service = service ∧ v = x.name := by
  by_cases hmarked : AllMarked e.store.rows service
  · obtain ⟨values, hvalues⟩ : ∃ values,
        queryTermValues e.store.rows (operationPrefix service) = some values := ⟨_, rfl⟩
    refine ⟨values, ?_, fun v => ?_⟩
    · rw [discoverOperations, hvalues, decide_eq_true ((allMarked_iff _ _).mpr hmarked)]
      rfl
    · have hmem := mem_operationValues hc hrows hcaps (v := v) hmarked
      simp only [hvalues, Option.some.injEq, exists_eq_left'] at hmem
      simp only [hmem, hmarked, true_and, not_true_eq_false, false_and, or_false]
  · obtain ⟨spans, hspans, hmem⟩ := queryStream_operations hc hrows hcaps indexes hmarked
    refine ⟨spans.map SpanEntry.name, ?_, fun v => ?_⟩
    · rw [discoverOperations, decide_eq_false (mt (allMarked_iff _ _).mp hmarked), hspans]
      rfl
    · simp only [hmem, hmarked, false_and, not_false_eq_true, true_and, false_or]

theorem discoverServices_eq (indexes : List SpanAttributeIndex) :
    ∃ values, discoverServices c js indexes e = .ok (sortedKeys (values ++
        (e.buffer.map SpanEntry.service).filter fun service => !service.isEmpty)) ∧
      ∀ v, v ∈ values ↔ ∃ x ∈ storedSpans c e, x.service ≠ [] ∧ v = sqlChars x.service := by
  obtain ⟨values, hvalues⟩ : ∃ values,
      queryTermValues e.store.rows "service:".toList = some values := ⟨_, rfl⟩
  refine ⟨values, ?_, fun v => ?_⟩
  · rw [discoverServices, hvalues]
    rfl
  · have hmem := mem_serviceValues hc hrows hcaps (v := v)
    simpa only [hvalues, Option.some.injEq, exists_eq_left'] using hmem

end Catalog

/-! ### Exactness -/

/-- Discovery gives the services of the spans that are held, and the names of those of each
service. -/
structure Discovers (c : Compressors) (js : SerdeJson JsonNumber) (indexes : List SpanAttributeIndex)
    (e : BlockEngine Span (SpanIndex (List BloomRow))) : Prop where
  services : discoverServices c js indexes e =
    .ok (sortedKeys ((allSpans c e).map SpanEntry.service))
  operations : ∀ service, discoverOperations c js indexes e service =
    .ok (sortedKeys (((allSpans c e).filter fun x => x.service = service).map SpanEntry.name))

/-- Terms say all there is to know of a span: it has a service, and there is no NUL in it, nor in
its name unless that is read from the span itself. -/
structure Listed (rows : List SpanRow) (x : Span) : Prop where
  some : x.service ≠ []
  service : '\x00' ∉ x.service
  name : '\x00' ∈ x.name → ¬AllMarked rows x.service

section Exact

variable {e : BlockEngine Span (SpanIndex (List BloomRow))} (hc : c.Lossless)
  (hrows : ∀ r ∈ e.store.rows, ∃ es, DiscoveryWritten c js r.toEncoded es)
  (hcaps : ∀ r ∈ e.store.rows, WithinCaps c r.toEncoded)

include hc hrows hcaps

theorem discovers_of_listed (indexes : List SpanAttributeIndex)
    (hstored : ∀ x ∈ storedSpans c e, Listed e.store.rows x)
    (hbuffer : ∀ x ∈ e.buffer, x.service ≠ []) : Discovers c js indexes e := by
  constructor
  · obtain ⟨values, heq, hmem⟩ := discoverServices_eq hc hrows hcaps indexes
    rw [heq]
    refine congrArg Except.ok (Blocks.sortedKeys_congr fun v => ?_)
    simp only [List.mem_append, hmem, List.mem_filter, List.mem_map, allSpans]
    constructor
    · rintro (⟨x, hx, -, rfl⟩ | ⟨⟨x, hx, rfl⟩, -⟩)
      · exact ⟨x, .inl hx, (sqlChars_eq (hstored x hx).service).symm⟩
      · exact ⟨x, .inr hx, rfl⟩
    · rintro ⟨x, hx | hx, rfl⟩
      · exact .inl ⟨x, hx, (hstored x hx).some, (sqlChars_eq (hstored x hx).service).symm⟩
      · refine .inr ⟨⟨x, hx, rfl⟩, ?_⟩
        rw [Bool.not_eq_true', List.isEmpty_eq_false_iff]
        exact hbuffer x hx
  · intro service
    obtain ⟨values, heq, hmem⟩ := discoverOperations_eq hc hrows hcaps indexes service
    rw [heq]
    refine congrArg Except.ok (Blocks.sortedKeys_congr fun v => ?_)
    simp only [List.mem_append, hmem, List.mem_filter, List.mem_map, allSpans, decide_eq_true_eq]
    constructor
    · rintro ((⟨hmarked, -, x, hx, rfl, rfl⟩ | ⟨-, x, hx, rfl, rfl⟩) | ⟨x, ⟨hx, rfl⟩, rfl⟩)
      · have hname : '\x00' ∉ x.name := fun hnul => (hstored x hx).name hnul hmarked
        exact ⟨x, ⟨.inl hx, rfl⟩, (sqlChars_eq hname).symm⟩
      · exact ⟨x, ⟨hx, rfl⟩, rfl⟩
      · exact ⟨x, ⟨.inr hx, rfl⟩, rfl⟩
    · rintro ⟨x, ⟨hx | hx, rfl⟩, rfl⟩
      · by_cases hmarked : AllMarked e.store.rows x.service
        · have hname : '\x00' ∉ x.name := fun hnul => (hstored x hx).name hnul hmarked
          exact .inl (.inl ⟨hmarked, ⟨(hstored x hx).service, (hstored x hx).some⟩, x, hx, rfl,
            (sqlChars_eq hname).symm⟩)
        · exact .inl (.inr ⟨hmarked, x, .inl hx, rfl, rfl⟩)
      · exact .inr ⟨x, ⟨hx, rfl⟩, rfl⟩

/-- If nothing is buffered, what is listed is what the terms say. -/
theorem listed_of_discovers (h : Discovers c js indexes e) (hbuffer : e.buffer = []) :
    ∀ x ∈ storedSpans c e, Listed e.store.rows x := by
  have hall : allSpans c e = storedSpans c e := by rw [allSpans, hbuffer, List.append_nil, storedSpans]
  obtain ⟨values, heq, hmem⟩ := discoverServices_eq hc hrows hcaps indexes
  have hservice : ∀ x ∈ storedSpans c e, ∃ y ∈ storedSpans c e, y.service ≠ [] ∧
      x.service = sqlChars y.service := by
    intro x hx
    have hvalues : sortedKeys values = sortedKeys ((storedSpans c e).map SpanEntry.service) := by
      rw [h.services, hall, hbuffer] at heq
      simpa using (Except.ok.inj heq).symm
    rw [← hmem, ← mem_sortedKeys, hvalues, mem_sortedKeys]
    exact List.mem_map_of_mem hx
  have hplain : ∀ x ∈ storedSpans c e, '\x00' ∉ x.service := by
    intro x hx
    obtain ⟨y, -, -, hy⟩ := hservice x hx
    rw [hy]
    exact nul_not_mem_sqlChars _
  intro x hx
  have hsome : x.service ≠ [] := by
    obtain ⟨y, hy, hsome, heq⟩ := hservice x hx
    rwa [heq, sqlChars_eq (hplain y hy)]
  refine ⟨hsome, hplain x hx, fun hnul hmarked => ?_⟩
  -- the name is read off a term, where it is cut
  obtain ⟨values, heq, hmem⟩ := discoverOperations_eq hc hrows hcaps indexes x.service
  have hvalues : sortedKeys values =
      sortedKeys (((storedSpans c e).filter fun y => y.service = x.service).map SpanEntry.name) := by
    rw [h.operations, hall, hbuffer] at heq
    simpa using (Except.ok.inj heq).symm
  have hlisted : x.name ∈ values := by
    rw [← mem_sortedKeys, hvalues, mem_sortedKeys]
    exact List.mem_map_of_mem (List.mem_filter.mpr ⟨hx, decide_eq_true rfl⟩)
  rcases (hmem _).mp hlisted with ⟨-, -, y, -, -, hy⟩ | ⟨hnot, -⟩
  · rw [hy] at hnul
    exact nul_not_mem_sqlChars _ hnul
  · exact hnot hmarked

end Exact

/-! ### Sessions -/

/-- A span whose terms say all there is to know of it. -/
def Plain (x : Span) : Prop :=
  x.service ≠ [] ∧ '\x00' ∉ x.service ∧ '\x00' ∉ x.name

/-- Two states in which discovery gives the same. -/
def SameDiscovery (c : Compressors) (js : SerdeJson JsonNumber) (indexes : List SpanAttributeIndex)
    (e e' : BlockEngine Span (SpanIndex (List BloomRow))) : Prop :=
  discoverServices c js indexes e = discoverServices c js indexes e' ∧
    ∀ service, discoverOperations c js indexes e service = discoverOperations c js indexes e' service

theorem sameDiscovery_of_eq (hrows : e.store.rows = e'.store.rows) (hbuffer : e.buffer = e'.buffer) :
    SameDiscovery c js indexes e e' := by
  simp only [SameDiscovery, discoverServices, discoverOperations, queryStream, hrows, hbuffer,
    implies_true, and_self]

section Sessions

variable {s : Session Span (SpanIndex (List BloomRow))}

theorem DiscoverySession.written (hc : c.Lossless) (hs : DiscoverySession c js env s) :
    ∀ r ∈ s.engine.store.rows, ∃ es, DiscoveryWritten c js r.toEncoded es := by
  obtain ⟨N, hN, -⟩ := (hs.intact hc).engine.rows
  exact exists_rowsHold_iff.mp ⟨N, hN⟩

theorem discovers_of_plain (hc : c.Lossless) {e : BlockEngine Span (SpanIndex (List BloomRow))}
    (hrows : ∀ r ∈ e.store.rows, ∃ es, DiscoveryWritten c js r.toEncoded es)
    (hcaps : ∀ r ∈ e.store.rows, WithinCaps c r.toEncoded) (indexes : List SpanAttributeIndex)
    (hplain : ∀ x ∈ allSpans c e, Plain x) : Discovers c js indexes e := by
  refine discovers_of_listed hc hrows hcaps indexes (fun x hx => ?_) fun x hx => ?_
  · obtain ⟨hsome, hservice, hname⟩ := hplain x (List.mem_append_left _ hx)
    exact ⟨hsome, hservice, fun hnul => absurd hnul hname⟩
  · exact (hplain x (List.mem_append_right _ hx)).1

/-- Discovery depends on the spans that are held only. -/
theorem Discovers.same (h : Discovers c js indexes e) (h' : Discovers c js indexes e')
    (hspans : (allSpans c e).Perm (allSpans c e')) :
    SameDiscovery c js indexes e e' := by
  refine ⟨?_, fun service => ?_⟩
  · rw [h.services, h'.services, Blocks.sortedKeys_congr fun _ => (hspans.map _).mem_iff]
  · rw [h.operations, h'.operations,
      Blocks.sortedKeys_congr fun _ => ((hspans.filter _).map _).mem_iff]

/-- Maintenance keeps the blocks written and the spans held. -/
theorem maintenance_written (hc : c.Lossless) (hnf : env.NeverFails)
    (hs : DiscoverySession c js env s) (hret : s.engine.retentionNative = 0)
    (hcaps : ∀ r ∈ s.engine.store.rows, WithinCaps c r.toEncoded) {op : SpanMaintenance}
    (hfits : op.Fits s.sig env s.engine) {result : Except String Unit}
    {after : BlockEngine Span (SpanIndex (List BloomRow))}
    (hrun : (op.run s.sig env).exec s.engine = (result, after)) :
    (∀ r ∈ after.store.rows, ∃ es, DiscoveryWritten c js r.toEncoded es) ∧
      (∀ r ∈ after.store.rows, WithinCaps c r.toEncoded) ∧
      (allSpans c after).Perm (allSpans c s.engine) := by
  obtain ⟨⟨W, hbefore, hafter⟩, hcapsIff⟩ := after_maintenance hc hnf hs.spans hret hcaps op hrun
  have hcaps' := hcapsIff.mpr hfits
  refine ⟨?_, hcaps', ?_⟩
  · have hintact := hs.intact hc
    have hmade := carries_spanMaintenance hintact.kind (excuse_none env none) op s.engine
      ⟨hs.sound.good, hintact.engine⟩
    rw [hrun] at hmade
    have hkept : Carries (discoveryReading c js) none after := by
      cases result with
      | ok _ => exact hmade
      | error _ => exact hmade
    obtain ⟨N, hN, -⟩ := hkept.rows
    exact exists_rowsHold_iff.mp ⟨N, hN⟩
  · exact Multiset.coe_eq_coe.mp ((carries_allSpans hc hafter hcaps').trans
      (carries_allSpans hc hbefore hcaps).symm)

/-- **Discovery.** In every session of a span table whose blocks are within the caps, discovery is
exact if every stored span is listed by its terms and every buffered one has a service; if nothing is
buffered, it is exact only then. What it gives for plain spans is unchanged by maintenance, and by
opening the table again what it gives for any. -/
theorem discovery_iff (hc : c.Lossless) (hs : DiscoverySession c js env s)
    (hcaps : ∀ r ∈ s.engine.store.rows, WithinCaps c r.toEncoded)
    (indexes : List SpanAttributeIndex) :
    ((∀ x ∈ storedSpans c s.engine, Listed s.engine.store.rows x) ∧
        (∀ x ∈ s.engine.buffer, x.service ≠ []) → Discovers c js indexes s.engine) ∧
      (s.engine.buffer = [] → Discovers c js indexes s.engine →
        ∀ x ∈ storedSpans c s.engine, Listed s.engine.store.rows x) ∧
      ((∀ x ∈ allSpans c s.engine, Plain x) → env.NeverFails → s.engine.retentionNative = 0 →
        ∀ (op : SpanMaintenance) result after, op.Fits s.sig env s.engine →
          (op.run s.sig env).exec s.engine = (result, after) →
            SameDiscovery c js indexes after s.engine) ∧
      (s.engine.buffer = [] → ∀ sig interval,
        SameDiscovery c js indexes (.create sig s.engine.store interval) s.engine) := by
  have hrows := hs.written hc
  refine ⟨fun h => discovers_of_listed hc hrows hcaps indexes h.1 h.2,
    fun hbuffer h => listed_of_discovers hc hrows hcaps h hbuffer, ?_, ?_⟩
  · intro hplain hnf hret op result after hfits hrun
    obtain ⟨hrows', hcaps', hperm⟩ := maintenance_written hc hnf hs hret hcaps hfits hrun
    exact (discovers_of_plain hc hrows' hcaps' indexes fun x hx => hplain x (hperm.subset hx)).same
      (discovers_of_plain hc hrows hcaps indexes hplain) hperm
  · exact fun hbuffer sig interval => sameDiscovery_of_eq rfl hbuffer.symm

end Sessions

/-- A new table of spans is one. -/
theorem flushedSession_discovery (x : Span) :
    DiscoverySession .storing noJson .reliable (flushedSession noJson [] x) := by
  let sig := spanSignal (spanCodec .storing [] noJson) .default
  have hstart : DiscoverySession .storing noJson .reliable ⟨sig, .create sig .empty 0, none⟩ :=
    .start 0 ⟨⟨[], .default, rfl⟩, fun r hr => absurd hr List.not_mem_nil⟩
  have hpushed : DiscoverySession .storing noJson .reliable (pushedSession noJson [] x) :=
    hstart.step (show SpanOp .storing noJson (fun _ => True) (.push x) from trivial) rfl
  exact hpushed.step (show SpanOp .storing noJson (fun _ => True) .flush from trivial) rfl

/-- Two services and three operations, in a block and in the buffer. -/
theorem discovery_iff_busyTable :
    Discovers .storing noJson [] busyTable.engine ∧
      discoverServices .storing noJson [] busyTable.engine = .ok ["db".toList, "web".toList] := by
  have hs : DiscoverySession .storing noJson .reliable busyTable :=
    busyTable_reachable ⟨⟨[], .default, rfl⟩, fun r hr => absurd hr List.not_mem_nil⟩
  have hstored : storedSpans .storing busyTable.engine = [rootSpan, dbSpan "select"] := by
    decide +kernel
  refine ⟨(discovery_iff Compressors.storing_lossless hs
    (withinCaps_of_all (by decide +kernel)) []).1 ⟨fun x hx => ?_, ?_⟩, by decide +kernel⟩
  · rw [hstored] at hx
    rcases List.mem_pair.mp hx with rfl | rfl
    · exact ⟨by decide, by decide, fun hnul => absurd hnul (by decide)⟩
    · exact ⟨by decide, by decide, fun hnul => absurd hnul (by decide)⟩
  · decide +kernel

/-- A span without a service. -/
def noService : Span := { rootSpan with service := [] }

/-- A span with a NUL in its service. -/
def nulService : Span := { rootSpan with service := "a\x00b".toList }

/-- The operations of the empty service are those of the buffer only, and a service is cut at a
NUL once it is stored. -/
theorem discovery_loses :
    DiscoverySession .storing noJson .reliable (flushedSession noJson [] noService) ∧
    DiscoverySession .storing noJson .reliable (flushedSession noJson [] nulService) ∧
    (allSpans .storing (flushedSession noJson [] noService).engine = [noService] ∧
      discoverOperations .storing noJson [] (pushedSession noJson [] noService).engine [] =
        .ok ["get".toList] ∧
      discoverOperations .storing noJson [] (flushedSession noJson [] noService).engine [] =
        .ok []) ∧
    (allSpans .storing (flushedSession noJson [] nulService).engine = [nulService] ∧
      discoverServices .storing noJson [] (pushedSession noJson [] nulService).engine =
        .ok ["a\x00b".toList] ∧
      discoverServices .storing noJson [] (flushedSession noJson [] nulService).engine =
        .ok ["a".toList] ∧
      discoverOperations .storing noJson [] (flushedSession noJson [] nulService).engine
        "a\x00b".toList = .ok []) :=
  ⟨flushedSession_discovery _, flushedSession_discovery _, by decide +kernel, by decide +kernel⟩

end Timeless.Spans
