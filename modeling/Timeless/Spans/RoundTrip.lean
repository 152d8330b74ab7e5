import Timeless.Spans.Block

/-!
# RoundTrip — spans come back

What `encodeSpanBlock` writes, `decodeSpanBlock` reads, within the caps of the decoder (`SpanFits`):
at most `maxBlockEntries` spans, string columns of the typed codecs that fit, and columns of codec 2
of at most `decompressMaxBytes`. A raw block has no other cap than the count.

* `decodeSpanBlock_encodeSpanBlock`: every field of every span comes back, the block is of version 3,
  and the metadata describes the spans;
* `decodeSpanBlock_version2`: a raw block of version 2 carries all spans that have the defaults in what
  version 3 added.
-/

namespace Timeless.Spans

open Support Codec

open Blocks (BlockMeta tsMinOf tsMaxOf checkBlockRange checkBlockRange_ok tsMinOf_mem tsMaxOf_mem
  tsMinOf_le le_tsMaxOf readText u16Max)

/-! ### Columns that are parsed -/

theorem reads_parents (ps : List (Option (FixedBytes 8))) (i : Nat) (tail : List UInt8) :
    Reads (parseParentsFrom ps.length i) (ps.flatMap parentBytes) tail ps := by
  induction ps generalizing i with
  | nil => exact Reads.pure [] tail
  | cons p ps ih =>
      rw [List.flatMap_cons, List.length_cons, parseParentsFrom]
      cases p with
      | none =>
          refine (reads_u8 0 _ _).bind ?_
          rw [if_pos rfl]
          exact (ih (i + 1)).map (none :: ·)
      | some p =>
          rw [parentBytes, List.cons_append, ← List.singleton_append]
          refine (reads_u8 1 _ _).bind ?_
          rw [if_neg (by decide), if_pos rfl]
          refine (reads_take p.property _ _).bind ?_
          rw [FixedBytes.ofList_val]
          exact (ih (i + 1)).map (some p :: ·)

theorem parseParents_eq (ps : List (Option (FixedBytes 8))) :
    parseParents (ps.flatMap parentBytes) ps.length = .ok ps := by
  refine Reads.run ?_
  rw [← List.append_nil (ps.flatMap parentBytes)]
  exact (reads_parents ps 0 _).bind (reads_end ps _)

theorem reads_text {t : Text} {len : Nat} (hlen : (utf8 t).length = len) (what notUtf8 : String)
    (tail : List UInt8) : Reads (readText len what notUtf8) (utf8 t) tail t := by
  refine (reads_take hlen what tail).bind_last ?_
  rw [fromUtf8_utf8]
  exact reads_lift rfl tail

/-- A text behind a length of two or four bytes. -/
def lenString (wide : Bool) (t : Text) : List UInt8 :=
  if wide then lenPrefixed t else shortPrefixed t

theorem reads_lenStrings (label : String) (wide : Bool) {ts : List Text}
    (hts : ∀ t ∈ ts, (utf8 t).length ≤ if wide then u32Max else u16Max) (i : Nat)
    (tail : List UInt8) :
    Reads (parseLenStringsFrom label wide ts.length i) (ts.flatMap (lenString wide)) tail ts := by
  induction ts generalizing i with
  | nil => exact Reads.pure [] tail
  | cons t ts ih =>
      have ht := hts t List.mem_cons_self
      have hrest := ih (fun s hs => hts s (List.mem_cons_of_mem _ hs)) (i + 1)
      rw [List.flatMap_cons, List.length_cons, parseLenStringsFrom]
      cases wide with
      | true =>
          rw [if_pos rfl] at ht ⊢
          rw [lenString, if_pos rfl, lenPrefixed, List.append_assoc]
          refine (reads_u32 (lt_of_le_u32Max ht) label _).bind ?_
          refine (reads_text rfl label _ _).bind ?_
          exact hrest.map (t :: ·)
      | false =>
          have hlt : (utf8 t).length < 2 ^ 16 := by
            simp only [Bool.false_eq_true, if_false, u16Max] at ht
            omega
          rw [if_neg (by decide)]
          rw [lenString, if_neg (by decide), shortPrefixed, List.append_assoc]
          refine (reads_u16 hlt label _).bind ?_
          refine (reads_text rfl label _ _).bind ?_
          exact hrest.map (t :: ·)

theorem parseLenStrings_eq (label : String) (wide : Bool) (ts : List Text)
    (hts : ∀ t ∈ ts, (utf8 t).length ≤ if wide then u32Max else u16Max) :
    parseLenStrings (ts.flatMap (lenString wide)) ts.length label wide = .ok ts := by
  refine Reads.run ?_
  rw [← List.append_nil (ts.flatMap (lenString wide))]
  exact (reads_lenStrings label wide hts 0 _).bind (reads_end ts _)

theorem toInt_ofNat_u32 (x : UInt32) : (Int64.ofNat x.toNat).toInt = x.toNat := by
  have hlt := x.toNat_lt
  rw [Int64.toInt_ofNat_of_lt (by omega)]

theorem checkU32s_eq (label : String) (i : Nat) (values : List UInt32) :
    checkU32s label i (values.map fun x => Int64.ofNat x.toNat) = .ok values := by
  induction values generalizing i with
  | nil => rfl
  | cons x values ih =>
      have hlt := x.toNat_lt
      have hin : ¬((x.toNat : Int) < 0 ∨ (u32Max : Int) < x.toNat) := by
        unfold u32Max
        omega
      rw [List.map_cons, checkU32s, toInt_ofNat_u32, rejectIf_neg hin, ok_bind, ih, ok_bind,
        Int.toNat_natCast, UInt32.ofNat_toNat]
      rfl

theorem decodeRawU32_eq (values : List UInt32) :
    decodeRawU32 (values.flatMap u32Bytes) = values := by
  have hwidth : ∀ x : UInt32, (u32Bytes x).length = 4 := fun x => length_leBytes 4 _
  rw [decodeRawU32, chunksExact_flatMap (by decide) hwidth, List.map_map]
  conv_rhs => rw [← List.map_id values]
  refine List.map_congr_left fun x _ => ?_
  have hlt : x.toNat < 256 ^ 4 := x.toNat_lt
  rw [Function.comp_apply, u32Bytes, leNat_leBytes hlt, UInt32.ofNat_toNat, id]

/-! ### Columns of the typed codecs -/

section Typed

variable {c : Compressors} {level : Int} {es : List Span} {b : List UInt8}

theorem decode_fixedColumn (hc : c.Lossless) {w : Nat} {f : Span → FixedBytes w}
    (h : fixedColumn c level (es.map f) = .ok b) :
    decodeFixedBytes c b es.length w = .ok (es.flatMap fun e => (f e).val) := by
  obtain ⟨e, he, hb⟩ := of_bind h
  rw [List.flatMap_map] at he
  exact decodeFixedBytes_encodeFixedBytes hc he hb (length_flatMap_const (fun e => (f e).property) es)

variable {f : Span → Text}

theorem decode_strColumn (hc : c.Lossless) (h : strColumn c level (es.map f) = .ok b)
    (hfit : StrColumnFits (es.map f)) :
    decodeStr c b es.length = .ok (es.map f) := by
  obtain ⟨e, he, hb⟩ := of_bind h
  rw [List.length_map] at he
  exact decodeStr_encodeStr hc he hb hfit

theorem decode_u8Column (hc : c.Lossless) {f : Span → UInt8}
    (h : u8Column c level (es.map f) = .ok b) : decodeU8 c b es.length = .ok (es.map f) := by
  obtain ⟨e, he, hb⟩ := of_bind h
  have hback := decodeU8_encodeU8 hc he hb
  rwa [List.length_map] at hback

theorem decode_i64Column (hc : c.Lossless) {f : Span → Int64}
    (h : i64Column c level (es.map f) = .ok b) : decodeI64 c b es.length = .ok (es.map f) := by
  obtain ⟨e, he, hb⟩ := of_bind h
  have hback := decodeI64_encodeI64 hc he hb
  rwa [List.length_map] at hback

theorem decode_u32Column (hc : c.Lossless) {f : Span → UInt32}
    (h : u32Column c level (es.map f) = .ok b) (label : String) :
    decodeAdaptiveU32 c b es.length label = .ok (es.map f) := by
  rw [u32Column, List.map_map] at h
  rw [decodeAdaptiveU32, decode_i64Column hc h, ok_bind, ← List.map_map, checkU32s_eq]

end Typed

/-! ### The container -/

variable {cols : List (List UInt8)} {names : List String}

theorem reads_lengths (hlen : names.length = cols.length)
    (hcols : ∀ col ∈ cols, col.length ≤ u32Max) (tail : List UInt8) :
    Reads (readLengths names) (cols.flatMap fun col => leBytes 4 col.length) tail
      (cols.map List.length) := by
  induction cols generalizing names with
  | nil =>
      rw [List.length_eq_zero_iff.mp hlen]
      exact Reads.pure [] tail
  | cons col cols ih =>
      obtain _ | ⟨name, names⟩ := names
      · cases hlen
      have hrest := ih (Nat.succ.inj hlen) fun x hx => hcols x (List.mem_cons_of_mem _ hx)
      rw [List.flatMap_cons]
      refine (reads_u32 (lt_of_le_u32Max (hcols col List.mem_cons_self)) name _).bind ?_
      exact hrest.map (col.length :: ·)

theorem reads_columns (hlen : names.length = cols.length) (tail : List UInt8) :
    Reads (readColumns (cols.map List.length) names) cols.flatten tail cols := by
  induction cols generalizing names with
  | nil =>
      rw [List.length_eq_zero_iff.mp hlen]
      exact Reads.pure [] tail
  | cons col cols ih =>
      obtain _ | ⟨name, names⟩ := names
      · cases hlen
      rw [List.flatten_cons]
      refine (reads_take rfl name _).bind ?_
      exact (ih (Nat.succ.inj hlen)).map (col :: ·)

/-- A container within the count is taken apart as it was put together. -/
theorem run_readContainer {version codec : UInt8} {n : Nat} {tsMin tsMax : Int64}
    (hknown : knownCodec codec = true) (hn : n ≤ maxBlockEntries)
    (hlen : names.length = cols.length) (hcols : ∀ col ∈ cols, col.length ≤ u32Max) :
    Reader.run (container version codec n tsMin tsMax cols) (readContainer names) =
      .ok ⟨codec, n, tsMin, tsMax, cols⟩ := by
  have hlt : n < 2 ^ 32 := hn.trans_lt (by decide)
  have hcheck : checkEntryCount n "span block" = .ok () := rejectIf_neg (not_lt.mpr hn) _
  refine Reads.run ?_
  refine (reads_u8 version _ _).bind ?_
  refine (reads_u8 codec _ _).bind ?_
  refine (reads_rejectIf (by simp [hknown]) _ _).bind_nil ?_
  refine (reads_u32 hlt _ _).bind ?_
  refine (reads_lift hcheck _).bind_nil ?_
  refine (reads_i64 tsMin _ _).bind ?_
  refine (reads_i64 tsMax _ _).bind ?_
  refine (reads_lengths hlen hcols _).bind ?_
  rw [← List.append_nil cols.flatten]
  exact (reads_columns hlen _).bind (reads_end _ _)

/-! ### What the columns say -/

variable (es : List Span)

def baseOf : BaseColumns where
  traceFlat := es.flatMap fun e => e.traceId.val
  spanFlat := es.flatMap fun e => e.rest.spanId.val
  parents := es.map (·.rest.parentSpanId)
  names := es.map (·.name)
  services := es.map (·.service)
  kinds := es.map (·.kind)
  statuses := es.map (·.status)
  timestamps := es.map (·.startTs)
  durations := es.map (·.durationNs)
  attributes := es.map (·.attributes)
  statusDescriptions := es.map (·.statusDescription)
  events := es.map (·.events)
  resources := es.map (·.resource)
  scopes := es.map (·.instrumentationScope)

def fidelityOf : FidelityColumns where
  links := es.map (·.rest.links)
  traceStates := es.map (·.rest.traceState)
  traceFlags := es.map (·.rest.traceFlags)
  droppedAttributes := es.map (·.rest.droppedAttributesCount)
  droppedEvents := es.map (·.rest.droppedEventsCount)
  droppedLinks := es.map (·.rest.droppedLinksCount)
  resourceSchemaUrls := es.map (·.rest.resourceSchemaUrl)
  scopeSchemaUrls := es.map (·.rest.scopeSchemaUrl)
  resourceDroppedAttributes := es.map (·.rest.resourceDroppedAttributesCount)
  scopeDroppedAttributes := es.map (·.rest.scopeDroppedAttributesCount)

/-- A span with the defaults of version 2. -/
def SpanEntry.stripped (e : Span) : Span :=
  { e with rest := defaultDetail e.rest.spanId e.rest.parentSpanId }

variable {i k : Nat}

theorem getD_map {α β : Type} (f : α → β) {l : List α} (hi : i < l.length) (d : β) :
    (l.map f).getD i d = f l[i] := by
  rw [List.getD_eq_getElem?_getD, List.getElem?_map, List.getElem?_eq_getElem hi]
  rfl

theorem fixedAt_flatMap {w : Nat} (f : Span → FixedBytes w) {es : List Span} (hi : i < es.length) :
    fixedAt w (es.flatMap fun e => (f e).val) i = f es[i] := by
  rw [fixedAt, slice_flatMap (fun e => (f e).property) hi, FixedBytes.ofList_val]

theorem assemble_baseOf :
    assemble es.length (baseOf es) = es.map SpanEntry.stripped := by
  refine List.ext_getElem (by simp [assemble]) fun i hi _ => ?_
  have hi : i < es.length := by simpa [assemble] using hi
  simp only [assemble, List.getElem_map, List.getElem_range, baseOf, getD_map _ hi,
    fixedAt_flatMap _ hi]
  rfl

theorem withFidelity_fidelityOf :
    withFidelity (fidelityOf es) (es.map SpanEntry.stripped) = es := by
  refine List.ext_getElem (by simp [withFidelity]) fun i _ hi => ?_
  simp only [withFidelity, List.getElem_mapIdx, List.getElem_map, fidelityOf, getD_map _ hi]
  rfl

/-! ### Typed columns come back -/

/-- The string columns of the typed codecs. -/
def textColumns : List (List Text) :=
  [es.map (·.name), es.map (·.service), es.map (·.attributes), es.map (·.statusDescription),
    es.map (·.events), es.map (·.resource), es.map (·.instrumentationScope), es.map (·.rest.links),
    es.map (·.rest.traceState), es.map (·.rest.resourceSchemaUrl),
    es.map (·.rest.scopeSchemaUrl)]

/-- A block is within the caps of the decoder. -/
structure SpanFits (es : List Span) (codec : UInt8) : Prop where
  count : es.length ≤ maxBlockEntries
  typed : isTypedCodec codec = true → ∀ texts ∈ textColumns es, StrColumnFits texts
  zstd : codec = codecZstd → ∀ col ∈ plainColumns codec es, col.length ≤ decompressMaxBytes

theorem length_parents :
    (es.flatMap fun e => parentBytes e.rest.parentSpanId).length ≤ 9 * es.length := by
  induction es with
  | nil => exact Nat.zero_le _
  | cons e es ih =>
      have hone : (parentBytes e.rest.parentSpanId).length ≤ 9 := by
        cases e.rest.parentSpanId with
        | none => decide
        | some p => simp [parentBytes, p.property]
      rw [List.flatMap_cons, List.length_append, List.length_cons]
      omega

theorem parseParents_spans :
    parseParents (es.flatMap fun e => parentBytes e.rest.parentSpanId) es.length =
      .ok (es.map (·.rest.parentSpanId)) := by
  have hback := parseParents_eq (es.map (·.rest.parentSpanId))
  rwa [List.length_map, List.flatMap_map] at hback

section Typed

variable {c : Compressors} {level : Int} {es : List Span} {stored : List (List UInt8)}

theorem decompress_parents (hc : c.Lossless) {z : List UInt8}
    (h : zstdCompress c (es.flatMap fun e => parentBytes e.rest.parentSpanId) level = .ok z)
    (hcount : es.length ≤ maxBlockEntries) :
    zstdDecompress c z (columnName 2) =
      .ok (es.flatMap fun e => parentBytes e.rest.parentSpanId) := by
  refine zstd_roundtrip hc h _ ((length_parents es).trans ?_)
  unfold maxBlockEntries at hcount
  unfold decompressMaxBytes
  omega

theorem decodeBaseTyped_eq (hc : c.Lossless)
    (hcol : ∀ i (hi : i < 14), (typedColumns c level es).get ⟨i, hi.trans (by decide : 14 < 24)⟩ =
      .ok (stored.getD i []))
    (hcount : es.length ≤ maxBlockEntries) (hfit : ∀ texts ∈ textColumns es, StrColumnFits texts) :
    decodeBaseTyped c stored es.length = .ok (baseOf es) := by
  rw [decodeBaseTyped, decode_fixedColumn hc (hcol 0 (by decide)), ok_bind,
    decode_fixedColumn hc (hcol 1 (by decide)), ok_bind,
    decompress_parents hc (hcol 2 (by decide)) hcount, ok_bind, parseParents_spans, ok_bind,
    decode_strColumn hc (hcol 3 (by decide)) (hfit _ (by simp [textColumns])), ok_bind,
    decode_strColumn hc (hcol 4 (by decide)) (hfit _ (by simp [textColumns])), ok_bind,
    decode_u8Column hc (hcol 5 (by decide)), ok_bind, decode_u8Column hc (hcol 6 (by decide)),
    ok_bind, decode_i64Column hc (hcol 7 (by decide)), ok_bind,
    decode_i64Column hc (hcol 8 (by decide)), ok_bind,
    decode_strColumn hc (hcol 9 (by decide)) (hfit _ (by simp [textColumns])), ok_bind,
    decode_strColumn hc (hcol 10 (by decide)) (hfit _ (by simp [textColumns])), ok_bind,
    decode_strColumn hc (hcol 11 (by decide)) (hfit _ (by simp [textColumns])), ok_bind,
    decode_strColumn hc (hcol 12 (by decide)) (hfit _ (by simp [textColumns])), ok_bind,
    decode_strColumn hc (hcol 13 (by decide)) (hfit _ (by simp [textColumns])), ok_bind]
  rfl

theorem decodeFidelityTyped_eq (hc : c.Lossless)
    (hcol : ∀ i (hi : i < 24), (typedColumns c level es).get ⟨i, hi⟩ = .ok (stored.getD i []))
    (hfit : ∀ texts ∈ textColumns es, StrColumnFits texts) :
    decodeFidelityTyped c stored es.length = .ok (fidelityOf es) := by
  rw [decodeFidelityTyped,
    decode_strColumn hc (hcol 14 (by decide)) (hfit _ (by simp [textColumns])), ok_bind,
    decode_strColumn hc (hcol 15 (by decide)) (hfit _ (by simp [textColumns])), ok_bind,
    decode_u32Column hc (hcol 16 (by decide)), ok_bind,
    decode_u32Column hc (hcol 17 (by decide)), ok_bind,
    decode_u32Column hc (hcol 18 (by decide)), ok_bind,
    decode_u32Column hc (hcol 19 (by decide)), ok_bind,
    decode_strColumn hc (hcol 20 (by decide)) (hfit _ (by simp [textColumns])), ok_bind,
    decode_strColumn hc (hcol 21 (by decide)) (hfit _ (by simp [textColumns])), ok_bind,
    decode_u32Column hc (hcol 22 (by decide)), ok_bind,
    decode_u32Column hc (hcol 23 (by decide)), ok_bind]
  rfl

end Typed

/-! ### Plain columns come back -/

/-- What is checked of a span before its block is written. -/
structure SpanValid (e : Span) : Prop where
  kind : e.kind.toNat ≤ 4
  status : e.status.toNat ≤ 2
  name : (utf8 e.name).length ≤ u16Max
  service : (utf8 e.service).length ≤ u16Max
  wide : ∀ p ∈ wideTexts e, (utf8 p.2).length ≤ u32Max

theorem checkTexts_ok {limit : Nat} {problem : String} {texts : List (String × Text)}
    (h : checkTexts limit problem texts = .ok ()) : ∀ p ∈ texts, (utf8 p.2).length ≤ limit := by
  induction texts with
  | nil => simp
  | cons p texts ih =>
      obtain ⟨hp, hrest⟩ := rejectIf_bind_eq_ok.mp h
      rintro q (_ | ⟨_, hq⟩)
      · exact not_lt.mp hp
      · exact ih hrest q hq

theorem checked_valid {es : List Span} (hkinds : checkKinds es = .ok ())
    (hlengths : checkLengths es = .ok ()) : ∀ e ∈ es, SpanValid e := by
  induction es with
  | nil => simp
  | cons e es ih =>
      obtain ⟨hkind, hkinds⟩ := rejectIf_bind_eq_ok.mp hkinds
      obtain ⟨hstatus, hkinds⟩ := rejectIf_bind_eq_ok.mp hkinds
      obtain ⟨_, hshort, hlengths⟩ := of_bind hlengths
      obtain ⟨_, hwide, hlengths⟩ := of_bind hlengths
      have hshort := checkTexts_ok hshort
      rintro e' (_ | ⟨_, he'⟩)
      · exact ⟨not_lt.mp hkind, not_lt.mp hstatus, hshort _ List.mem_cons_self,
          hshort ("service", e.service) (by simp), checkTexts_ok hwide⟩
      · exact ih hkinds hlengths e' he'

theorem validateKinds_ok {kinds : List UInt8} (h : ∀ kind ∈ kinds, kind.toNat ≤ 4) (i : Nat) :
    validateKinds i kinds = .ok () := by
  induction kinds generalizing i with
  | nil => rfl
  | cons kind kinds ih =>
      rw [validateKinds, rejectIf_neg (not_lt.mpr (h kind List.mem_cons_self)), ok_bind,
        ih fun x hx => h x (List.mem_cons_of_mem _ hx)]

theorem validateStatuses_ok {statuses : List UInt8} (h : ∀ status ∈ statuses, status.toNat ≤ 2)
    (i : Nat) : validateStatuses i statuses = .ok () := by
  induction statuses generalizing i with
  | nil => rfl
  | cons status statuses ih =>
      rw [validateStatuses, rejectIf_neg (not_lt.mpr (h status List.mem_cons_self)), ok_bind,
        ih fun x hx => h x (List.mem_cons_of_mem _ hx)]

theorem validate_valid {es : List Span} (h : ∀ e ∈ es, SpanValid e) :
    validateKindsStatuses (es.map (·.kind)) (es.map (·.status)) = .ok () := by
  rw [validateKindsStatuses, validateKinds_ok (List.forall_mem_map.mpr fun e he => (h e he).kind),
    ok_bind, validateStatuses_ok (List.forall_mem_map.mpr fun e he => (h e he).status)]

section Plain

variable {c : Compressors} {codec : UInt8} {es : List Span} {stored cols : List (List UInt8)}

/-- What is stored of a column, codec 2 or not, opens to the column. -/
def Opens (c : Compressors) (codec : UInt8) (raw stored : List UInt8) : Prop :=
  ∀ what, (if codec = codecZstd then zstdDecompress c stored what else .ok stored) = .ok raw

theorem openColumns_eq (h : List.Forall₂ (Opens c codec) cols stored) (i : Nat) :
    openColumns c codec i stored = .ok cols := by
  induction h generalizing i with
  | nil => rfl
  | cons hopen _ ih =>
      have hopen := hopen (columnName i)
      rw [openColumns]
      by_cases hz : codec = codecZstd
      · rw [if_pos hz] at hopen ⊢
        rw [hopen, ok_bind, ih]
        rfl
      · rw [if_neg hz] at hopen ⊢
        rw [hopen, ok_bind, ih]
        rfl

theorem checkWidths_ok {first n : Nat} {widths : List (Nat × Nat)}
    (h : ∀ p ∈ widths, (cols.getD p.1 []).length = n * p.2) :
    checkWidths first cols n widths = .ok () := by
  induction widths with
  | nil => rfl
  | cons p widths ih =>
      rw [checkWidths, rejectIf_neg (not_not.mpr (h p List.mem_cons_self)), ok_bind,
        ih fun q hq => h q (List.mem_cons_of_mem _ hq)]

theorem parse_short {col : List UInt8} (hcol : col = es.flatMap fun e => shortPrefixed (f e))
    (h : ∀ e ∈ es, (utf8 (f e)).length ≤ u16Max) (label : String) :
    parseLenStrings col es.length label false = .ok (es.map f) := by
  have hback := parseLenStrings_eq label false (es.map f) (List.forall_mem_map.mpr h)
  rw [List.length_map, List.flatMap_map] at hback
  rw [hcol]
  exact hback

theorem parse_wide {col : List UInt8} (hcol : col = es.flatMap fun e => lenPrefixed (f e))
    (h : ∀ e ∈ es, (utf8 (f e)).length ≤ u32Max) (label : String) :
    parseLenStrings col es.length label true = .ok (es.map f) := by
  have hback := parseLenStrings_eq label true (es.map f) (List.forall_mem_map.mpr h)
  rw [List.length_map, List.flatMap_map] at hback
  rw [hcol]
  exact hback

theorem plainTimestamps_eq (hcodec : codec = codecRaw ∨ codec = codecZstd) (starts : List Int64) :
    plainTimestamps codec (i64sToLeBytes (if codec = codecRaw then starts else deltas 0 starts)) =
      starts := by
  rcases hcodec with rfl | rfl
  · rw [if_pos rfl, plainTimestamps, i64sToLeBytes, i64s_back, if_neg (by decide)]
  · rw [if_neg (by decide), plainTimestamps, i64sToLeBytes, i64s_back, if_pos rfl, undelta_deltas]

theorem length_startColumn (starts : List Int64) :
    (i64sToLeBytes (if codec = codecRaw then starts else deltas 0 starts)).length =
      starts.length * 8 := by
  rw [length_i64sToLeBytes]
  split_ifs
  · rfl
  · rw [length_deltas]

theorem decodeBasePlain_eq (hcodec : codec = codecRaw ∨ codec = codecZstd)
    (hvalid : ∀ e ∈ es, SpanValid e) (hopen : List.Forall₂ (Opens c codec) cols stored)
    (hcols : ∀ i < 14, cols.getD i [] = (plainColumns codec es).getD i []) :
    decodeBasePlain c codec stored es.length = .ok (baseOf es) := by
  have hwidths : checkWidths 0 cols es.length baseWidths = .ok () := by
    refine checkWidths_ok fun p hp => ?_
    simp only [baseWidths, List.mem_cons, List.not_mem_nil, or_false] at hp
    rcases hp with rfl | rfl | rfl | rfl | rfl | rfl
    · rw [hcols 0 (by decide)]
      exact length_flatMap_const (fun e => e.traceId.property) es
    · rw [hcols 1 (by decide)]
      exact length_flatMap_const (fun e => e.rest.spanId.property) es
    · rw [hcols 5 (by decide)]
      exact (List.length_map _).trans (Nat.mul_one _).symm
    · rw [hcols 6 (by decide)]
      exact (List.length_map _).trans (Nat.mul_one _).symm
    · rw [hcols 7 (by decide)]
      exact (length_startColumn _).trans (by rw [List.length_map])
    · rw [hcols 8 (by decide)]
      exact (length_i64sToLeBytes _).trans (by rw [List.length_map])
  have hparents : parseParents (cols.getD 2 []) es.length = .ok (es.map (·.rest.parentSpanId)) := by
    rw [hcols 2 (by decide)]
    exact parseParents_spans es
  have hwide (label : String) {f : Span → Text} (hf : ∀ e, (label, f e) ∈ wideTexts e) (e : Span)
      (he : e ∈ es) := (hvalid e he).wide _ (hf e)
  rw [decodeBasePlain, openColumns_eq hopen, ok_bind, hwidths, ok_bind, hparents, ok_bind,
    parse_short (hcols 3 (by decide)) fun e he => (hvalid e he).name, ok_bind,
    parse_short (hcols 4 (by decide)) fun e he => (hvalid e he).service, ok_bind,
    parse_wide (hcols 9 (by decide)) (hwide "attributes" fun e => by simp [wideTexts]), ok_bind,
    parse_wide (hcols 10 (by decide)) (hwide "status_description" fun e => by simp [wideTexts]), ok_bind,
    parse_wide (hcols 11 (by decide)) (hwide "events" fun e => by simp [wideTexts]), ok_bind,
    parse_wide (hcols 12 (by decide)) (hwide "resource" fun e => by simp [wideTexts]), ok_bind,
    parse_wide (hcols 13 (by decide)) (hwide "instrumentation_scope" fun e => by simp [wideTexts]), ok_bind]
  rw [hcols 0 (by decide), hcols 1 (by decide), hcols 5 (by decide), hcols 6 (by decide),
    hcols 7 (by decide), hcols 8 (by decide)]
  have hstarts : plainTimestamps codec ((plainColumns codec es).getD 7 []) = es.map (·.startTs) :=
    plainTimestamps_eq hcodec _
  have hdurations : (chunksExact 8 ((plainColumns codec es).getD 8 [])).map i64OfLe =
      es.map (·.durationNs) := i64s_back _
  rw [hstarts, hdurations]
  rfl

theorem decodeFidelityPlain_eq (hvalid : ∀ e ∈ es, SpanValid e)
    (hopen : List.Forall₂ (Opens c codec) cols (stored.drop v2Columns))
    (hcols : ∀ i < 10, cols.getD i [] = (plainColumns codec es).getD (14 + i) []) :
    decodeFidelityPlain c codec stored es.length = .ok (fidelityOf es) := by
  have hu32 (i : Nat) (hi : i < 10) {f : Span → UInt32}
      (h : (plainColumns codec es).getD (14 + i) [] = es.flatMap fun e => u32Bytes (f e)) :
      (cols.getD i []).length = es.length * 4 ∧ decodeRawU32 (cols.getD i []) = es.map f := by
    rw [hcols i hi, h]
    refine ⟨length_flatMap_const (fun e => length_leBytes 4 _) es, ?_⟩
    rw [← decodeRawU32_eq (es.map f), List.flatMap_map]
  have h2 := hu32 2 (by decide) rfl
  have h3 := hu32 3 (by decide) rfl
  have h4 := hu32 4 (by decide) rfl
  have h5 := hu32 5 (by decide) rfl
  have h8 := hu32 8 (by decide) rfl
  have h9 := hu32 9 (by decide) rfl
  have hwidths : checkWidths v2Columns cols es.length fidelityWidths = .ok () := by
    refine checkWidths_ok fun p hp => ?_
    simp only [fidelityWidths, List.mem_cons, List.not_mem_nil, or_false] at hp
    rcases hp with rfl | rfl | rfl | rfl | rfl | rfl
    exacts [h2.1, h3.1, h4.1, h5.1, h8.1, h9.1]
  have hwide (label : String) {f : Span → Text} (hf : ∀ e, (label, f e) ∈ wideTexts e) (e : Span)
      (he : e ∈ es) := (hvalid e he).wide _ (hf e)
  rw [decodeFidelityPlain, openColumns_eq hopen, ok_bind, hwidths, ok_bind,
    parse_wide (hcols 0 (by decide)) (hwide "links" fun e => by simp [wideTexts]), ok_bind,
    parse_wide (hcols 1 (by decide)) (hwide "trace_state" fun e => by simp [wideTexts]), ok_bind,
    parse_wide (hcols 6 (by decide)) (hwide "resource_schema_url" fun e => by simp [wideTexts]),
    ok_bind,
    parse_wide (hcols 7 (by decide)) (hwide "scope_schema_url" fun e => by simp [wideTexts]),
    ok_bind, h2.2, h3.2, h4.2, h5.2, h8.2, h9.2]
  rfl

end Plain

/-! ### What was written -/

section Stored

variable {c : Compressors} {level : Int} {codec : UInt8} {es : List Span} {bytes : List UInt8}
  {m : BlockMeta} {stored : List (List UInt8)}

/-- The columns of a block, and what was checked before they were written. -/
structure SpanStored (c : Compressors) (es : List Span) (codec : UInt8) (level : Int)
    (bytes : List UInt8) (m : BlockMeta) (stored : List (List UInt8)) : Prop where
  nonempty : es ≠ []
  known : knownCodec codec = true
  count_le : es.length ≤ u32Max
  valid : ∀ e ∈ es, SpanValid e
  columns : encodeColumns c es codec level = .ok stored
  stored_le : ∀ col ∈ stored, col.length ≤ u32Max
  meta_eq : m = ⟨tsMinOf (es.map (·.startTs)), tsMaxOf (es.map (·.startTs)), es.length, codec⟩
  bytes_eq : bytes = container formatVersion codec m.entryCount m.tsMin m.tsMax stored

theorem encodeSpanBlock_ok (h : encodeSpanBlock c es codec level = .ok (bytes, m)) :
    ∃ stored, SpanStored c es codec level bytes m stored := by
  obtain ⟨hne, h⟩ := rejectIf_bind_eq_ok.mp h
  obtain ⟨hknown, h⟩ := rejectIf_bind_eq_ok.mp h
  obtain ⟨_, hkinds, h⟩ := of_bind h
  obtain ⟨hcount, h⟩ := rejectIf_bind_eq_ok.mp h
  obtain ⟨_, hlengths, h⟩ := of_bind h
  obtain ⟨stored, hstored, h⟩ := of_bind h
  obtain ⟨hle, h⟩ := rejectIf_bind_eq_ok.mp h
  obtain ⟨rfl, rfl⟩ := Prod.mk.inj (Except.ok.inj h)
  refine ⟨stored, hne, by simpa using hknown, not_lt.mp hcount, checked_valid hkinds hlengths,
    hstored, ?_, rfl, rfl⟩
  simpa using hle

theorem length_columns (h : encodeColumns c es codec level = .ok stored) : stored.length = 24 := by
  rw [encodeColumns] at h
  split_ifs at h
  · exact (mapM_eq_ok.mp h).length_eq.symm
  · exact (mapM_eq_ok.mp h).length_eq.symm
  · rw [← Except.ok.inj h]
    rfl

theorem encodeColumns_opens (hc : c.Lossless) (htyped : isTypedCodec codec = false)
    (h : encodeColumns c es codec level = .ok stored)
    (hfit : codec = codecZstd → ∀ col ∈ plainColumns codec es, col.length ≤ decompressMaxBytes) :
    List.Forall₂ (Opens c codec) (plainColumns codec es) stored := by
  rw [encodeColumns, if_neg (by simp [htyped])] at h
  by_cases hz : codec = codecZstd
  · rw [if_pos hz] at h
    refine ((List.forall₂_and_left _ _).mpr ⟨hfit hz, mapM_eq_ok.mp h⟩).imp fun col z hcol what => ?_
    rw [if_pos hz]
    exact zstd_roundtrip hc hcol.2 what hcol.1
  · rw [if_neg hz] at h
    cases h
    refine List.forall₂_same.mpr fun col _ what => ?_
    rw [if_neg hz]

theorem getD_take {α : Type} {l : List α} (hi : i < k) (d : α) :
    (l.take k).getD i d = l.getD i d := by
  rw [List.getD_eq_getElem?_getD, List.getElem?_take_of_lt hi, ← List.getD_eq_getElem?_getD]

theorem plain_of_not_typed (hknown : knownCodec codec = true) (htyped : isTypedCodec codec ≠ true) :
    codec = codecRaw ∨ codec = codecZstd := by
  simp only [knownCodec, isTypedCodec, Bool.or_eq_true, beq_iff_eq, ne_eq] at hknown htyped
  tauto

namespace SpanStored

variable (h : SpanStored c es codec level bytes m stored)

include h

/-- The columns that every version has are read back from any number of columns that has them. -/
theorem base_back (hc : c.Lossless) (hfit : SpanFits es codec) (hk : 14 ≤ k) :
    decodeBase c codec (stored.take k) es.length = .ok (baseOf es) := by
  have hcolumns := h.columns
  rw [decodeBase]
  split_ifs with htyped
  · rw [encodeColumns, if_pos htyped] at hcolumns
    have hcol (i : Nat) (hi : i < 14) :
        (typedColumns c level es).get ⟨i, hi.trans (by decide : 14 < 24)⟩ =
          .ok ((stored.take k).getD i []) := by
      rw [getD_take (hi.trans_le hk)]
      exact getD_of_mapM hcolumns [] (hi.trans (by decide : 14 < 24))
    exact decodeBaseTyped_eq hc hcol hfit.count (hfit.typed htyped)
  · have hopen := encodeColumns_opens hc (by simpa using htyped) hcolumns hfit.zstd
    refine decodeBasePlain_eq (plain_of_not_typed h.known htyped) h.valid
      (List.forall₂_take k hopen) fun i hi => ?_
    rw [getD_take (hi.trans_le hk)]

theorem fidelity_back (hc : c.Lossless) (hfit : SpanFits es codec) :
    decodeFidelity c codec stored es.length = .ok (fidelityOf es) := by
  have hcolumns := h.columns
  rw [decodeFidelity]
  split_ifs with htyped
  · rw [encodeColumns, if_pos htyped] at hcolumns
    exact decodeFidelityTyped_eq hc (fun i hi => getD_of_mapM hcolumns [] hi) (hfit.typed htyped)
  · have hopen := encodeColumns_opens hc (by simpa using htyped) hcolumns hfit.zstd
    exact decodeFidelityPlain_eq h.valid (List.forall₂_drop v2Columns hopen) fun i hi => by
      simp [v2Columns, List.getElem?_drop]

theorem entryCount_eq : m.entryCount = es.length := by
  rw [h.meta_eq]

theorem range_back :
    checkBlockRange "span block" es.length m.tsMin m.tsMax (baseOf es).timestamps = .ok () := by
  have hrange := checkBlockRange_ok "span block" (es.map (·.startTs))
  rw [List.length_map] at hrange
  rw [h.meta_eq]
  exact hrange

theorem validated : validateKindsStatuses (baseOf es).kinds (baseOf es).statuses = .ok () :=
  validate_valid h.valid

theorem read_back (hcount : es.length ≤ maxBlockEntries) (version : UInt8) (names : List String)
    (hnames : names.length = (stored.take k).length) :
    Reader.run (container version codec m.entryCount m.tsMin m.tsMax (stored.take k))
        (readContainer names) =
      .ok ⟨codec, es.length, m.tsMin, m.tsMax, stored.take k⟩ := by
  rw [h.entryCount_eq]
  exact run_readContainer h.known hcount hnames
    fun col hcol => h.stored_le col (List.mem_of_mem_take hcol)

/-- The first fourteen columns in a container of version 2. -/
theorem decode_v2 (hc : c.Lossless) (hfit : SpanFits es codec) : decodeSpanBlock c
        (container formatVersionV2 codec m.entryCount m.tsMin m.tsMax (stored.take v2Columns)) =
      .ok (es.map SpanEntry.stripped) := by
  have hread := h.read_back hfit.count formatVersionV2 (columnNames.take v2Columns) (k := v2Columns)
    (by simp [length_columns h.columns, v2Columns, columnNames])
  change decodeSpanBlockV2V3 c formatVersionV2 _ = _
  rw [decodeSpanBlockV2V3, if_pos rfl, hread, ok_bind, h.base_back hc hfit (by decide), ok_bind,
    h.validated, ok_bind, assemble_baseOf]
  simp only [h.range_back, pure_bind, ok_bind]
  rfl

theorem decode_v3 (hc : c.Lossless)
    (hfit : SpanFits es codec) : decodeSpanBlock c bytes = .ok es := by
  have htake : stored.take 24 = stored := List.take_of_length_le (length_columns h.columns).le
  have hread := h.read_back hfit.count formatVersion columnNames (k := 24)
    (by simp [length_columns h.columns, columnNames])
  have hbase := h.base_back hc hfit (k := 24) (by decide)
  rw [htake] at hread hbase
  rw [h.bytes_eq]
  change decodeSpanBlockV2V3 c formatVersion _ = _
  rw [decodeSpanBlockV2V3, if_neg (by decide), hread, ok_bind, hbase, ok_bind, h.validated, ok_bind,
    assemble_baseOf, if_pos rfl]
  simp only [h.fidelity_back hc hfit, h.range_back, pure_bind, ok_bind, withFidelity_fidelityOf]
  rfl

theorem describes : m.entryCount = es.length ∧ m.codec = codec ∧
      m.tsMin ∈ es.map (·.startTs) ∧ m.tsMax ∈ es.map (·.startTs) ∧
      ∀ e ∈ es, m.tsMin ≤ e.startTs ∧ e.startTs ≤ m.tsMax := by
  have hne : es.map (·.startTs) ≠ [] := by simpa using h.nonempty
  rw [h.meta_eq]
  exact ⟨rfl, rfl, tsMinOf_mem hne, tsMaxOf_mem hne, fun e he =>
    ⟨tsMinOf_le (List.mem_map_of_mem he), le_tsMaxOf (List.mem_map_of_mem he)⟩⟩

end SpanStored

/-- **Version 2 suffices.** Spans that have the defaults in what version 3 added come back from a
container of version 2 with the first fourteen of the columns that are written. -/
theorem decodeSpanBlock_version2 (hc : c.Lossless)
    (h : encodeSpanBlock c es codec level = .ok (bytes, m)) (hfit : SpanFits es codec)
    (hdefault : ∀ e ∈ es, e.stripped = e) :
    ∃ cols, decodeSpanBlock c (container formatVersionV2 codec m.entryCount m.tsMin m.tsMax cols) =
      .ok es := by
  obtain ⟨stored, hstored⟩ := encodeSpanBlock_ok h
  have hback := hstored.decode_v2 hc hfit
  rw [List.map_congr_left hdefault, List.map_id'] at hback
  exact ⟨_, hback⟩

end Stored

/-- **Span round trip.** What was encoded decodes to the same spans in the same order, every field
included; the block is of version 3 whatever the spans hold, and its metadata describes them. -/
theorem decodeSpanBlock_encodeSpanBlock {c : Compressors} (hc : c.Lossless) {es : List Span}
    {codec : UInt8} {level : Int} {bytes : List UInt8} {m : BlockMeta}
    (h : encodeSpanBlock c es codec level = .ok (bytes, m)) (hfit : SpanFits es codec) :
    decodeSpanBlock c bytes = .ok es ∧ bytes.head? = some formatVersion ∧
      m.entryCount = es.length ∧ m.codec = codec ∧
      m.tsMin ∈ es.map (·.startTs) ∧ m.tsMax ∈ es.map (·.startTs) ∧
      ∀ e ∈ es, m.tsMin ≤ e.startTs ∧ e.startTs ≤ m.tsMax := by
  obtain ⟨stored, hstored⟩ := encodeSpanBlock_ok h
  refine ⟨hstored.decode_v3 hc hfit, ?_, hstored.describes⟩
  rw [hstored.bytes_eq]
  rfl

/-- A root span that has the defaults in what version 3 added. -/
def rootSpan : Span where
  traceId := ⟨List.replicate 16 7, rfl⟩
  name := "get".toList
  service := "web".toList
  kind := 1
  status := 0
  statusDescription := []
  startTs := 1000
  durationNs := 250
  attributes := "\x7b\x7d".toList
  events := "[]".toList
  resource := "\x7b\x7d".toList
  instrumentationScope := "\x7b\x7d".toList
  rest := defaultDetail ⟨List.replicate 8 1, rfl⟩ none

/-- Its child, with a parent and a trace state. -/
def childSpan : Span :=
  { rootSpan with
    startTs := 900
    rest := { rootSpan.rest with
      spanId := ⟨List.replicate 8 2, rfl⟩
      parentSpanId := some rootSpan.rest.spanId
      traceState := "a=b".toList } }

theorem spanFits_two : SpanFits [rootSpan, childSpan] codecColumnarV2 where
  count := by decide
  typed _ := by decide +kernel
  zstd h := absurd h (by decide)

theorem decodeSpanBlock_encodeSpanBlock_two : ∃ bytes m,
    encodeSpanBlock .storing [rootSpan, childSpan] codecColumnarV2 3 = .ok (bytes, m) ∧
      decodeSpanBlock .storing bytes = .ok [rootSpan, childSpan] ∧ m.entryCount = 2 := by
  obtain ⟨bytes, m, h⟩ : ∃ bytes m,
    encodeSpanBlock .storing [rootSpan, childSpan] codecColumnarV2 3 = .ok (bytes, m) := ⟨_, _, rfl⟩
  have hback := decodeSpanBlock_encodeSpanBlock Compressors.storing_lossless h spanFits_two
  exact ⟨bytes, m, h, hback.1, hback.2.2.1⟩

/-- The version is not chosen by what the spans hold: a root span with all defaults is written in
version 3, although a container of version 2 carries it. -/
theorem encodeSpanBlock_rootSpan : ∃ bytes m cols,
    encodeSpanBlock .storing [rootSpan] codecRaw 3 = .ok (bytes, m) ∧
      SpanFits [rootSpan] codecRaw ∧ bytes.head? = some 3 ∧
      decodeSpanBlock .storing (container 2 codecRaw m.entryCount m.tsMin m.tsMax cols) =
        .ok [rootSpan] := by
  obtain ⟨bytes, m, h, hhead⟩ : ∃ bytes m,
    encodeSpanBlock .storing [rootSpan] codecRaw 3 = .ok (bytes, m) ∧ bytes.head? = some 3 :=
    ⟨_, _, rfl, rfl⟩
  have hfit : SpanFits [rootSpan] codecRaw :=
    ⟨by decide, fun h => absurd h (by decide), fun h => absurd h (by decide)⟩
  obtain ⟨cols, hcols⟩ := decodeSpanBlock_version2 Compressors.storing_lossless h hfit (by simp; rfl)
  exact ⟨bytes, m, cols, h, hfit, hhead, hcols⟩

end Timeless.Spans
