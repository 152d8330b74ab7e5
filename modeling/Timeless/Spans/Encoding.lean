import Timeless.Codec.Sizes
import Timeless.Spans.Content

/-!
# Encoding — which spans can be written

Before a block is written its spans are checked (`SpanValid`): kinds and statuses are ones, names and
services are at most 64 KiB long, other texts at most 4 GiB. Admission looks at kinds and statuses
only. Beyond these checks a raw block fails if a column is longer than a four-byte length can say
(`encodeSpanBlock_raw_iff`), and so does a block of codec 5, which for the sizes that the decoder's
caps let through never happens (`encodeSpanBlock_typed`).
-/

namespace Timeless.Spans

open Support Codec Engine
open Blocks (BlockMeta SerdeJson u16Max tsMinOf tsMaxOf)

/-! ### Checks -/

theorem checkKinds_valid {es : List Span} (h : ∀ e ∈ es, SpanValid e) : checkKinds es = .ok () := by
  induction es with
  | nil => rfl
  | cons e es ih =>
      have he := h e List.mem_cons_self
      rw [checkKinds, rejectIf_neg (not_lt.mpr he.kind), ok_bind, rejectIf_neg (not_lt.mpr he.status),
        ok_bind, ih fun x hx => h x (List.mem_cons_of_mem _ hx)]

theorem checkTexts_eq {limit : Nat} {texts : List (String × Text)}
    (h : ∀ p ∈ texts, (utf8 p.2).length ≤ limit) (problem : String) :
    checkTexts limit problem texts = .ok () := by
  induction texts with
  | nil => rfl
  | cons p texts ih =>
      obtain ⟨label, t⟩ := p
      rw [checkTexts, rejectIf_neg (not_lt.mpr (h _ List.mem_cons_self)), ok_bind,
        ih fun q hq => h q (List.mem_cons_of_mem _ hq)]

theorem checkLengths_valid {es : List Span} (h : ∀ e ∈ es, SpanValid e) :
    checkLengths es = .ok () := by
  induction es with
  | nil => rfl
  | cons e es ih =>
      have he := h e List.mem_cons_self
      have hshort : ∀ p ∈ [("name", e.name), ("service", e.service)], (utf8 p.2).length ≤ u16Max := by
        rintro p hp
        simp only [List.mem_cons, List.not_mem_nil, or_false] at hp
        rcases hp with rfl | rfl
        · exact he.name
        · exact he.service
      rw [checkLengths, checkTexts_eq hshort, ok_bind, checkTexts_eq he.wide, ok_bind,
        ih fun x hx => h x (List.mem_cons_of_mem _ hx)]

/-! ### Blocks -/

section Block

variable {c : Compressors} {es : List Span} {codec : UInt8} {level : Int}

theorem encodeSpanBlock_iff : (∃ out, encodeSpanBlock c es codec level = .ok out) ↔
    (es ≠ [] ∧ knownCodec codec = true ∧ es.length ≤ u32Max ∧ ∀ e ∈ es, SpanValid e) ∧
      ∃ stored, encodeColumns c es codec level = .ok stored ∧ ∀ col ∈ stored, col.length ≤ u32Max := by
  constructor
  · rintro ⟨⟨bytes, m⟩, h⟩
    obtain ⟨stored, hst⟩ := encodeSpanBlock_ok h
    exact ⟨⟨hst.nonempty, hst.known, hst.count_le, hst.valid⟩, stored, hst.columns, hst.stored_le⟩
  · rintro ⟨⟨hne, hknown, hcount, hvalid⟩, stored, hstored, hle⟩
    have hany : ¬stored.any (fun col => decide (u32Max < col.length)) = true := by simpa using hle
    let m : BlockMeta :=
      ⟨tsMinOf (es.map (·.startTs)), tsMaxOf (es.map (·.startTs)), es.length, codec⟩
    refine ⟨(container formatVersion codec m.entryCount m.tsMin m.tsMax stored, m), ?_⟩
    rw [encodeSpanBlock, rejectIf_neg hne, ok_bind, rejectIf_neg (by simp [hknown]), ok_bind,
      checkKinds_valid hvalid, ok_bind]
    dsimp only
    rw [rejectIf_neg (not_lt.mpr hcount), ok_bind, checkLengths_valid hvalid, ok_bind, hstored,
      ok_bind, rejectIf_neg hany, ok_bind]
    rfl

/-- What a raw block takes. -/
structure RawEncodable (es : List Span) : Prop where
  count_le : es.length ≤ u32Max
  valid : ∀ e ∈ es, SpanValid e
  columns : ∀ col ∈ plainColumns codecRaw es, col.length ≤ u32Max

/-- When a flush can write its spans. -/
theorem encodeSpanBlock_raw_iff (hne : es ≠ []) :
    (∃ out, encodeSpanBlock c es codecRaw level = .ok out) ↔ RawEncodable es := by
  have hcolumns : encodeColumns c es codecRaw level = .ok (plainColumns codecRaw es) := by
    rw [encodeColumns, if_neg (by decide), if_neg (by decide)]
  rw [encodeSpanBlock_iff, hcolumns]
  constructor
  · rintro ⟨⟨-, -, hcount, hvalid⟩, stored, hstored, hle⟩
    obtain rfl := Except.ok.inj hstored
    exact ⟨hcount, hvalid, hle⟩
  · exact fun h => ⟨⟨hne, rfl, h.count_le, h.valid⟩, _, rfl, h.columns⟩

/-- Columns of not too many and not too long values are written. -/
theorem typedColumns_write (hb : c.Bounded) (hcount : es.length ≤ maxBlockEntries)
    (htexts : ∀ texts ∈ textColumns es, StrColumnWithin (2 ^ 28) texts) (level : Int) :
    ∀ col ∈ typedColumns c level es, Writes col := by
  have hlen {α : Type} (f : Span → α) : (es.map f).length ≤ maxBlockEntries := by
    rw [List.length_map]
    exact hcount
  have hfixed {w : Nat} (hw : w ≠ 0) (hmax : w ≤ 16) (f : Span → FixedBytes w) :
      Writes (fixedColumn c level (es.map f)) := by
    have hbytes : ((es.map f).flatMap Subtype.val).length = es.length * w := by
      rw [length_flatMap_const (fun x => x.property), List.length_map]
    refine frame_writes (encodeFixedBytes_small hb hw ?_ ?_ level)
    · rw [hbytes, Nat.mul_mod_left]
    · rw [hbytes]
      exact (Nat.mul_le_mul hcount hmax).trans (by decide)
  have htext {f : Span → Text} (hf : es.map f ∈ textColumns es) :
      Writes (strColumn c level (es.map f)) :=
    frame_writes (encodeStr_small hb (hlen f) (htexts _ hf) level)
  have hu8 (f : Span → UInt8) : Writes (u8Column c level (es.map f)) :=
    frame_writes (encodeU8_small hb (hlen f) level)
  have hi64 (f : Span → Int64) : Writes (i64Column c level (es.map f)) :=
    frame_writes (encodeI64_small hb (hlen f) level)
  have hu32 (f : Span → UInt32) : Writes (u32Column c level (es.map f)) := by
    rw [u32Column, List.map_map]
    exact frame_writes (encodeI64_small hb (hlen _) level)
  have hparents : Writes (zstdCompress c (es.flatMap fun e => parentBytes e.rest.parentSpanId)
      level) := by
    refine zstdCompress_writes hb _ level ((length_parents es).trans ?_)
    exact (Nat.mul_le_mul_left 9 hcount).trans (by decide)
  intro col hcol
  simp only [typedColumns, List.mem_cons, List.not_mem_nil, or_false] at hcol
  rcases hcol with rfl | rfl | rfl | rfl | rfl | rfl | rfl | rfl | rfl | rfl | rfl | rfl | rfl |
    rfl | rfl | rfl | rfl | rfl | rfl | rfl | rfl | rfl | rfl | rfl
  · exact hfixed (by decide) (by decide) _
  · exact hfixed (by decide) (by decide) _
  · exact hparents
  · exact htext (by simp [textColumns])
  · exact htext (by simp [textColumns])
  · exact hu8 _
  · exact hu8 _
  · exact hi64 _
  · exact hi64 _
  all_goals first | exact hu32 _ | exact htext (by simp [textColumns])

/-- A block of codec 5 can be written if it is not too large, even if it is beyond the caps. -/
theorem encodeSpanBlock_typed (hb : c.Bounded) (hne : es ≠ []) (hvalid : ∀ e ∈ es, SpanValid e)
    (hcount : es.length ≤ maxBlockEntries)
    (htexts : ∀ texts ∈ textColumns es, StrColumnWithin (2 ^ 28) texts) (level : Int) :
    ∃ out, encodeSpanBlock c es codecColumnarV2 level = .ok out := by
  refine encodeSpanBlock_iff.mpr ⟨⟨hne, rfl, hcount.trans (by decide), hvalid⟩, ?_⟩
  rw [encodeColumns, if_pos (by decide)]
  have hwrites := typedColumns_write hb hcount htexts level
  generalize typedColumns c level es = cols at hwrites
  induction cols with
  | nil => exact ⟨[], rfl, by simp⟩
  | cons col cols ih =>
      obtain ⟨b, rfl, hb'⟩ := hwrites col List.mem_cons_self
      obtain ⟨stored, hstored, hle⟩ := ih fun x hx => hwrites x (List.mem_cons_of_mem _ hx)
      exact ⟨b :: stored, mapM_eq_ok.mpr (.cons rfl (mapM_eq_ok.mp hstored)),
        List.forall_mem_cons.mpr ⟨hb', hle⟩⟩

end Block

/-! ### Index data -/

section Index

variable {js : SerdeJson JsonNumber} {es : List Span}

theorem buildSpanAttributeBlooms_nil : buildSpanAttributeBlooms js es [] = .ok [] := by
  rw [buildSpanAttributeBlooms]
  induction es with
  | nil => rfl
  | cons e es ih => exact ih

theorem spanDurationBounds_ok (hne : es ≠ []) : ∃ d, spanDurationBounds es = .ok d := by
  cases es with
  | nil => exact absurd rfl hne
  | cons e es =>
      have hfirst := foldl_encloses (List.mem_cons_self (a := e.durationNs)
        (l := es.map SpanEntry.durationNs))
      exact ⟨_, dif_pos (Int64.le_trans hfirst.1 hfirst.2)⟩

variable {c : Compressors} {indexes : List SpanAttributeIndex} {cfg : SpanEngineConfig}
  {codec : UInt8}

/-- A block and its index data can be made if the block can. -/
theorem encodeSpans_ok_iff (h : ∃ blooms, buildSpanAttributeBlooms js es indexes = .ok blooms) :
    (∃ b, encodeSpans (spanCodec c indexes js) cfg codec es = .ok b) ↔
      ∃ out, encodeSpanBlock c es codec cfg.zstdLevel = .ok out := by
  constructor
  · rintro ⟨b, hb⟩
    obtain ⟨out, hout, -⟩ := of_bind hb
    exact ⟨out, hout⟩
  · rintro ⟨⟨data, m⟩, hout⟩
    obtain ⟨blooms, hblooms⟩ := h
    obtain ⟨stored, hst⟩ := encodeSpanBlock_ok hout
    obtain ⟨d, hd⟩ := spanDurationBounds_ok hst.nonempty
    have hencode : (spanCodec c indexes js).encode es codec cfg.zstdLevel = .ok (data, m) := hout
    have hindex : (spanCodec c indexes js).blooms es = .ok (blooms.map BloomRow.of) := by
      change (do let blooms ← buildSpanAttributeBlooms js es indexes; _) = _
      rw [hblooms]
      rfl
    refine ⟨⟨m, data, extractTerms es, extractTraceIds es, blooms.map BloomRow.of, some d⟩, ?_⟩
    rw [encodeSpans, hencode, ok_bind]
    dsimp only
    rw [hindex, ok_bind, hd, ok_bind]
    rfl

end Index

end Timeless.Spans
