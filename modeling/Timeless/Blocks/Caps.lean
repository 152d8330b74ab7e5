import Timeless.Blocks.Decode

/-!
# Caps — blocks the decoder refuses

The decoder bounds the number of entries and the size of what it decompresses; the encoder does not
look at these bounds. A written block over one of them is refused, whatever else it holds:

* `BlockStored.decodeBlock_over`: a block over a cap is an error;
* `BlockStored.decodeBlock_unreadable`: so is one with an envelope that cannot be read;
* `BlockStored.decodeBlock_iff`: any other written block is read;
* `decodeTemplateStr_iff`: for a template column alone, the cap on its templates and string variables
  is all that stands between the messages and their return.
-/

namespace Timeless.Blocks

open Support Codec

variable {c : Compressors} {N : Type} {js : SerdeJson N} {stored : UInt8}
  {bytes col raw : List UInt8} {entries : List LogEntry}

theorem blockFits_of_raw (hraw : isRawCodec stored = true)
    (hcount : entries.length ≤ maxBlockEntries) (level : Int) :
    BlockFits c js entries stored level := by
  refine ⟨hcount, ?_, fun hno => ?_⟩
  · rw [MessagesFit, if_pos hraw]
    trivial
  · rw [hraw] at hno
    cases hno

/-! ### Columns over a cap -/

variable {level : Int}

theorem readTemplate_over (hc : c.Lossless) {msgs : List Text} {splitRuns : Bool}
    (h : encodeMode c msgs splitRuns level = .ok bytes) (hover : ¬TemplateFits msgs splitRuns) :
    ∃ err, readTemplate c bytes msgs.length = .error err := by
  obtain ⟨nums, cols, hst, hread⟩ := encodeMode_ok h
  obtain ⟨ed, hed, hbd⟩ := hst.dict_col
  obtain ⟨es, hes, hbs⟩ := hst.strs_col
  obtain ⟨hids, hws, hvs⟩ := hst.numbers hc
  rw [readTemplate, run_templateColumns hread, ok_bind, hids, ok_bind]
  by_cases hdict : StrColumnFits (tokenizeBlock msgs splitRuns).dict
  · rw [decodeStr_encodeStr hc hed hbd hdict, ok_bind, hws, ok_bind, hvs, ok_bind]
    exact bind_error _ (decodeStr_over hc hes hbs fun hstrs => hover ⟨hdict, hstrs⟩)
  · exact bind_error _ (decodeStr_over hc hed hbd hdict)

theorem decodeTypedMessages_over (hc : c.Lossless) {codec : UInt8} {msgs : List Text}
    (htyped : isTypedCodec codec = true) (h : encodeMessages c codec msgs level = .ok (stored, col))
    (hover : ¬MessagesFit c stored msgs level) :
    ∃ err, decodeTypedMessages c stored .all col msgs.length = .error err := by
  rw [decodeTypedMessages, if_neg (by simp [LogProjection.all])]
  rw [MessagesFit] at hover
  cases encodeMessages_stored htyped h with
  | raw hcodec => simp [hcodec] at hover
  | zstd => exact absurd htyped (by decide)
  | typed hstored he hb _ =>
      obtain ⟨h8, hraw, hzstd⟩ := typed_codec hstored
      rw [if_neg hraw, if_neg hzstd, if_neg h8] at hover
      rw [if_neg h8]
      exact decodeStr_over hc he hb hover
  | template he hb htpl hlt =>
      rw [if_neg (by decide), if_neg (by decide), if_pos rfl] at hover
      push Not at hover
      obtain ⟨splitRuns, ⟨tpl, _, _, htpl', hmode, -⟩, hfit⟩ := hover
      obtain rfl := Except.ok.inj (htpl.symm.trans htpl')
      rw [if_pos rfl]
      exact bind_error _ (readTemplate_over hc hmode hfit)

theorem fails_keyColumns (hc : c.Lossless) (what : String) {pairs : List Pairs} {keys : List Text}
    (hover : ¬KeysFit pairs keys) (h : encodeKeyColumns c pairs level keys = .ok bytes)
    (out : List Pairs) :
    Fails (readKeyColumns c what pairs.length keys out) bytes := by
  induction keys generalizing bytes out with
  | nil => exact absurd (by simp [KeysFit]) hover
  | cons k keys ih =>
      obtain ⟨e, he, h⟩ := of_bind h
      obtain ⟨col, hcol, h⟩ := of_bind h
      obtain ⟨rest, hrest, rfl⟩ := bind_pure_eq_ok.mp h
      have hbitmap := decodeBitmap_encodeBitmap (pairs.map fun entry => (pairValue k entry).isSome)
      rw [List.length_map] at hbitmap
      have hcount := count_present k pairs
      refine (reads_take (by simp [encodeBitmap]) _ _).bind_fails ?_
      refine (reads_lift (by rw [mapError_eq_ok]; exact hbitmap) _).bind_nil_fails ?_
      refine (reads_framedColumn hcol _ _).bind_fails ?_
      by_cases hk : StrColumnFits (pairs.filterMap (pairValue k))
      · have hvalues := decodeStr_encodeStr hc he hcol hk
        refine (reads_lift (by rw [mapError_eq_ok, hcount]; exact hvalues) _).bind_nil_fails ?_
        refine ih (fun hfit => hover fun k' hk' => ?_) hrest _
        rcases List.mem_cons.mp hk' with rfl | hk'
        · exact hk
        · exact hfit k' hk'
      · rw [hcount]
        exact (fails_lift (mapError_error _ (decodeStr_over hc he hcol hk)) _).bind _

theorem decodePairsColumn_over (hc : c.Lossless) {pairs : List Pairs} {legacyRaw : List UInt8}
    (what : String) (h : encodePairsColumn c pairs legacyRaw level = .ok bytes)
    (hover : ¬PairsFit pairs legacyRaw)
    (parseLegacy : List UInt8 → Nat → Except String (List Pairs)) :
    ∃ err, decodePairsColumn c bytes pairs.length what parseLegacy = .error err := by
  unfold encodePairsColumn at h
  unfold PairsFit at hover
  dsimp only at h
  split_ifs at h hover with hcase
  · obtain ⟨z, hz, rfl⟩ := bind_pure_eq_ok.mp h
    refine Fails.run ?_
    rw [← List.singleton_append]
    refine (reads_u8 _ _ _).bind_fails ?_
    rw [if_pos rfl]
    refine (reads_remaining z).bind_nil_fails ?_
    rw [← List.append_nil z]
    refine (reads_take (by simp) _ _).bind_fails ?_
    exact (fails_lift (zstd_over hc hz _ (not_le.mp hover)) _).bind _
  · obtain ⟨table, htable, h⟩ := of_bind h
    obtain ⟨cols, hcols, rfl⟩ := bind_pure_eq_ok.mp h
    rw [Bool.or_eq_true, Bool.not_eq_true', decide_eq_true_eq, not_or] at hcase
    have hkeys := hcase.2
    have hsorted := pairwise_sortedKeys (pairs.flatMap fun entry => entry.map Prod.fst)
    refine Fails.run ?_
    rw [← List.singleton_append]
    refine (reads_u8 _ _ _).bind_fails ?_
    rw [if_neg (by decide), if_pos rfl]
    refine (reads_u16 (by unfold shredMaxKeys at hkeys; omega) _ _).bind_fails ?_
    refine (reads_rejectIf hkeys _ _).bind_nil_fails ?_
    refine (reads_keys what htable hsorted 0 none (by simp) _).bind_fails ?_
    exact (fails_keyColumns hc what hover hcols _).bind _

theorem decodeTypedPayloads_over (hc : c.Lossless) {codec : UInt8}
    (hstored : stored = codec ∨ codec = codecRichTemplate ∧ stored = codecRichColumnar)
    (hraw : rawMetadata js entries codec = .ok raw)
    (h : encodeMetadata c entries codec raw level = .ok col)
    (hover : ¬MetadataFits js stored entries) :
    ∃ err, decodeTypedPayloads c js stored .all col entries.length = .error err := by
  obtain ⟨hrich, hv2⟩ := stored_same_metadata hstored
  have hcap : ¬(if stored = codecColumnarV2 then PairsFit (entries.map LogEntry.metadata) raw
      else raw.length ≤ decompressMaxBytes) := by
    intro hcap
    refine hover fun _ raw' hraw' => ?_
    rw [rawMetadata_congr hrich, hraw] at hraw'
    obtain rfl := Except.ok.inj hraw'
    exact hcap
  unfold decodeTypedPayloads
  rw [hrich]
  by_cases h5 : codec = codecColumnarV2
  · rw [if_pos (hv2.mpr h5)] at hcap
    rw [encodeMetadata, if_pos h5] at h
    obtain ⟨err, herr⟩ := decodePairsColumn_over hc "metadata" h hcap parseMetadata
    rw [List.length_map] at herr
    subst h5
    exact ⟨err, by rw [if_neg (by decide), if_neg (by decide), if_pos (hv2.mpr rfl), herr]; rfl⟩
  · rw [if_neg (hv2.not.mpr h5)] at hcap
    rw [encodeMetadata, if_neg h5] at h
    split_ifs with hr hskip hcol
    · exact bind_error _ (zstd_over hc h _ (not_le.mp hcap))
    · exact absurd hskip (by decide)
    · exact absurd (hv2.mp hcol) h5
    · exact bind_error _ (zstd_over hc h _ (not_le.mp hcap))

/-! ### Blocks over a cap -/

section

variable {entries : List LogEntry} {codec : UInt8} {level : Int} {bytes : List UInt8}
  {m : BlockMeta} {cols : Columns}

theorem BlockStored.typed_over (h : BlockStored c js entries codec level bytes m cols)
    (hc : c.Lossless) (htyped : isTypedCodec codec = true)
    (hover : ¬(MessagesFit c m.codec (entries.map LogEntry.message) level ∧
      MetadataFits js m.codec entries)) :
    isTypedCodec m.codec = true ∧
      ∃ err, decodeBlockTyped c js m.codec (m.framing cols) cols .all = .error err := by
  obtain ⟨raw, hraw, hmd, hmsg, hts, hlvl⟩ := h.typed_columns hc htyped
  have hcodec := encodeMessages_codec hmsg
  refine ⟨?_, ?_⟩
  · rcases hcodec with heq | ⟨-, heq⟩
    · rw [heq]
      exact htyped
    · rw [heq]
      rfl
  rw [decodeBlockTyped, h.framing_eq]
  simp only [hts, hlvl, checkLevels_ok h.level_bytes, ok_bind]
  by_cases hmsgfit : MessagesFit c m.codec (entries.map LogEntry.message) level
  · have hmsg' := decodeTypedMessages_ok hc htyped hmsg hmsgfit
    rw [List.length_map] at hmsg'
    rw [hmsg', ok_bind]
    exact bind_error _ (decodeTypedPayloads_over hc hcodec hraw hmd fun hfit => hover ⟨hmsgfit, hfit⟩)
  · have hmsg' := decodeTypedMessages_over hc htyped hmsg hmsgfit
    rw [List.length_map] at hmsg'
    exact bind_error _ hmsg'

theorem plainColumns_over (hc : c.Lossless)
    (h : encodePlain c entries codecZstd raw level = .ok cols)
    (hcount : entries.length ≤ maxBlockEntries)
    (hover : ¬(((entries.map LogEntry.message).flatMap lenPrefixed).length ≤ decompressMaxBytes ∧
      raw.length ≤ decompressMaxBytes)) :
    ∃ err, plainColumns c codecZstd cols .all = .error err := by
  obtain ⟨ts, lvl, col, md, hts, hlvl, hcol, hmd, rfl⟩ := encodePlain_zstd h
  have hhead := plainHead_ok hc hts hlvl hcount
  simp only [plainColumns, if_true, columnUnless, LogProjection.all, hhead.1, hhead.2, ok_bind,
    Bool.true_eq_false, if_false, and_self]
  by_cases hmsg : ((entries.map LogEntry.message).flatMap lenPrefixed).length ≤ decompressMaxBytes
  · have hmsg' : zstdDecompress c col "message column" = .ok _ := zstd_roundtrip hc hcol _ hmsg
    rw [hmsg', ok_bind]
    exact bind_error _ (zstd_over hc hmd _ (not_le.mp fun hraw => hover ⟨hmsg, hraw⟩))
  · exact bind_error _ (zstd_over hc hcol _ (not_le.mp hmsg))

theorem BlockStored.plain_over (h : BlockStored c js entries codec level bytes m cols)
    (hc : c.Lossless) (htyped : isTypedCodec codec = false)
    (hcount : entries.length ≤ maxBlockEntries)
    (hover : ¬(MessagesFit c m.codec (entries.map LogEntry.message) level ∧
      MetadataFits js m.codec entries)) :
    m.codec = codec ∧
      ∃ err, decodeBlockLegacy c js m.codec (m.framing cols) cols .all = .error err := by
  obtain ⟨raw, hraw, hcols, hcodec⟩ := h.plain_columns htyped
  rw [hcodec] at hover ⊢
  refine ⟨rfl, ?_⟩
  -- raw columns have no cap, so the block is a compressed one
  have hz : codec = codecZstd := by
    rcases h.plain_codec htyped with hraw' | hz
    · exact absurd ⟨by simp [MessagesFit, hraw'], fun hno => by simp [hraw'] at hno⟩ hover
    · exact hz
  subst hz
  refine bind_error _ (plainColumns_over hc hcols hcount fun hfit => hover ⟨?_, ?_⟩)
  · rw [MessagesFit, if_neg (by decide), if_pos rfl]
    exact hfit.1
  · intro _ raw' hraw'
    obtain rfl := Except.ok.inj (hraw.symm.trans hraw')
    rw [if_neg (by decide)]
    exact hfit.2

/-! ### Envelopes that cannot be read -/

theorem decodeTypedPayloads_unreadable (hc : c.Lossless) (htyped : isTypedCodec codec = true)
    (hstored : stored = codec ∨ codec = codecRichTemplate ∧ stored = codecRichColumnar)
    (hrich : isRichCodec codec = true) (hraw : rawMetadata js entries codec = .ok raw)
    (h : encodeMetadata c entries codec raw level = .ok col) (hfit : MetadataFits js stored entries)
    (hread : ∃ e ∈ entries, ¬Readable js e) :
    ∃ err, decodeTypedPayloads c js stored .all col entries.length = .error err := by
  have hcodec : codec = codecRichColumnar ∨ codec = codecRichTemplate := by
    simp only [isTypedCodec, isRichCodec, List.contains_eq_mem, List.mem_cons, List.not_mem_nil,
      or_false, decide_eq_true_eq] at htyped hrich
    rcases htyped with rfl | rfl | rfl | rfl
    · exact absurd hrich (by decide)
    · exact absurd hrich (by decide)
    · exact .inl rfl
    · exact .inr rfl
  have hstored : stored = codecRichColumnar ∨ stored = codecRichTemplate := by
    rcases hstored with rfl | ⟨-, rfl⟩
    · exact hcodec
    · exact .inl rfl
  have h5 : codec ≠ codecColumnarV2 := by
    rcases hcodec with rfl | rfl <;> decide
  have hfacts : isRichCodec stored = true ∧ isRawCodec stored = false ∧ stored ≠ codecColumnarV2 := by
    rcases hstored with rfl | rfl <;> decide
  have hcap := hfit hfacts.2.1 raw (by rw [rawMetadata_congr (hfacts.1.trans hrich.symm), hraw])
  rw [if_neg hfacts.2.2] at hcap
  rw [encodeMetadata, if_neg h5] at h
  rw [rawMetadata, if_pos hrich] at hraw
  have hzstd : zstdDecompress c col "rich metadata column" = .ok raw := zstd_roundtrip hc h _ hcap
  rw [decodeTypedPayloads, hfacts.1, if_pos (by rfl), hzstd, ok_bind]
  exact bind_error _ (parseRich_unreadable hread hraw)

theorem plainPayloads_unreadable (hplain : isRawCodec codec = true ∨ codec = codecZstd)
    (hrich : isRichCodec codec = true) (hraw : rawMetadata js entries codec = .ok raw)
    (hread : ∃ e ∈ entries, ¬Readable js e) :
    ∃ err, plainPayloads js codec .all raw entries.length = .error err := by
  have hcodec : codec = codecRichRaw := by
    simp only [isRawCodec, Bool.or_eq_true, beq_iff_eq] at hplain
    rcases hplain with (rfl | rfl) | rfl
    · exact absurd hrich (by decide)
    · rfl
    · exact absurd hrich (by decide)
  subst hcodec
  rw [rawMetadata, if_pos hrich] at hraw
  obtain ⟨err, herr⟩ := parseRich_unreadable hread hraw
  rw [plainPayloads, if_pos (by rfl), herr]
  exact ⟨err, rfl⟩

variable (h : BlockStored c js entries codec level bytes m cols)

include h

theorem BlockStored.readBlock_over
    (hcount : ¬entries.length ≤ maxBlockEntries) : ∃ err, Reader.run bytes readBlock = .error err := by
  rw [h.bytes_eq_append]
  refine Fails.run ?_
  refine (reads_version _).bind_fails ?_
  refine (reads_u8 _ _ _).bind_fails ?_
  refine (reads_rejectIf (by simp [h.message_stored.known]) _ _).bind_nil_fails ?_
  exact (h.fails_framing (not_le.mp hcount) _).bind _

theorem BlockStored.eq_of_readBlock
    {out : UInt8 × Framing × Columns} (hout : Reader.run bytes readBlock = .ok out) :
    out = (m.codec, m.framing cols, cols) := by
  by_cases hcount : entries.length ≤ maxBlockEntries
  · exact Except.ok.inj (hout.symm.trans (h.run_readBlock hcount))
  · obtain ⟨err, herr⟩ := h.readBlock_over hcount
    rw [herr] at hout
    cases hout

variable (hc : c.Lossless)

include hc

/-- **Over a cap.** A written block over one of the decoder's caps is refused. -/
theorem BlockStored.decodeBlock_over (hover : ¬BlockFits c js entries m.codec level) :
    ∃ err, decodeBlock c js bytes = .error err := by
  by_cases hcount : entries.length ≤ maxBlockEntries
  · have hcols : ¬(MessagesFit c m.codec (entries.map LogEntry.message) level ∧
        MetadataFits js m.codec entries) := fun hfit => hover ⟨hcount, hfit.1, hfit.2⟩
    simp only [decodeBlock, decodeBlockProjected, h.run_readBlock hcount, ok_bind]
    cases htyped : isTypedCodec codec with
    | true =>
        obtain ⟨hstored, herr⟩ := h.typed_over hc htyped hcols
        rw [if_pos hstored]
        exact herr
    | false =>
        obtain ⟨hstored, herr⟩ := h.plain_over hc htyped hcount hcols
        rw [if_neg (by simp [hstored, htyped])]
        exact herr
  · exact bind_error _ (h.readBlock_over hcount)

/-- **Unreadable.** A written rich block with an envelope that cannot be read is refused. -/
theorem BlockStored.decodeBlock_unreadable
    (hfit : BlockFits c js entries m.codec level) (hrich : isRichCodec codec = true)
    (hread : ∃ e ∈ entries, ¬Readable js e) : ∃ err, decodeBlock c js bytes = .error err := by
  simp only [decodeBlock, decodeBlockProjected, h.run_readBlock hfit.count, ok_bind]
  cases htyped : isTypedCodec codec with
  | true =>
      obtain ⟨raw, hraw, hmd, hmsg, hts, hlvl⟩ := h.typed_columns hc htyped
      have hcodec := encodeMessages_codec hmsg
      have hmsg' := decodeTypedMessages_ok hc htyped hmsg hfit.messages
      rw [List.length_map] at hmsg'
      have hstored : isTypedCodec m.codec = true := by
        rcases hcodec with heq | ⟨-, heq⟩
        · rw [heq]
          exact htyped
        · rw [heq]
          rfl
      rw [if_pos hstored]
      simp only [decodeBlockTyped, h.framing_eq, hts, hlvl, checkLevels_ok h.level_bytes, hmsg',
        ok_bind]
      exact bind_error _ (decodeTypedPayloads_unreadable hc htyped hcodec hrich hraw hmd
        hfit.metadata hread)
  | false =>
      obtain ⟨raw, hraw, hcols, hcodec⟩ := h.plain_columns htyped
      have hplain := h.plain_codec htyped
      rw [hcodec] at hfit ⊢
      rw [if_neg (by simp [htyped])]
      have hcolumns := plainColumns_ok hc hraw hcols hfit
      have hts := plainTimestamps_ok hplain (entries.map LogEntry.ts)
      have hmsgs := plainMessages_back hcols
      rw [List.length_map] at hts
      simp only [decodeBlockLegacy, h.framing_eq, hcolumns, hts, checkLevels_ok h.level_bytes,
        hmsgs, ok_bind, List.length_map, ne_eq, not_true_eq_false, rejectIf_false]
      exact bind_error _ (plainPayloads_unreadable hplain hrich hraw hread)

/-- A written block is read exactly if it is within the caps and its envelopes can be read. -/
theorem BlockStored.decodeBlock_iff {es : List LogEntry} :
    decodeBlock c js bytes = .ok es ↔ BlockFits c js entries m.codec level ∧
      EnvelopesReadable js codec entries ∧ es = entries.map (readBack js codec) := by
  by_cases hfit : BlockFits c js entries m.codec level
  swap
  · obtain ⟨err, herr⟩ := h.decodeBlock_over hc hfit
    simp [herr, hfit]
  by_cases hread : EnvelopesReadable js codec entries
  · rw [h.decodeBlock_readBack hc hfit hread]
    simp [hfit, hread, eq_comm]
  · have hno := hread
    rw [EnvelopesReadable] at hno
    push Not at hno
    obtain ⟨hrich, hno⟩ := hno
    obtain ⟨err, herr⟩ := h.decodeBlock_unreadable hc hfit hrich hno
    simp [herr, hread]

/-- With stable envelopes it is read exactly if it is within the caps. -/
theorem BlockStored.decodes_iff
    (hst : isRichCodec codec = true → ∀ e ∈ entries, EnvelopeStable js e)
    {es : List LogEntry} :
    decodeBlock c js bytes = .ok es ↔
      BlockFits c js entries m.codec level ∧ es = entries.map (readAs js codec) := by
  rw [h.decodeBlock_iff hc, map_readBack hst]
  simp [envelopesReadable_of_stable hst]

end

/-! ### Template columns -/

/-- **Template columns.** In either mode every message is its template filled with its variables, and
the decoder returns the messages exactly if the templates and the string variables are within its cap;
a column over the cap is an error. -/
theorem decodeTemplateStr_iff (hc : c.Lossless) {msgs : List Text} {splitRuns : Bool} {level : Int}
    {bytes : List UInt8} (h : encodeMode c msgs splitRuns level = .ok bytes) :
    (∀ msg ∈ msgs,
        fillTemplate (tokenize msg splitRuns).1 (tokenize msg splitRuns).2 = .ok msg) ∧
      (decodeTemplateStr c bytes msgs.length = .ok msgs ↔ TemplateFits msgs splitRuns) ∧
      (¬TemplateFits msgs splitRuns →
        ∃ err, decodeTemplateStr c bytes msgs.length = .error err) := by
  have hover (hfit : ¬TemplateFits msgs splitRuns) :
      ∃ err, decodeTemplateStr c bytes msgs.length = .error err :=
    bind_error _ (readTemplate_over hc h hfit)
  refine ⟨fun msg _ => fillTemplate_tokenize msg splitRuns, ⟨fun hback => ?_, fun hfit => ?_⟩, hover⟩
  · by_contra hfit
    obtain ⟨err, herr⟩ := hover hfit
    rw [hback] at herr
    cases herr
  · exact decodeTemplateStr_encodeMode hc h hfit

/-- Zero-padded numbers, a hexadecimal token and a sentinel. -/
theorem decodeTemplateStr_iff_padded : ∃ bytes,
    encodeMode .storing ["at 007".toList, "id deadbeef01 at 11".toList, [sentinel]] true 3 =
      .ok bytes ∧
    decodeTemplateStr .storing bytes 3 =
      .ok ["at 007".toList, "id deadbeef01 at 11".toList, [sentinel]] := by
  have hencoded : (encodeMode .storing
      ["at 007".toList, "id deadbeef01 at 11".toList, [sentinel]] true 3).isOk = true := by
    decide +kernel
  cases hbytes : encodeMode .storing
      ["at 007".toList, "id deadbeef01 at 11".toList, [sentinel]] true 3 with
  | error err =>
      rw [hbytes] at hencoded
      cases hencoded
  | ok bytes =>
      exact ⟨bytes, rfl, (decodeTemplateStr_iff Compressors.storing_lossless hbytes).2.1.mpr
        (by decide +kernel)⟩

/-- A text without token characters is a template without variables. -/
theorem tokenize_plain {msg : Text} (h : ∀ ch ∈ msg, tokenChar ch = false ∧ ch ≠ sentinel)
    (splitRuns : Bool) : tokenize msg splitRuns = (msg, []) := by
  have hpieces : ∀ (ps : List Text) (acc : Text), (∀ p ∈ ps, ∀ ch ∈ p, ch ∈ msg) →
      ps.foldl (tokenizePiece splitRuns) (acc, []) = (acc ++ ps.flatten, []) := by
    intro ps
    induction ps with
    | nil => simp
    | cons p ps ih =>
        intro acc hps
        rw [List.forall_mem_cons] at hps
        have hplain : tokenizePiece splitRuns (acc, []) p = (acc ++ p, []) := by
          rw [tokenizePiece, if_neg, if_neg]
          · simp only [List.any_eq_true, not_exists, not_and, Bool.not_eq_true]
            exact fun ch hch => (h ch (hps.1 ch hch)).1
          · rintro rfl
            exact (h _ (hps.1 _ List.mem_cons_self)).2 rfl
        rw [List.foldl_cons, hplain, ih _ hps.2, List.flatten_cons, List.append_assoc]
  rw [tokenize, hpieces _ []]
  · rw [pieces, List.flatten_splitBy, List.nil_append]
  · intro p hp ch hch
    have hflat := List.mem_flatten.mpr ⟨p, hp, hch⟩
    rwa [pieces, List.flatten_splitBy] at hflat

theorem exists_bind_ok {α β : Type} {x : Except String α} {f : α → Except String β} {a : α}
    (hx : x = .ok a) (hf : ∃ b, f a = .ok b) : ∃ b, (x >>= f) = .ok b := by
  rw [hx]
  exact hf

/-- A single message that is its own template can be written. -/
theorem encodeMode_single {t : Text} (htokens : tokenizeBlock [t] true = ⟨[0], [t], [[]]⟩)
    (hlen : (utf8 t).length + 9 ≤ u32Max) : ∃ bytes, encodeMode .storing [t] true 3 = .ok bytes := by
  have hdict : encodeStr .storing [t] 1 3 = .ok ⟨encStrZstd, lenPrefixed t⟩ := by
    have hshort : ¬u32Max < (utf8 t).length := by omega
    simp [encodeStr, dictWorthy, sampleLen, concatPrefixed, hshort, zstdCompress,
      Compressors.storing, Except.mapError]
  have hsize : (lenPrefixed t).length = (utf8 t).length + 4 := by
    rw [lenPrefixed, List.length_append, length_leBytes, Nat.add_comm]
  have hbytes : ColumnEnc.toBytes ⟨encStrZstd, lenPrefixed t⟩ =
      .ok (encStrZstd :: (leBytes 4 (lenPrefixed t).length ++ lenPrefixed t)) :=
    toBytes_eq_ok.mpr ⟨by dsimp only; omega, rfl⟩
  have hcol : (encStrZstd :: (leBytes 4 (lenPrefixed t).length ++ lenPrefixed t)).length ≤ u32Max := by
    rw [List.length_cons, List.length_append, length_leBytes]
    omega
  have hcounts : orderedVars ⟨[0], [t], [[]]⟩ = [] := rfl
  rw [encodeMode, htokens, hcounts]
  refine exists_bind_ok (a := []) rfl ?_
  refine exists_bind_ok (a := ⟨2, [0, 0, 0, 0, 0, 0, 0, 0]⟩) rfl (exists_bind_ok rfl ?_)
  refine exists_bind_ok hdict (exists_bind_ok hbytes ?_)
  refine exists_bind_ok (a := ⟨8, []⟩) rfl (exists_bind_ok rfl ?_)
  refine exists_bind_ok (a := ⟨2, []⟩) rfl (exists_bind_ok rfl ?_)
  refine exists_bind_ok (a := ⟨6, []⟩) rfl (exists_bind_ok rfl ?_)
  refine exists_bind_ok (rejectIf_neg (by simp [u32Max]) _) ?_
  refine exists_bind_ok (rejectIf_neg (by simp) _) ?_
  refine exists_bind_ok (rejectIf_neg (by simp [strColumn]) _) ?_
  refine exists_bind_ok (rejectIf_neg ?_ _) ⟨_, rfl⟩
  generalize encStrZstd :: (leBytes 4 (lenPrefixed t).length ++ lenPrefixed t) = col at hcol
  simp only [List.any_cons, List.any_nil, Bool.or_false, Bool.or_eq_true, decide_eq_true_eq, not_or,
    not_lt]
  exact ⟨by decide, hcol, by decide, by decide, by decide⟩

/-- A message of `n` spaces. -/
def spaces (n : Nat) : Text := List.replicate n ' '

theorem length_utf8_spaces (n : Nat) : (utf8 (spaces n)).length = n := by
  rw [spaces, utf8]
  induction n with
  | zero => rfl
  | succ n ih =>
      have hone : (String.utf8EncodeChar ' ').length = 1 := by decide
      rw [List.replicate_succ, List.flatMap_cons, List.length_append, ih, hone, Nat.add_comm]

theorem tokenizeBlock_spaces (n : Nat) :
    tokenizeBlock [spaces n] true = ⟨[0], [spaces n], [[]]⟩ := by
  rw [tokenizeBlock, List.foldl_cons, List.foldl_nil, tokenizeMsg, tokenize_plain]
  · rfl
  · intro ch hch
    rw [List.eq_of_mem_replicate hch]
    decide

theorem templateFits_spaces (n : Nat) :
    TemplateFits [spaces n] true → n + 4 ≤ decompressMaxBytes := by
  rintro ⟨hdict, -⟩
  rw [tokenizeBlock_spaces, StrColumnFits, if_neg (by simp [usesDict, dictWorthy, sampleLen])] at hdict
  rw [List.flatMap_cons, List.flatMap_nil, List.append_nil, lenPrefixed, List.length_append,
    length_leBytes, length_utf8_spaces] at hdict
  omega

/-- A message of 64 MiB is written as a column that the decoder refuses. -/
theorem decodeTemplateStr_refuses_spaces : ∃ bytes,
    encodeMode .storing [spaces decompressMaxBytes] true 3 = .ok bytes ∧
      ∃ err, decodeTemplateStr .storing bytes 1 = .error err := by
  obtain ⟨bytes, hbytes⟩ := encodeMode_single (tokenizeBlock_spaces decompressMaxBytes)
    (by rw [length_utf8_spaces]; decide)
  refine ⟨bytes, hbytes, (decodeTemplateStr_iff Compressors.storing_lossless hbytes).2.2 fun hfit => ?_⟩
  have := templateFits_spaces _ hfit
  omega

end Timeless.Blocks
