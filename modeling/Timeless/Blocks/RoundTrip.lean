import Timeless.Blocks.Caps

/-!
# RoundTrip — what a block gives back

The decoder is meant to be the inverse of the encoder. For a written block within the decoder's caps
it is, except that the encoder takes any text as a severity and the decoder only the known ones, and
that the JSON of an entry is parsed and printed once more on the way out.

* `decodeBlock_roundTrip_iff`: the entries come back in their normal form exactly if the severities
  are known and the canonical JSON is a fixed point of the canonical form.
-/

namespace Timeless.Blocks

open Support Codec

variable {c : Compressors} {N : Type} {js : SerdeJson N}

/-! ### The normal form -/

/-- The pairs that the stored JSON of an entry shows. -/
def storedPairs (js : SerdeJson N) (e : LogEntry) : Pairs :=
  (metadataPairsFromJson js (storedJson js e)).toOption.getD []

/-- An entry as a block of a codec is to give it back: rich ones with the name of their severity,
canonical JSON and its string projection. -/
def normalForm (js : SerdeJson N) (codec : UInt8) (e : LogEntry) : LogEntry :=
  if isRichCodec codec then
    { e with
      severity := some e.severityName
      metadata := storedPairs js e
      metadataJson := some (storedJson js e) }
  else e

/-- The severity is a known one and the canonical JSON stays as it is when it is made canonical
again. -/
structure Invertible (js : SerdeJson N) (e : LogEntry) : Prop where
  severity : ∃ name, canonicalSeverity e.severityName = .ok name
  canonical : canonicalMetadataJson js (storedJson js e) = .ok (storedJson js e)

theorem pairs_of_canonical {json canonical : Text}
    (h : canonicalMetadataJson js json = .ok canonical) :
    ∃ pairs, metadataPairsFromJson js json = .ok pairs := by
  obtain ⟨value, hvalue, h⟩ := of_bind h
  rw [metadataPairsFromJson, hvalue, ok_bind]
  cases value with
  | object fields => exact ⟨_, rfl⟩
  | _ => cases h

theorem readEnvelope_iff {e : LogEntry} :
    (Readable js e ∧ enveloped js e = ⟨e.severityName, storedPairs js e, storedJson js e⟩) ↔
      Invertible js e := by
  constructor
  · rintro ⟨hread, heq⟩
    obtain ⟨name, hname, hread⟩ := of_bind hread
    obtain ⟨json, hcanon, hread⟩ := of_bind hread
    obtain ⟨pairs, hpairs, hread⟩ := of_bind hread
    rw [heq] at hread
    obtain ⟨-, -, rfl⟩ := RichMetadata.mk.inj (Except.ok.inj hread)
    exact ⟨⟨name, hname⟩, hcanon⟩
  · rintro ⟨⟨name, hname⟩, hcanon⟩
    obtain ⟨pairs, hpairs⟩ := pairs_of_canonical hcanon
    refine readable_of_ok ?_
    rw [readEnvelope, hname, ok_bind, hcanon, ok_bind, hpairs, ok_bind, storedPairs, hpairs]
    rfl

theorem openedEntry_eq_iff {e : LogEntry} {codec : UInt8} (hrich : isRichCodec codec = true) :
    readBack js codec e = normalForm js codec e ↔
      enveloped js e = ⟨e.severityName, storedPairs js e, storedJson js e⟩ := by
  rw [readBack, if_pos hrich, normalForm, if_pos hrich]
  constructor
  · intro h
    obtain ⟨-, -, hsev, -, hpairs, hjson⟩ := LogEntry.mk.inj h
    exact congr (congrArg₂ RichMetadata.mk (Option.some.inj hsev) hpairs) (Option.some.inj hjson)
  · intro h
    rw [openedEntry, h]

/-! ### Blocks -/

/-- What the metadata of a block says of its entries. -/
structure BlockMeta.Describes (m : BlockMeta) (entries : List LogEntry) (codec : UInt8) : Prop where
  count : m.entryCount = entries.length
  range : ∀ e ∈ entries, m.tsMin ≤ e.ts ∧ e.ts ≤ m.tsMax
  first : ∃ e ∈ entries, e.ts = m.tsMin
  last : ∃ e ∈ entries, e.ts = m.tsMax
  codec_eq : m.codec = codec ∨ codec = codecRichTemplate ∧ m.codec = codecRichColumnar

section

variable {entries : List LogEntry} {codec : UInt8} {level : Int} {bytes : List UInt8}
  {m : BlockMeta}

theorem BlockStored.describes {cols : Columns}
    (h : BlockStored c js entries codec level bytes m cols) (hc : c.Lossless) :
    m.Describes entries codec := by
  have hne : entries.map LogEntry.ts ≠ [] := by simpa using h.nonempty
  obtain ⟨lo, hlo, hmin⟩ := List.mem_map.mp (tsMinOf_mem hne)
  obtain ⟨hi, hhi, hmax⟩ := List.mem_map.mp (tsMaxOf_mem hne)
  have hm := h.meta_eq
  refine ⟨h.entryCount_eq, fun e he => ?_, ⟨lo, hlo, ?_⟩, ⟨hi, hhi, ?_⟩, ?_⟩
  · rw [hm]
    exact ⟨tsMinOf_le (List.mem_map_of_mem he), le_tsMaxOf (List.mem_map_of_mem he)⟩
  · rw [hm, hmin]
  · rw [hm, hmax]
  · cases htyped : isTypedCodec codec with
    | true =>
        obtain ⟨-, -, -, hmsg, -⟩ := h.typed_columns hc htyped
        exact encodeMessages_codec hmsg
    | false =>
        obtain ⟨raw, -, hcols⟩ := h.columns
        rw [encodeColumns, if_neg (by simp [htyped])] at hcols
        cases hcases : encodePlain c entries codec raw level with
        | error err => simp [hcases, Except.map] at hcols
        | ok cols' =>
            simp only [hcases, Except.map, Except.ok.injEq, Prod.mk.injEq] at hcols
            exact .inl hcols.1.symm

/-- **Round trip.** A written block within the decoder's caps is described by its metadata, and it is
decoded to the normal form of its entries exactly if they are invertible. -/
theorem decodeBlock_roundTrip_iff (hc : c.Lossless)
    (h : encodeBlock c js entries codec level = .ok (bytes, m))
    (hfit : BlockFits c js entries m.codec level) :
    m.Describes entries codec ∧
      (decodeBlock c js bytes = .ok (entries.map (normalForm js codec)) ↔
        (isRichCodec codec = true → ∀ e ∈ entries, Invertible js e)) := by
  obtain ⟨cols, hst⟩ := encodeBlock_ok h
  refine ⟨hst.describes hc, ?_⟩
  rw [hst.decodeBlock_iff hc]
  cases hrich : isRichCodec codec with
  | false =>
      have hsame : entries.map (normalForm js codec) = entries.map (readBack js codec) := by
        refine List.map_congr_left fun e _ => ?_
        rw [normalForm, readBack, if_neg (by simp [hrich]), if_neg (by simp [hrich])]
      simp [hfit, hsame, EnvelopesReadable, hrich]
  | true =>
      have hboth : ∀ e ∈ entries, (Readable js e ∧ normalForm js codec e = readBack js codec e ↔
          Invertible js e) := by
        intro e _
        rw [eq_comm, openedEntry_eq_iff hrich, readEnvelope_iff]
      rw [List.map_inj_left, EnvelopesReadable]
      simp only [hrich, true_implies]
      constructor
      · rintro ⟨-, hread, hsame⟩ e he
        exact (hboth e he).mp ⟨hread e he, hsame e he⟩
      · intro hinv
        exact ⟨hfit, fun e he => ((hboth e he).mpr (hinv e he)).1,
          fun e he => ((hboth e he).mpr (hinv e he)).2⟩

end

/-- An entry with a severity of its own. -/
def severeEntry (severity : String) : LogEntry :=
  ⟨5, 1, some severity.toList, "disk is full".toList, [], none⟩

/-- A severity of its own, the name of the level, and none. -/
def threeEntries : List LogEntry :=
  [severeEntry "notice", severeEntry "info", plainEntry 9 "disk is empty".toList]

theorem decodeBlock_roundTrip_three : ∃ bytes m,
    encodeBlock .storing emptyObjectJson threeEntries codecRichRaw 7 = .ok (bytes, m) ∧
      m.Describes threeEntries codecRichRaw ∧
      (decodeBlock .storing emptyObjectJson bytes =
          .ok (threeEntries.map (normalForm emptyObjectJson codecRichRaw)) ↔
        (isRichCodec codecRichRaw = true → ∀ e ∈ threeEntries, Invertible emptyObjectJson e)) :=
  ⟨_, _, rfl, decodeBlock_roundTrip_iff Compressors.storing_lossless
    (rfl : encodeBlock _ emptyObjectJson _ _ 7 = .ok (_, _)) (blockFits_of_raw rfl (by decide) _)⟩

/-- A severity that is not a known one is written, and the block cannot be read any more. -/
theorem decodeBlock_refuses_severity : ∃ bytes m,
    encodeBlock .storing emptyObjectJson [severeEntry "fatal"] codecRichRaw 7 = .ok (bytes, m) ∧
      BlockFits .storing emptyObjectJson [severeEntry "fatal"] m.codec 7 ∧
      decodeBlock .storing emptyObjectJson bytes = .error
        "block: entry 0: unknown log level \"fatal\"; expected one of: debug, info, notice, warning, warn, error, critical, alert, emergency" :=
  ⟨_, _, rfl, blockFits_of_raw rfl (by decide) _, by decide +kernel⟩

end Timeless.Blocks
