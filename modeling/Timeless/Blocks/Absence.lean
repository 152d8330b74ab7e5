import Timeless.Blocks.Scan

/-!
# Absence — what a negative feasibility answer proves

Before a block is decoded for a `message_contains` filter, `blockMessageFeasible` may rule it out.
For every codec that scans the message text itself the answer `false` is right: no message of the
block contains the needle (`scan_sound`). For template columns it is right but for one kind of
needle, one with an inner run of more than 19 digits that the block keeps as a number: numbers are
stored up to 255 digits wide, and the check looks among them only for runs of at most 19.

* `feasible_false_iff`: on a block with a matching message, when the answer is `false`.
* `absence_iff`: a negative answer is a proof of absence exactly if the needle is not overlooked.
-/

namespace Timeless.Blocks

open Support Codec

variable {c : Compressors} {N : Type} {js : SerdeJson N} {msgs : List Text}

/-! ### Message columns -/

/-- How a message column is stored, by the codec in the header. -/
inductive MessageStored (c : Compressors) (msgs : List Text) (level : Int) :
    (requested stored : UInt8) → (col : List UInt8) → Prop where
  | raw {codec : UInt8} (hcodec : isRawCodec codec = true) :
      MessageStored c msgs level codec codec (msgs.flatMap lenPrefixed)
  | zstd {col : List UInt8} (hz : zstdCompress c (msgs.flatMap lenPrefixed) level = .ok col) :
      MessageStored c msgs level codecZstd codecZstd col
  | typed {codec stored : UInt8} {col : List UInt8} {e : ColumnEnc}
      (hstored : stored ∈ [codecColumnar, codecColumnarV2, codecRichColumnar])
      (he : encodeStr c msgs msgs.length level = .ok e) (hb : e.toBytes = .ok col)
      (hlost : codec = codecRichTemplate → ∃ tpl, encodeTemplateStr c msgs level = .ok tpl ∧
        col.length ≤ tpl.length) : MessageStored c msgs level codec stored col
  | template {col strCol : List UInt8} {e : ColumnEnc}
      (he : encodeStr c msgs msgs.length level = .ok e) (hb : e.toBytes = .ok strCol)
      (htpl : encodeTemplateStr c msgs level = .ok col) (hlt : col.length < strCol.length) :
      MessageStored c msgs level codecRichTemplate codecRichTemplate col

variable {codec stored : UInt8} {level : Int} {col : List UInt8} {needle msg : Text}
  {entries : List LogEntry}

/-- The codecs of string columns are none of the others. -/
theorem typed_codec (h : stored ∈ [codecColumnar, codecColumnarV2, codecRichColumnar]) :
    stored ≠ codecRichTemplate ∧ ¬(isRawCodec stored = true) ∧ stored ≠ codecZstd := by
  simp only [List.mem_cons, List.not_mem_nil, or_false] at h
  rcases h with rfl | rfl | rfl <;> decide

theorem encodeMessages_stored (htyped : isTypedCodec codec = true)
    (h : encodeMessages c codec msgs level = .ok (stored, col)) :
    MessageStored c msgs level codec stored col := by
  obtain ⟨e, he, h⟩ := of_bind h
  obtain ⟨strCol, hb, h⟩ := of_bind h
  split_ifs at h with h8
  · subst h8
    obtain ⟨tpl, htpl, h⟩ := of_bind h
    split_ifs at h with hlt
    · obtain ⟨rfl, rfl⟩ := Prod.mk.inj (Except.ok.inj h)
      exact .template he hb htpl hlt
    · obtain ⟨rfl, rfl⟩ := Prod.mk.inj (Except.ok.inj h)
      exact .typed (by simp) he hb fun _ => ⟨tpl, htpl, not_lt.mp hlt⟩
  · obtain ⟨rfl, rfl⟩ := Prod.mk.inj (Except.ok.inj h)
    have hmem : codec ∈ [codecColumnar, codecColumnarV2, codecRichColumnar] := by
      simp only [isTypedCodec, List.contains_eq_mem, List.mem_cons, List.not_mem_nil, or_false,
        decide_eq_true_eq] at htyped ⊢
      tauto
    exact .typed hmem he hb fun heq => absurd heq h8

theorem encodePlain_stored {codec : UInt8} {raw : List UInt8} {cols : Columns}
    (hknown : knownCodec codec = true) (htyped : isTypedCodec codec = false)
    (h : encodePlain c entries codec raw level = .ok cols) :
    MessageStored c (entries.map LogEntry.message) level codec codec cols.message := by
  obtain ⟨msg, hmsg, h⟩ := of_bind h
  obtain ⟨-, rfl⟩ := concatPrefixed_eq_ok.mp hmsg
  split_ifs at h with hz
  · subst hz
    obtain ⟨ts, -, h⟩ := of_bind h
    obtain ⟨lvl, -, h⟩ := of_bind h
    obtain ⟨col, hcol, h⟩ := of_bind h
    obtain ⟨md, -, rfl⟩ := bind_pure_eq_ok.mp h
    exact .zstd hcol
  · obtain ⟨rfl⟩ := Except.ok.inj h
    have hraw : isRawCodec codec = true := by
      simp only [knownCodec, isTypedCodec, isRawCodec, List.contains_eq_mem, List.mem_cons,
        List.not_mem_nil, or_false, decide_eq_true_eq, decide_eq_false_iff_not, Bool.or_eq_true,
        beq_iff_eq] at hknown htyped ⊢
      tauto
    exact .raw hraw

theorem BlockStored.message_stored {codec : UInt8} {bytes : List UInt8} {m : BlockMeta}
    {cols : Columns} (h : BlockStored c js entries codec level bytes m cols) :
    MessageStored c (entries.map LogEntry.message) level codec m.codec cols.message := by
  obtain ⟨raw, -, hcols⟩ := h.columns
  rw [encodeColumns] at hcols
  split_ifs at hcols with htyped
  · obtain ⟨md, -, hcols⟩ := of_bind hcols
    obtain ⟨⟨stored, col⟩, hmsg, hcols⟩ := of_bind hcols
    obtain ⟨ts, -, hcols⟩ := of_bind hcols
    obtain ⟨tsCol, -, hcols⟩ := of_bind hcols
    obtain ⟨lvl, -, hcols⟩ := of_bind hcols
    obtain ⟨lvlCol, -, hcols⟩ := of_bind hcols
    obtain ⟨hstored, rfl⟩ := Prod.mk.inj (Except.ok.inj hcols)
    rw [← hstored]
    exact encodeMessages_stored htyped hmsg
  · cases hplain : encodePlain c entries codec raw level with
    | error e => simp [hplain, Except.map] at hcols
    | ok cols' =>
        simp only [hplain, Except.map, Except.ok.injEq, Prod.mk.injEq] at hcols
        obtain ⟨hcodec, rfl⟩ := hcols
        rw [← hcodec]
        exact encodePlain_stored h.known (by simpa using htyped) hplain

/-! ### Scans -/

/-- A message of a concatenated column is found by scanning the column. -/
theorem scanContains_concat (hn : Checkable needle) (hmsg : msg ∈ msgs)
    (hin : ContainsLow msg needle) :
    scanContains needle (msgs.flatMap lenPrefixed) = true := by
  rw [scanContains_iff hn]
  refine List.IsInfix.trans hin ?_
  obtain ⟨as, bs, rfl⟩ := List.append_of_mem hmsg
  refine ⟨low (as.flatMap lenPrefixed ++ leBytes 4 (utf8 msg).length),
    low (bs.flatMap lenPrefixed), ?_⟩
  simp [lenPrefixed]

/-- **Scans are sound.** On a message column that is no template column, with a message that
contains the needle, the answer is never `false`. -/
theorem scan_sound (hc : c.Lossless) (h : MessageStored c msgs level codec stored col)
    (h8 : stored ≠ codecRichTemplate) (hn : Checkable needle) (hmsg : msg ∈ msgs)
    (hin : ContainsLow msg needle) :
    messageColumnFeasible c stored msgs.length col needle ≠ .ok false := by
  rw [messageColumnFeasible, if_neg h8]
  cases h with
  | raw hcodec =>
      rw [if_pos hcodec, scanContains_concat hn hmsg hin]
      simp
  | zstd hz =>
      rw [if_neg (by decide), if_pos rfl, zstdDecompress]
      by_cases hcap : (msgs.flatMap lenPrefixed).length ≤ decompressMaxBytes
      · rw [zstd_roundtrip hc hz _ hcap, Except.map, scanContains_concat hn hmsg hin]
        simp
      · obtain ⟨e, he⟩ := zstd_over hc hz "message column" (not_le.mp hcap)
        simp [he, Except.map]
  | typed hstored he hb _ =>
      obtain ⟨-, hraw, hzstd⟩ := typed_codec hstored
      rw [if_neg hraw, if_neg hzstd]
      by_cases hfit : StrColumnFits msgs
      · have hany : (msgs.any fun msg => scanContains needle (utf8 msg)) = true :=
          List.any_eq_true.mpr ⟨msg, hmsg, (scanContains_iff hn).mpr hin⟩
        rw [columnarMessageFeasible_eq hc he hb hfit, hany]
        simp
      · obtain ⟨e, herr⟩ := columnarMessageFeasible_over hc he hb hfit (scanContains needle)
        simp [herr]
  | template => exact absurd rfl h8

/-! ### Blocks -/

theorem MessageStored.known (h : MessageStored c msgs level codec stored col) :
    knownCodec stored = true := by
  cases h with
  | raw hcodec =>
      simp only [isRawCodec, Bool.or_eq_true, beq_iff_eq] at hcodec
      rcases hcodec with rfl | rfl <;> rfl
  | zstd => rfl
  | typed hstored =>
      simp only [List.mem_cons, List.not_mem_nil, or_false] at hstored
      rcases hstored with rfl | rfl | rfl <;> rfl
  | template => rfl

theorem encodeTemplateStr_ok {tpl : List UInt8} (h : encodeTemplateStr c msgs level = .ok tpl) :
    ∃ splitRuns, encodeMode c msgs splitRuns level = .ok tpl := by
  obtain ⟨split, hsplit, h⟩ := of_bind h
  obtain ⟨whole, hwhole, rfl⟩ := bind_pure_eq_ok.mp h
  split_ifs
  · exact ⟨true, hsplit⟩
  · exact ⟨false, hwhole⟩

/-- A template column was written in one of the two modes. -/
theorem MessageStored.template_mode (h : MessageStored c msgs level codec stored col)
    (h8 : stored = codecRichTemplate) :
    ∃ splitRuns, encodeMode c msgs splitRuns level = .ok col := by
  cases h with
  | raw hcodec => exact absurd (h8 ▸ hcodec) (by decide)
  | zstd => exact absurd h8 (by decide)
  | typed hmem =>
      subst h8
      exact absurd hmem (by decide)
  | template _ _ htpl _ => exact encodeTemplateStr_ok htpl

/-- The messages are kept as templates, in digit-run or whole-token mode: that column is smaller
than the string column. -/
def KeptAsTemplates (c : Compressors) (msgs : List Text) (level : Int) (splitRuns : Bool) : Prop :=
  ∃ tpl e strCol, encodeTemplateStr c msgs level = .ok tpl ∧
    encodeMode c msgs splitRuns level = .ok tpl ∧
    encodeStr c msgs msgs.length level = .ok e ∧ e.toBytes = .ok strCol ∧
    tpl.length < strCol.length

/-- A column is stored as templates exactly if this was requested and kept. -/
theorem MessageStored.kept_iff (h : MessageStored c msgs level codec stored col) {splitRuns : Bool} :
    codec = codecRichTemplate ∧ KeptAsTemplates c msgs level splitRuns ↔
      stored = codecRichTemplate ∧ encodeMode c msgs splitRuns level = .ok col := by
  cases h with
  | raw hcodec =>
      refine iff_of_false ?_ ?_ <;> rintro ⟨rfl, -⟩ <;> exact absurd hcodec (by decide)
  | zstd => exact iff_of_false (fun hno => absurd hno.1 (by decide)) fun hno => absurd hno.1 (by decide)
  | typed hmem he' hb' hlost =>
      refine iff_of_false ?_ ?_
      · rintro ⟨rfl, tpl, e, strCol, htpl, -, he, hb, hlt⟩
        obtain ⟨tpl', htpl', hle⟩ := hlost rfl
        obtain ⟨rfl⟩ := Except.ok.inj (htpl.symm.trans htpl')
        obtain ⟨rfl⟩ := Except.ok.inj (he.symm.trans he')
        obtain ⟨rfl⟩ := Except.ok.inj (hb.symm.trans hb')
        exact absurd hle (not_le.mpr hlt)
      · rintro ⟨rfl, -⟩
        exact absurd hmem (by decide)
  | template he hb htpl hlt =>
      constructor
      · rintro ⟨-, tpl, _, _, htpl', hmode, -⟩
        obtain ⟨rfl⟩ := Except.ok.inj (htpl.symm.trans htpl')
        exact ⟨rfl, hmode⟩
      · rintro ⟨-, hmode⟩
        exact ⟨rfl, _, _, _, htpl, hmode, he, hb, hlt⟩

/-- The template column is read within the caps, the needle is not settled as confined to one
token, and one of its inner runs is overlooked. -/
def TemplateOverlooks (msgs : List Text) (splitRuns : Bool) (needle : Text) : Prop :=
  TemplateFits msgs splitRuns ∧ (!splitRuns && tokenConfinedMixed (utf8 needle)) = false ∧
    OverlooksRun msgs splitRuns needle

/-- **The answer on a matching column.** With a message that contains the needle the answer is
`false` exactly if the column is kept as templates and overlooks the needle. -/
theorem messageColumn_false_iff (hc : c.Lossless) (h : MessageStored c msgs level codec stored col)
    (hn : Checkable needle) (hmsg : msg ∈ msgs) (hin : ContainsLow msg needle) :
    messageColumnFeasible c stored msgs.length col needle = .ok false ↔
      codec = codecRichTemplate ∧ ∃ splitRuns, KeptAsTemplates c msgs level splitRuns ∧
        TemplateOverlooks msgs splitRuns needle := by
  by_cases h8 : stored = codecRichTemplate
  · rw [messageColumnFeasible, if_pos h8]
    constructor
    · intro hfalse
      obtain ⟨splitRuns, hmode⟩ := h.template_mode h8
      obtain ⟨hcodec, hkept⟩ := h.kept_iff.mpr ⟨h8, hmode⟩
      obtain ⟨hfit, -, hconf, hrun⟩ := (columnMayContain_false_iff hc hmode hmsg hin).mp hfalse
      exact ⟨hcodec, splitRuns, hkept, hfit, hconf, hrun⟩
    · rintro ⟨hcodec, splitRuns, hkept, hfit, hconf, hrun⟩
      obtain ⟨-, hmode⟩ := h.kept_iff.mp ⟨hcodec, hkept⟩
      exact (columnMayContain_false_iff hc hmode hmsg hin).mpr ⟨hfit, hn, hconf, hrun⟩
  · -- a scanned column: the answer is right, and the column is not kept as templates
    refine iff_of_false (scan_sound hc h h8 hn hmsg hin) ?_
    rintro ⟨hcodec, splitRuns, hkept, -⟩
    exact h8 (h.kept_iff.mp ⟨hcodec, hkept⟩).1

section

variable {entries : List LogEntry} {codec : UInt8} {level : Int} {bytes : List UInt8}
  {m : BlockMeta} {cols : Columns}

theorem BlockStored.run_readMessageColumn
    (h : BlockStored c js entries codec level bytes m cols)
    (hn : entries.length ≤ maxBlockEntries) :
    Reader.run bytes readMessageColumn = .ok (m.codec, entries.length, cols.message) := by
  have hbytes : bytes = ([formatVersion] ++ ([m.codec] ++ (framingBytes m cols ++
      (cols.ts ++ (cols.level ++ cols.message))))) ++ cols.metadata := by
    rw [h.bytes_eq_append]
    simp [Columns.toList]
  rw [hbytes, ← h.entryCount_eq]
  refine Reads.run_append ?_
  refine (reads_version _).bind ?_
  refine (reads_u8 _ _ _).bind ?_
  refine (reads_rejectIf (by simp [h.message_stored.known]) _ _).bind_nil ?_
  refine (h.reads_framing hn _).bind ?_
  refine (reads_take rfl _ _).bind ?_
  refine (reads_take rfl _ _).bind ?_
  exact (reads_take rfl _ _).map fun msg => (m.codec, m.entryCount, msg)

theorem BlockStored.run_readMessageColumn_over
    (h : BlockStored c js entries codec level bytes m cols)
    (hn : maxBlockEntries < entries.length) :
    ∃ err, Reader.run bytes readMessageColumn = .error err := by
  rw [h.bytes_eq_append]
  refine Fails.run ?_
  refine (reads_version _).bind_fails ?_
  refine (reads_u8 _ _ _).bind_fails ?_
  refine (reads_rejectIf (by simp [h.message_stored.known]) _ _).bind_nil_fails ?_
  exact (h.fails_framing hn _).bind _

/-- A needle the check gets wrong on a block of these entries: the block is stored as templates,
some inner run of the needle has more than 19 digits but is no maximal digit run of a string
variable, and a message contains the needle. -/
structure Overlooked (c : Compressors) (entries : List LogEntry) (codec : UInt8) (level : Int)
    (needle : Text) : Prop where
  codec_eq : codec = codecRichTemplate
  count_le : entries.length ≤ maxBlockEntries
  checkable : Checkable needle
  contained : ∃ msg ∈ entries.map LogEntry.message, ContainsLow msg needle
  column : ∃ splitRuns, KeptAsTemplates c (entries.map LogEntry.message) level splitRuns ∧
    TemplateOverlooks (entries.map LogEntry.message) splitRuns needle

variable {needle : Text}

theorem blockMessageFeasible_checkable (hn : Checkable needle) :
    blockMessageFeasible c bytes needle = (do
      let (codec, n, msg) ← Reader.run bytes readMessageColumn
      messageColumnFeasible c codec n msg needle) := by
  have hskip : (needle.isEmpty || !isAscii (utf8 needle)) = false := by
    rw [← utf8_isEmpty, hn.1, hn.2]
    rfl
  simp only [blockMessageFeasible, hskip, Bool.false_eq_true, if_false]

theorem blockMessageFeasible_unchecked (hn : ¬Checkable needle) :
    blockMessageFeasible c bytes needle = .ok true := by
  have hskip : (needle.isEmpty || !isAscii (utf8 needle)) = true := by
    by_contra hno
    rw [Bool.not_eq_true, Bool.or_eq_false_iff, Bool.not_eq_false'] at hno
    exact hn ⟨by rw [utf8_isEmpty]; exact hno.1, hno.2⟩
  simp only [blockMessageFeasible, hskip, if_true]
  rfl

/-- **The answer on a matching block.** With a message that contains the needle the answer is
`false` exactly if the needle is overlooked. -/
theorem feasible_false_iff (hc : c.Lossless) (h : BlockStored c js entries codec level bytes m cols)
    (hn : Checkable needle) (hmsg : msg ∈ entries.map LogEntry.message)
    (hin : ContainsLow msg needle) :
    blockMessageFeasible c bytes needle = .ok false ↔
      Overlooked c entries codec level needle := by
  rw [blockMessageFeasible_checkable hn]
  by_cases hcount : entries.length ≤ maxBlockEntries
  swap
  · obtain ⟨err, herr⟩ := h.run_readMessageColumn_over (not_le.mp hcount)
    rw [herr]
    exact iff_of_false (by simp) fun ho => hcount ho.count_le
  rw [h.run_readMessageColumn hcount, ok_bind]
  have hiff := messageColumn_false_iff hc h.message_stored hn hmsg hin
  rw [List.length_map] at hiff
  dsimp only
  rw [hiff]
  constructor
  · rintro ⟨h8, hcol⟩
    exact ⟨h8, hcount, hn, ⟨msg, hmsg, hin⟩, hcol⟩
  · intro ho
    exact ⟨ho.codec_eq, ho.column⟩

/-- **Absence.** For every block the encoder wrote and every needle, a negative answer proves that
no message contains the needle exactly if the needle is not overlooked. -/
theorem absence_iff (hc : c.Lossless) (h : encodeBlock c js entries codec level = .ok (bytes, m))
    (lowercase : Text → Text) (needle : Text) :
    (blockMessageFeasible c bytes needle = .ok false →
      ∀ e ∈ entries, messageContainsCi lowercase e.message needle = false) ↔
      ¬Overlooked c entries codec level needle := by
  obtain ⟨cols, hst⟩ := encodeBlock_ok h
  constructor
  · intro hsound ho
    obtain ⟨msg, hmsg, hin⟩ := ho.contained
    obtain ⟨e, he, rfl⟩ := List.mem_map.mp hmsg
    have hno := hsound ((feasible_false_iff hc hst ho.checkable hmsg hin).mpr ho) e he
    rw [(messageContainsCi_iff lowercase ho.checkable).mpr hin] at hno
    exact absurd hno (by simp)
  · intro hno hfalse e he
    by_cases hn : Checkable needle
    · by_contra hin
      rw [Bool.not_eq_false, messageContainsCi_iff lowercase hn] at hin
      exact hno ((feasible_false_iff hc hst hn (List.mem_map_of_mem he) hin).mp hfalse)
    · rw [blockMessageFeasible_unchecked hn] at hfalse
      exact absurd hfalse (by simp)

end

/-- A JSON library that knows the empty object, which is all that entries without metadata need. -/
def emptyObjectJson : SerdeJson Empty where
  fromStr text := if text = "\x7b\x7d".toList then .ok (.object []) else .error "not an object"
  toStr value := match value with
    | .object [] => .ok "\x7b\x7d".toList
    | _ => .error "not supported"

def plainEntry (ts : Int64) (message : Text) : LogEntry :=
  ⟨ts, 1, none, message, [], none⟩

/-- `id 0NN00000000000000000 ok`, a number of twenty digits. -/
def wideNumber (i : Nat) : LogEntry :=
  plainEntry (Int64.ofNat i) ("id 0".toList ++
    [Char.ofNat (48 + i / 10), Char.ofNat (48 + i % 10)] ++ "00000000000000000 ok".toList)

def wideNumbers : List LogEntry := (List.range 64).map wideNumber

/-- Encode the entries at level 1 and ask about the needle: the answer if the block is kept as
templates. -/
def templateAnswer (entries : List LogEntry) (needle : Text) : Option Bool :=
  match encodeBlock .storing emptyObjectJson entries codecRichTemplate 1 with
  | .ok (bytes, m) =>
      if m.codec = codecRichTemplate then (blockMessageFeasible .storing bytes needle).toOption
      else none
  | .error _ => none

theorem of_templateAnswer {answer : Bool} (h : templateAnswer entries needle = some answer) :
    ∃ bytes m,
    encodeBlock .storing emptyObjectJson entries codecRichTemplate 1 = .ok (bytes, m) ∧
      m.codec = codecRichTemplate ∧ blockMessageFeasible .storing bytes needle = .ok answer := by
  unfold templateAnswer at h
  split at h
  · next bytes m hblock =>
      split_ifs at h with hcodec
      refine ⟨bytes, m, hblock, hcodec, ?_⟩
      cases hf : blockMessageFeasible .storing bytes needle with
      | error e => simp [hf, Except.toOption] at h
      | ok b => simpa [hf, Except.toOption] using h
  · simp at h

/-- Kept as templates, and the check rules out a number that is not there. -/
theorem absence_iff_templates : ∃ bytes m,
    encodeBlock .storing emptyObjectJson wideNumbers codecRichTemplate 1 = .ok (bytes, m) ∧
    m.codec = codecRichTemplate ∧
    blockMessageFeasible .storing bytes "id 99 ok".toList = .ok false ∧
    ((blockMessageFeasible .storing bytes "id 99 ok".toList = .ok false →
      ∀ e ∈ wideNumbers, messageContainsCi id e.message "id 99 ok".toList = false) ↔
      ¬Overlooked .storing wideNumbers codecRichTemplate 1 "id 99 ok".toList) := by
  obtain ⟨bytes, m, hblock, hcodec, hfalse⟩ := of_templateAnswer
    (by decide +kernel : templateAnswer wideNumbers "id 99 ok".toList = some false)
  exact ⟨bytes, m, hblock, hcodec, hfalse,
    absence_iff Compressors.storing_lossless hblock id _⟩

/-- The check says that no message holds `id 04200000000000000000 ok`, and one is exactly that. -/
theorem absence_fails_wideNumber : ∃ bytes m,
    encodeBlock .storing emptyObjectJson wideNumbers codecRichTemplate 1 = .ok (bytes, m) ∧
    blockMessageFeasible .storing bytes "id 04200000000000000000 ok".toList = .ok false ∧
    ∃ e ∈ wideNumbers, messageContainsCi id e.message "id 04200000000000000000 ok".toList = true := by
  obtain ⟨bytes, m, hblock, -, hfalse⟩ := of_templateAnswer
    (by decide +kernel : templateAnswer wideNumbers "id 04200000000000000000 ok".toList = some false)
  exact ⟨bytes, m, hblock, hfalse, wideNumber 42, List.mem_map_of_mem (by simp), by decide +kernel⟩

end Timeless.Blocks
