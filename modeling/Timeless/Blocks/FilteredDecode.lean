import Timeless.Blocks.Caps

/-!
# FilteredDecode — only the entries whose message contains a needle

For a block stored as templates the filtered decoder asks each template whether its messages can
contain the needle, renders those of the templates that can, and walks the envelopes by their length
prefixes; every other block it decodes whole and filters. It is meant to give what decoding and
filtering gives.

* `BlockStored.decodeBlockFiltered_eq`: which rows it gives;
* `filteredDecode_iff`: these are the matching rows exactly if no matching message has a template
  that is passed over (`Skipped`).
-/

namespace Timeless.Blocks

open Support Codec

variable {c : Compressors} {N : Type} {js : SerdeJson N}

/-- The rows of entries whose message is kept, with their places. -/
def filteredRows (keep : Text → Bool) (es : List LogEntry) : List (Nat × LogEntry) :=
  (es.zipIdx.filter fun e => keep e.1.message).map Prod.swap

variable {es : List LogEntry} {splitRuns : Bool}

theorem filteredRows_congr {keep keep' : Text → Bool}
    (h : ∀ e ∈ es, keep e.message = keep' e.message) :
    filteredRows keep es = filteredRows keep' es := by
  refine congrArg (List.map Prod.swap) (List.filter_congr fun p hp => ?_)
  exact h p.1 (List.fst_mem_of_mem_zipIdx hp)

theorem snd_filteredRows (keep : Text → Bool) (es : List LogEntry) :
    (filteredRows keep es).map Prod.snd = es.filter fun e => keep e.message := by
  have hrows : ∀ k, ((es.zipIdx k).filter fun e => keep e.1.message).map (Prod.snd ∘ Prod.swap) =
      es.filter fun e => keep e.message := by
    induction es with
    | nil => exact fun _ => rfl
    | cons e es ih =>
        intro k
        rw [List.zipIdx_cons]
        by_cases hin : keep e.message = true
        · rw [List.filter_cons_of_pos (by exact hin), List.filter_cons_of_pos (by exact hin),
            List.map_cons, ih]
          rfl
        · rw [List.filter_cons_of_neg (by exact hin), List.filter_cons_of_neg (by exact hin), ih]
  rw [filteredRows, List.map_map]
  exact hrows 0

/-! ### Envelopes -/

theorem reads_skipRich {e : LogEntry} {bytes : List UInt8} (h : serializeRich js e = .ok bytes)
    (tail : List UInt8) : Reads skipRich bytes tail () := by
  obtain ⟨hsev, hjson, rfl⟩ := serializeRich_eq h
  refine (reads_u16 hsev _ _).bind ?_
  refine (reads_take rfl _ _).bind ?_
  refine (reads_u32 hjson _ _).bind ?_
  exact (reads_take rfl _ _).map fun _ => ()

theorem le_row_of_mem_matchingRows {keep : Text → Bool} {msgs : List Text} {row : Nat}
    {r : Nat × Text} (h : r ∈ matchingRows keep row msgs) : row ≤ r.1 := by
  induction msgs generalizing row with
  | nil => simp [matchingRows] at h
  | cons msg msgs ih =>
      rw [matchingRows] at h
      split_ifs at h
      · rcases List.mem_cons.mp h with rfl | h
        · exact Nat.le_refl _
        · exact Nat.le_of_succ_le (ih h)
      · exact Nat.le_of_succ_le (ih h)

/-- The envelopes of the entries whose message is kept. -/
def keptEntries (js : SerdeJson N) (keep : Text → Bool) : (row : Nat) → List LogEntry →
    List (Nat × Text × RichMetadata)
  | _, [] => []
  | row, e :: es =>
      if keep e.message then
        (row, e.message, enveloped js e) :: keptEntries js keep (row + 1) es
      else keptEntries js keep (row + 1) es

theorem map_keptEntries (js : SerdeJson N) (keep : Text → Bool) (row : Nat)
    (entries : List LogEntry) : (keptEntries js keep row entries).map (fun k => (k.1, k.2.1)) =
      matchingRows keep row (entries.map LogEntry.message) := by
  induction entries generalizing row with
  | nil => rfl
  | cons e entries ih =>
      rw [keptEntries, List.map_cons, matchingRows, ← ih]
      split_ifs <;> rfl

variable {needle : Text} {entries : List LogEntry}

theorem reads_walkRich (keep : Text → Bool) (hread : ∀ e ∈ entries, Readable js e)
    {bytes : List UInt8} (h : serializeRichMetadata js entries = .ok bytes) (index : Nat)
    (tail : List UInt8) :
    Reads (walkRich js entries.length index
        (matchingRows keep index (entries.map LogEntry.message))) bytes tail
      (keptEntries js keep index entries) := by
  induction entries generalizing bytes index with
  | nil =>
      obtain rfl := Except.ok.inj h
      exact Reads.pure [] tail
  | cons e entries ih =>
      obtain ⟨head, hhead, h⟩ := of_bind h
      obtain ⟨rest, hrest, rfl⟩ := bind_pure_eq_ok.mp h
      have he := hread e List.mem_cons_self
      have hrest := ih (fun e he => hread e (List.mem_cons_of_mem _ he)) hrest (index + 1)
      rw [List.map_cons, matchingRows, keptEntries, List.length_cons]
      split_ifs with hin
      · rw [walkRich, if_pos rfl]
        refine (reads_richEntry he hhead index _).bind ?_
        exact hrest.map ((index, e.message, enveloped js e) :: ·)
      · -- the next kept row is further on
        cases hkeep : matchingRows keep (index + 1) (entries.map LogEntry.message) with
        | nil =>
            rw [hkeep] at hrest
            rw [walkRich]
            exact (reads_skipRich hhead _).bind hrest
        | cons r later =>
            obtain ⟨row, msg⟩ := r
            have hle : index + 1 ≤ row := le_row_of_mem_matchingRows
              (r := (row, msg)) (by rw [hkeep]; exact List.mem_cons_self)
            rw [hkeep] at hrest
            rw [walkRich, if_neg (by omega)]
            exact (reads_skipRich hhead _).bind hrest

theorem keptRow_keptEntries (js : SerdeJson N) (done todo : List LogEntry)
    (h : entries = done ++ todo) (keep : Text → Bool) :
    (keptEntries js keep done.length todo).map
        (keptRow (entries.map LogEntry.ts) (entries.map LogEntry.level)) =
      (((todo.map (openedEntry js)).zipIdx done.length).filter fun e => keep e.1.message).map
        Prod.swap := by
  induction todo generalizing done with
  | nil => rfl
  | cons e todo ih =>
      have hrest := ih (done ++ [e]) (by simpa using h)
      rw [List.length_append, List.length_singleton] at hrest
      have hget : entries[done.length]? = some e := by simp [h]
      rw [keptEntries, List.map_cons, List.zipIdx_cons]
      by_cases hin : keep e.message = true
      · rw [if_pos hin, List.filter_cons_of_pos (by exact hin), List.map_cons, List.map_cons, hrest]
        refine congrArg (· :: _) ?_
        simp [keptRow, List.getD_eq_getElem?_getD, List.getElem?_map, hget, openedEntry]
      · rw [if_neg hin, List.filter_cons_of_neg (by exact hin), hrest]

/-! ### Blocks -/

section

variable {entries : List LogEntry} {codec : UInt8} {level : Int} {bytes : List UInt8}
  {m : BlockMeta} {cols : Columns}

theorem fullFallback_eq (lowercase : Text → Text) (needle : Text)
    (h : decodeBlock c js bytes = .ok es) :
    ∃ found, fullFallback c js lowercase bytes needle = .ok found ∧
      found.rows = filteredRows (fun msg => messageContainsCi lowercase msg needle) es :=
  ⟨_, by rw [fullFallback, h]; rfl, rfl⟩

theorem BlockStored.decodeRowsFiltered_eq (h : BlockStored c js entries codec level bytes m cols)
    (hc : c.Lossless) (h8 : m.codec = codecRichTemplate)
    (hfit : BlockFits c js entries m.codec level) (hread : EnvelopesReadable js codec entries)
    (hmode : encodeMode c (entries.map LogEntry.message) splitRuns level = .ok cols.message)
    (hn : Checkable needle) :
    ∃ found, decodeRowsFiltered c js (m.framing cols) cols needle = .ok found ∧
      found.rows = filteredRows (shownIn (entries.map LogEntry.message) splitRuns needle)
        (entries.map (readBack js codec)) := by
  obtain ⟨rfl, hkept⟩ := h.message_stored.kept_iff.mpr ⟨h8, hmode⟩
  rw [h8] at hfit
  have hmsgfit := hfit.messages
  rw [MessagesFit, if_neg (by decide), if_neg (by decide), if_pos rfl] at hmsgfit
  obtain ⟨filtered, hfiltered, hrows⟩ :=
    decodeTemplateStrFiltered_encodeMode hc hmode (hmsgfit splitRuns hkept) hn
  rw [List.length_map] at hfiltered
  obtain ⟨raw, hraw, hmd, -, hts, hlvl⟩ := h.typed_columns hc rfl
  have hcap := hfit.metadata rfl raw hraw
  rw [if_neg (by decide)] at hcap
  rw [encodeMetadata, if_neg (by decide)] at hmd
  have hzstd : zstdDecompress c cols.metadata "rich metadata column" = .ok raw :=
    zstd_roundtrip hc hmd _ hcap
  rw [rawMetadata, if_pos (by decide)] at hraw
  generalize shownIn (entries.map LogEntry.message) splitRuns needle = keep at hrows ⊢
  have hwalk := reads_walkRich keep (hread rfl) hraw 0 []
  have hkeptRows : Reader.run raw (do
      let kept ← walkRich js entries.length 0 filtered.rows
      let left ← remaining
      rejectIf (left ≠ 0) "block: trailing bytes in rich metadata column"
      return kept) = .ok (keptEntries js keep 0 entries) := by
    rw [hrows]
    exact (hwalk.bind_last
      (reads_end _ fun _ => "block: trailing bytes in rich metadata column")).run
  have hresult := keptRow_keptEntries js [] entries (List.nil_append _).symm keep
  simp only [decodeRowsFiltered, h.framing_eq, hfiltered, ok_bind]
  by_cases hempty : filtered.rows.isEmpty = true
  · rw [if_pos hempty]
    refine ⟨_, rfl, ?_⟩
    have hnone : keptEntries js keep 0 entries = [] := by
      have hmap := map_keptEntries js keep 0 entries
      rw [← hrows, List.isEmpty_iff.mp hempty, List.map_eq_nil_iff] at hmap
      exact hmap
    rw [List.length_nil, hnone] at hresult
    exact hresult
  · rw [if_neg hempty]
    simp only [hts, hlvl, checkLevels_ok h.level_bytes, hzstd, hkeptRows, h.range_ok, ok_bind]
    exact ⟨_, rfl, hresult⟩

theorem checkable_iff :
    Checkable needle ↔ ¬(needle.isEmpty || !isAscii (utf8 needle)) = true := by
  rw [Bool.or_eq_true, Bool.not_eq_true', not_or, Bool.not_eq_true, Bool.not_eq_false, Checkable,
    utf8_isEmpty]

/-- A needle that is not checked, or a block that is not stored as templates: everything is decoded
and filtered. -/
theorem BlockStored.decodeBlockFiltered_full (h : BlockStored c js entries codec level bytes m cols)
    (hdecode : decodeBlock c js bytes = .ok es) (lowercase : Text → Text)
    (hfull : Checkable needle → m.codec ≠ codecRichTemplate) :
    ∃ found, decodeBlockFiltered c js lowercase bytes needle = .ok found ∧
      found.rows = filteredRows (fun msg => messageContainsCi lowercase msg needle) es := by
  unfold decodeBlockFiltered
  by_cases hn : Checkable needle
  · rw [if_neg (checkable_iff.mp hn), h.run_readCodec, ok_bind, if_pos (hfull hn)]
    exact fullFallback_eq lowercase needle hdecode
  · rw [if_pos (not_not.mp (checkable_iff.not.mp hn))]
    exact fullFallback_eq lowercase needle hdecode

/-- A block stored as templates and a needle that is checked: messages of templates that are passed
over are left out. -/
theorem BlockStored.decodeBlockFiltered_templates
    (h : BlockStored c js entries codec level bytes m cols) (hc : c.Lossless)
    (h8 : m.codec = codecRichTemplate) (hfit : BlockFits c js entries m.codec level)
    (hread : EnvelopesReadable js codec entries)
    (hmode : encodeMode c (entries.map LogEntry.message) splitRuns level = .ok cols.message)
    (lowercase : Text → Text) (hn : Checkable needle) :
    ∃ found, decodeBlockFiltered c js lowercase bytes needle = .ok found ∧
      found.rows = filteredRows (shownIn (entries.map LogEntry.message) splitRuns needle)
        (entries.map (readBack js codec)) := by
  unfold decodeBlockFiltered
  rw [if_neg (checkable_iff.mp hn), h.run_readCodec, ok_bind, if_neg (not_not.mpr h8),
    h.run_readBlock hfit.count, ok_bind]
  exact h.decodeRowsFiltered_eq hc h8 hfit hread hmode hn

/-- Rows that are not passed over are those that contain the needle. -/
theorem shownIn_eq (lowercase : Text → Text) (hn : Checkable needle) {msgs : List Text} {msg : Text}
    (h : ContainsLow msg needle → ¬PassedOver msgs splitRuns needle msg) :
    shownIn msgs splitRuns needle msg = messageContainsCi lowercase msg needle := by
  rw [Bool.eq_iff_iff, messageContainsCi_iff lowercase hn, shownIn, Bool.and_eq_true,
    Bool.not_eq_true', decide_eq_false_iff_not]
  exact ⟨fun hyes => containsCi_iff.mp hyes.1, fun hin => ⟨containsCi_iff.mpr hin, h hin⟩⟩

/-- **Filtered round trip.** With short inner digit runs the filtered decoder gives the matching
entries of a written block. -/
theorem BlockStored.decodeBlockFiltered_eq (h : BlockStored c js entries codec level bytes m cols)
    (hc : c.Lossless) (hfit : BlockFits c js entries m.codec level)
    (hst : isRichCodec codec = true → ∀ e ∈ entries, EnvelopeStable js e) (lowercase : Text → Text)
    (hshort : ShortRuns needle) :
    ∃ found, decodeBlockFiltered c js lowercase bytes needle = .ok found ∧
      found.rows.map Prod.snd = (entries.map (readAs js codec)).filter fun e =>
        messageContainsCi lowercase e.message needle := by
  have hread := envelopesReadable_of_stable hst
  rw [← map_readBack hst, ← snd_filteredRows fun msg => messageContainsCi lowercase msg needle]
  by_cases hfull : Checkable needle → m.codec ≠ codecRichTemplate
  · obtain ⟨found, hfound, hrows⟩ :=
      h.decodeBlockFiltered_full (h.decodeBlock_readBack hc hfit hread) lowercase hfull
    exact ⟨found, hfound, congrArg _ hrows⟩
  · push Not at hfull
    obtain ⟨hn, h8⟩ := hfull
    obtain ⟨splitRuns, hmode⟩ := h.message_stored.template_mode h8
    obtain ⟨found, hfound, hrows⟩ :=
      h.decodeBlockFiltered_templates hc h8 hfit hread hmode lowercase hn
    refine ⟨found, hfound, ?_⟩
    rw [hrows]
    refine congrArg _ (filteredRows_congr fun e _ => ?_)
    exact shownIn_eq lowercase hn fun _ => not_passedOver_of_shortRuns hshort _ _ _

/-- A message of the block contains the needle and its template is passed over. -/
structure Skipped (c : Compressors) (entries : List LogEntry) (codec : UInt8) (level : Int)
    (needle : Text) : Prop where
  codec_eq : codec = codecRichTemplate
  checkable : Checkable needle
  message : ∃ splitRuns, KeptAsTemplates c (entries.map LogEntry.message) level splitRuns ∧
    ∃ msg ∈ entries.map LogEntry.message, ContainsLow msg needle ∧
      PassedOver (entries.map LogEntry.message) splitRuns needle msg

/-- The filtered decoder gives the rows of the plain one that contain the needle. -/
def FilterAgrees (c : Compressors) (js : SerdeJson N) (lowercase : Text → Text)
    (bytes : List UInt8) (needle : Text) : Prop :=
  ∃ es found, decodeBlock c js bytes = .ok es ∧
    decodeBlockFiltered c js lowercase bytes needle = .ok found ∧
    found.rows = filteredRows (fun msg => messageContainsCi lowercase msg needle) es

/-- **Filtered decode.** For a written block it agrees with decoding and filtering exactly if the
block can be decoded and no matching message is skipped. -/
theorem filteredDecode_iff (hc : c.Lossless)
    (henc : encodeBlock c js entries codec level = .ok (bytes, m)) (lowercase : Text → Text)
    (needle : Text) :
    FilterAgrees c js lowercase bytes needle ↔
      BlockFits c js entries m.codec level ∧ EnvelopesReadable js codec entries ∧
        ¬Skipped c entries codec level needle := by
  obtain ⟨cols, h⟩ := encodeBlock_ok henc
  constructor
  · rintro ⟨es, found, hdecode, hfound, hrows⟩
    obtain ⟨hfit, hread, rfl⟩ := (h.decodeBlock_iff hc).mp hdecode
    refine ⟨hfit, hread, fun hskip => ?_⟩
    obtain ⟨splitRuns, hkept, msg, hmsg, hin, hover⟩ := hskip.message
    obtain ⟨h8, hmode⟩ := h.message_stored.kept_iff.mp ⟨hskip.codec_eq, hkept⟩
    obtain ⟨found', hfound', hrows'⟩ :=
      h.decodeBlockFiltered_templates hc h8 hfit hread hmode lowercase hskip.checkable
    obtain rfl := Except.ok.inj (hfound.symm.trans hfound')
    -- the skipped entry is a row of one side only
    obtain ⟨e, he, rfl⟩ := List.mem_map.mp hmsg
    have hboth := congrArg (List.map Prod.snd) (hrows.symm.trans hrows')
    rw [snd_filteredRows, snd_filteredRows] at hboth
    have hmem : readBack js codec e ∈ (entries.map (readBack js codec)).filter
        fun e => messageContainsCi lowercase e.message needle := by
      refine List.mem_filter.mpr ⟨List.mem_map_of_mem he, ?_⟩
      rw [readBack_message]
      exact (messageContainsCi_iff lowercase hskip.checkable).mpr hin
    rw [hboth] at hmem
    have hshown := (List.mem_filter.mp hmem).2
    rw [readBack_message, shownIn, decide_eq_true hover] at hshown
    simp at hshown
  · rintro ⟨hfit, hread, hskip⟩
    have hdecode := h.decodeBlock_readBack hc hfit hread
    by_cases hfull : Checkable needle → m.codec ≠ codecRichTemplate
    · obtain ⟨found, hfound, hrows⟩ := h.decodeBlockFiltered_full hdecode lowercase hfull
      exact ⟨_, found, hdecode, hfound, hrows⟩
    · push Not at hfull
      obtain ⟨hn, h8⟩ := hfull
      obtain ⟨splitRuns, hmode⟩ := h.message_stored.template_mode h8
      obtain ⟨hcodec, hkept⟩ := h.message_stored.kept_iff.mpr ⟨h8, hmode⟩
      obtain ⟨found, hfound, hrows⟩ :=
        h.decodeBlockFiltered_templates hc h8 hfit hread hmode lowercase hn
      refine ⟨_, found, hdecode, hfound, hrows.trans (filteredRows_congr fun e he => ?_)⟩
      refine shownIn_eq lowercase hn fun hin hover => hskip ⟨hcodec, hn, splitRuns, hkept, ?_⟩
      obtain ⟨e', he', rfl⟩ := List.mem_map.mp he
      rw [readBack_message] at hin hover
      exact ⟨e'.message, List.mem_map_of_mem he', hin, hover⟩

end

/-- A block kept as templates, with ten messages that hold the needle. -/
theorem filteredDecode_templates : ∃ bytes m,
    encodeBlock .storing emptyObjectJson wideNumbers codecRichTemplate 1 = .ok (bytes, m) ∧
    m.codec = codecRichTemplate ∧
    (FilterAgrees .storing emptyObjectJson id bytes "id 04".toList ↔
      BlockFits .storing emptyObjectJson wideNumbers m.codec 1 ∧
        EnvelopesReadable emptyObjectJson codecRichTemplate wideNumbers ∧
        ¬Skipped .storing wideNumbers codecRichTemplate 1 "id 04".toList) := by
  obtain ⟨bytes, m, hblock, hcodec, -⟩ := of_templateAnswer
    (by decide +kernel : templateAnswer wideNumbers "id 04".toList = some true)
  exact ⟨bytes, m, hblock, hcodec,
    filteredDecode_iff Compressors.storing_lossless hblock id _⟩

/-- Encode the entries at level 1: the rows of the filtered decoder and those of decoding and
filtering. -/
def bothAnswers (entries : List LogEntry) (needle : Text) :
    Option (List (Nat × LogEntry) × List (Nat × LogEntry)) := do
  let (bytes, _) ← (encodeBlock .storing emptyObjectJson entries codecRichTemplate 1).toOption
  let es ← (decodeBlock .storing emptyObjectJson bytes).toOption
  let found ← (decodeBlockFiltered .storing emptyObjectJson id bytes needle).toOption
  return (found.rows, filteredRows (fun msg => messageContainsCi id msg needle) es)

theorem eq_ok_of_toOption {α : Type} {x : Except String α} {a : α} (h : x.toOption = some a) :
    x = .ok a := by
  cases x with
  | error err => cases h
  | ok b => exact congrArg Except.ok (Option.some.inj h)

theorem of_bothAnswers {rows rows' : List (Nat × LogEntry)}
    (h : bothAnswers entries needle = some (rows, rows')) :
    ∃ bytes m es found,
      encodeBlock .storing emptyObjectJson entries codecRichTemplate 1 = .ok (bytes, m) ∧
      decodeBlock .storing emptyObjectJson bytes = .ok es ∧
      decodeBlockFiltered .storing emptyObjectJson id bytes needle = .ok found ∧
      found.rows = rows ∧
      filteredRows (fun msg => messageContainsCi id msg needle) es = rows' := by
  obtain ⟨⟨bytes, m⟩, hblock, h⟩ := Option.bind_eq_some_iff.mp h
  obtain ⟨es, hes, h⟩ := Option.bind_eq_some_iff.mp h
  obtain ⟨found, hfound, h⟩ := Option.bind_eq_some_iff.mp h
  obtain ⟨hrows, hrows'⟩ := Prod.mk.inj (Option.some.inj h)
  exact ⟨bytes, m, es, found, eq_ok_of_toOption hblock, eq_ok_of_toOption hes,
    eq_ok_of_toOption hfound, hrows, hrows'⟩

/-- The block is decoded, one message is the needle, and the filtered decoder gives no row. -/
theorem filteredDecode_misses_wideNumber : ∃ bytes m es found,
    encodeBlock .storing emptyObjectJson wideNumbers codecRichTemplate 1 = .ok (bytes, m) ∧
    decodeBlock .storing emptyObjectJson bytes = .ok es ∧
    decodeBlockFiltered .storing emptyObjectJson id bytes "id 04200000000000000000 ok".toList =
      .ok found ∧
    found.rows = [] ∧
    filteredRows (fun msg => messageContainsCi id msg "id 04200000000000000000 ok".toList) es =
      [(42, { wideNumber 42 with
        severity := some "info".toList, metadataJson := some "\x7b\x7d".toList })] :=
  of_bothAnswers (by decide +kernel)

end Timeless.Blocks
