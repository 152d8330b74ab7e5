import Timeless.Blocks.Admission
import Timeless.Metrics.FlatWriter

/-!
# MetadataText — the metadata that a row shows

The metadata of an entry without JSON is printed by the extension when the entry was read from a
block that keeps pairs, and by the JSON library when it was read from a rich block. Blocks of both
kinds are merged, so the text of an entry may change while it is stored.

* `flatJsonBytes_eq`: the size that is counted is that of the extension's text;
* `metadataColumn_iff`: the texts are the same exactly if there is no backspace and no form feed.
-/

namespace Timeless.Blocks

open Support Codec Metrics

variable {N : Type} {js : SerdeJson N}

/-- The metadata of a row. -/
def LogEntry.metadataColumn (e : LogEntry) : Text :=
  match e.metadataJson with
  | some json => json
  | none => pairsToJson e.metadata

/-! ### Sizes -/

theorem length_utf8_jsonEscape (ch : Char) : (utf8 (jsonEscape ch)).length =
    if ch ∈ ['"', '\\', '\n', '\r', '\t'] then 2
    else if ch.toNat < 0x20 then 6 else ch.utf8Size := by
  by_cases hshort : ch ∈ ['"', '\\', '\n', '\r', '\t']
  · rw [if_pos hshort]
    simp only [List.mem_cons, List.not_mem_nil, or_false] at hshort
    rcases hshort with rfl | rfl | rfl | rfl | rfl <;> decide
  rw [if_neg hshort]
  simp only [List.mem_cons, List.not_mem_nil, or_false, not_or] at hshort
  obtain ⟨hquote, hbackslash, hn, hr, ht⟩ := hshort
  rw [jsonEscape, if_neg hquote, if_neg hbackslash, if_neg hn, if_neg hr, if_neg ht]
  by_cases hcontrol : ch.toNat < 0x20
  · rw [if_pos hcontrol, if_pos hcontrol]
    have hbytes := (controlEscape_digits ch.toNat hcontrol).1
    rw [Char.ofNat_toNat] at hbytes
    rw [hbytes]
    rfl
  · rw [if_neg hcontrol, if_neg hcontrol, utf8_cons, utf8_nil, List.append_nil,
      String.length_utf8EncodeChar]

theorem length_utf8_escaped (s : Text) :
    (utf8 (s.flatMap jsonEscape)).length = jsonEscapedBytes s := by
  induction s with
  | nil => rfl
  | cons ch s ih =>
      rw [List.flatMap_cons, utf8_append, List.length_append, ih, length_utf8_jsonEscape]
      rfl

theorem length_utf8_flatMembers (pairs : Pairs) (first : Bool) :
    (utf8 (flatMembers jsonEscape first pairs)).length =
      (if first then pairs.length - 1 else pairs.length) +
        (pairs.map fun p => 5 + jsonEscapedBytes p.1 + jsonEscapedBytes p.2).sum := by
  induction pairs generalizing first with
  | nil => cases first <;> rfl
  | cons p pairs ih =>
      have hquote : (utf8 "\"".toList).length = 1 := by decide
      have hcolon : (utf8 "\":\"".toList).length = 3 := by decide
      have hcomma : (utf8 (if first then [] else [','])).length = if first then 0 else 1 := by
        cases first <;> decide
      simp only [flatMembers, flatMember, utf8_append, List.length_append, length_utf8_escaped,
        ih false, hquote, hcolon, hcomma, List.length_cons, List.map_cons, List.sum_cons]
      cases first <;> simp <;> omega

/-- **The size that is counted** is that of the text. -/
theorem flatJsonBytes_eq (pairs : Pairs) : flatJsonBytes pairs = (utf8 (pairsToJson pairs)).length := by
  have hopen : (utf8 ['\x7b']).length = 1 := by decide
  have hclose : (utf8 ['\x7d']).length = 1 := by decide
  rw [pairsToJson, flatObject, utf8_append, utf8_append, List.length_append, List.length_append,
    length_utf8_flatMembers, hopen, hclose, if_pos rfl, flatJsonBytes]
  omega

/-! ### Rich blocks -/

/-- The library prints an object of strings without spaces, in its own spelling. -/
def SerdeJson.PrintsStrings (js : SerdeJson N) : Prop :=
  ∀ pairs : Pairs, KeysIncrease pairs →
    js.toStr (.object (pairs.map fun p => (p.1, .string p.2))) = .ok (flatObject serdeEscape pairs)

/-- The text that a rich block keeps of an entry without JSON. -/
theorem storedJson_of_pairs (hprints : js.PrintsStrings) {e : LogEntry} (hjson : e.metadataJson = none)
    (hkeys : KeysIncrease e.metadata) : storedJson js e = flatObject serdeEscape e.metadata := by
  have hsorted : OrdMap.Sorted textLt (e.metadata.map fun p => (p.1, (.string p.2 : Json N))) :=
    List.pairwise_map.mpr hkeys
  rw [storedJson, entryJson, hjson]
  dsimp only
  rw [pairsMetadataJson, OrdMap.ofList_of_sorted textLt_linear hsorted, hprints _ hkeys]
  rfl

theorem metadataColumn_readBack (hjs : js.Lawful) (hprints : js.PrintsStrings) {e : LogEntry}
    (hsev : canonicalSeverity e.severityName = .ok e.severityName) (hjson : e.metadataJson = none)
    (hkeys : KeysIncrease e.metadata) (codec : UInt8) : (readBack js codec e).metadataColumn =
      flatObject (if isRichCodec codec then serdeEscape else jsonEscape) e.metadata := by
  have hstable := envelopeStable_of_pairs hjs hsev hjson hkeys
  rw [readBack_eq_readAs fun _ => hstable, readAs]
  split_ifs with hrich
  · exact storedJson_of_pairs hprints hjson hkeys
  · rw [LogEntry.metadataColumn, hjson]
    rfl

/-! ### What admission keeps -/

/-- Pairs with different keys are all kept. -/
theorem mem_normalizeMetadata {metadata : Pairs} (h : (metadata.map Prod.fst).Nodup)
    {p : Text × Text} : p ∈ normalizeMetadata metadata ↔ p ∈ metadata := by
  have hperm := List.perm_insertionSort (fun a b : Text × Text => textLe a.1 b.1 = true) metadata
  have hchain : (metadata.insertionSort fun a b => textLe a.1 b.1 = true).reverse.IsChain
      fun a b => a.1 ≠ b.1 := by
    have hnodup := (hperm.map Prod.fst).nodup_iff.mpr h
    refine (List.pairwise_reverse.mpr ?_).isChain
    exact (List.pairwise_map.mp hnodup).imp fun {a b} hne heq => hne heq.symm
  rw [normalizeMetadata, List.destutter_of_isChain _ _ hchain, List.reverse_reverse, hperm.mem_iff]

theorem twice_eq_zero_iff {s : Text} : twice s = 0 ↔ '\x08' ∉ s ∧ '\x0c' ∉ s := by
  rw [twice, List.countP_eq_zero]
  constructor
  · intro h
    exact ⟨fun hmem => h _ hmem (by decide), fun hmem => h _ hmem (by decide)⟩
  · rintro ⟨hb, hf⟩ ch hch hor
    rcases of_decide_eq_true hor with rfl | rfl
    · exact hb hch
    · exact hf hch

/-- A library for objects of strings. -/
def flatSerde : SerdeJson Empty where
  fromStr t := do
    let pairs ← parseLabelsJson t
    return .object ((OrdMap.ofList textLt pairs).map fun p => (p.1, .string p.2))
  toStr v :=
    match v with
    | .object fields =>
        match stringFields fields with
        | some pairs => .ok (flatObject serdeEscape pairs)
        | none => .error "not a string"
    | _ => .error "not an object"

theorem flatSerde_printsStrings : flatSerde.PrintsStrings := by
  intro pairs _
  unfold flatSerde
  dsimp only
  rw [stringFields_map]

theorem flatSerde_lawful : flatSerde.Lawful where
  sorted t fields h := by
    obtain ⟨pairs, -, h⟩ := of_bind h
    obtain ⟨rfl⟩ := Json.object.inj (Except.ok.inj h)
    exact List.pairwise_map.mpr (OrdMap.sorted_ofList textLt_linear pairs)
  strings pairs hkeys := by
    have hsorted : OrdMap.Sorted textLt pairs := hkeys
    refine ⟨_, flatSerde_printsStrings pairs hkeys, ?_⟩
    change (parseLabelsJson _ >>= _) = _
    rw [parseLabelsJson_flatObject serdeEscape_spells, ok_bind,
      OrdMap.ofList_of_sorted textLt_linear hsorted, OrdMap.ofList_of_sorted textLt_linear hsorted]
    rfl

/-- **Flat JSON.** Labels are read back from their text. The size that is counted for the metadata of
an admitted entry is that of the text that it shows when it is kept as pairs; from a rich block it
shows the same text exactly if its metadata has no backspace and no form feed. -/
theorem metadataColumn_iff (hjs : js.Lawful) (hprints : js.PrintsStrings) {labels : Labels}
    (hlabels : OrdMap.Sorted textLt labels) {e e' : LogEntry} (haccept : accept e = .ok e')
    (hpairs : e.metadataJson = none) (hkeys : (e.metadata.map Prod.fst).Nodup)
    {plain rich : UInt8} (hplain : isRichCodec plain = false) (hrich : isRichCodec rich = true) :
    parseLabelsJson (labelsToJson labels) = .ok labels ∧
      flatJsonBytes e'.metadata = (utf8 (readBack js plain e').metadataColumn).length ∧
      ((readBack js rich e').metadataColumn = (readBack js plain e').metadataColumn ↔
        ∀ p ∈ e.metadata, ('\x08' ∉ p.1 ∧ '\x0c' ∉ p.1) ∧ '\x08' ∉ p.2 ∧ '\x0c' ∉ p.2) := by
  obtain ⟨hsev, -, -, -, -, hjson, hmeta⟩ := accept_ok haccept
  have hincrease : KeysIncrease e'.metadata := hmeta ▸ keysIncrease_normalizeMetadata _
  have hcolumn := metadataColumn_readBack hjs hprints hsev (hjson.trans hpairs) hincrease
  refine ⟨parseLabelsJson_labelsToJson hlabels, ?_, ?_⟩
  · rw [hcolumn, if_neg (by simp [hplain]), flatJsonBytes_eq]
    rfl
  · rw [hcolumn, hcolumn, if_pos hrich, if_neg (by simp [hplain]), flatObject_eq_iff, hmeta]
    simp only [mem_normalizeMetadata hkeys, twice_eq_zero_iff]

/-- An entry with one pair. -/
def onePair (value : String) : LogEntry :=
  ⟨0, 1, none, [], [("k".toList, value.toList)], none⟩

/-- An entry with three pairs, whose texts have to be escaped. -/
def escapedPairs : LogEntry :=
  ⟨0, 1, none, [], [("k".toList, "a\"b".toList), ("path".toList, "c:\\d".toList),
    ("tab\t".toList, "line\nfeed\x01".toList)], none⟩

theorem metadataColumn_same :
    (readBack flatSerde codecRichRaw escapedPairs).metadataColumn =
      (readBack flatSerde codecRaw escapedPairs).metadataColumn :=
  (metadataColumn_iff flatSerde_lawful flatSerde_printsStrings
    (show OrdMap.Sorted textLt ([] : Labels) from List.Pairwise.nil)
    (show accept escapedPairs = .ok escapedPairs from rfl) rfl (by decide) rfl rfl).2.2.mpr (by decide)

/-- A backspace is shown in two ways, and the one of the rich block is not the one that is counted. -/
theorem metadataColumn_differs : accept (onePair "\x08") = .ok (onePair "\x08") ∧
    (readBack flatSerde codecRaw (onePair "\x08")).metadataColumn =
      "\x7b\"k\":\"\\u0008\"\x7d".toList ∧
    (readBack flatSerde codecRichRaw (onePair "\x08")).metadataColumn =
      "\x7b\"k\":\"\\b\"\x7d".toList ∧
    flatJsonBytes (onePair "\x08").metadata = 14 := by
  refine ⟨rfl, ?_, ?_, ?_⟩ <;> decide +kernel

end Timeless.Blocks
