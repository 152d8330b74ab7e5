import Timeless.Blocks.Metadata

/-!
# MetadataRound — metadata columns are read back

* `parseMetadata_serializeMetadata`: pair lists come back as they are;
* `decodePairsColumn_encodePairsColumn`: so do they from the shredded form, within the decoder's
  caps. Keys are spread over the entries in increasing order, and an entry that only takes keys
  that increase is built up in the order it had;
* `parseRich_serializeRich`: a rich envelope gives severity and canonical JSON.
-/

namespace Timeless.Blocks

open Support Codec

variable {bytes : List UInt8}

/-! ### Pair lists -/

theorem lt_of_le_u16Max {n : Nat} (h : n ≤ u16Max) : n < 2 ^ 16 := by
  unfold u16Max at h
  omega

theorem reads_text (t : Text) {len : Nat} (hlen : (utf8 t).length = len) (what notUtf8 : String)
    (tail : List UInt8) : Reads (readText len what notUtf8) (utf8 t) tail t := by
  refine (reads_take hlen what tail).bind_last ?_
  exact reads_lift (by rw [fromUtf8_utf8]; rfl) tail

theorem reads_pairs (i : Nat) {ps : Pairs} (h : serializePairs ps = .ok bytes) (tail : List UInt8) :
    Reads (parsePairs i ps.length) bytes tail ps := by
  induction ps generalizing bytes with
  | nil =>
      obtain rfl := Except.ok.inj h
      exact Reads.pure [] tail
  | cons p ps ih =>
      obtain ⟨head, hhead, h⟩ := of_bind h
      obtain ⟨rest, hrest, rfl⟩ := bind_pure_eq_ok.mp h
      obtain ⟨hkey, hhead⟩ := rejectIf_bind_eq_ok.mp hhead
      obtain ⟨hvalue, hhead⟩ := rejectIf_bind_eq_ok.mp hhead
      obtain rfl := Except.ok.inj hhead
      simp only [lenPrefixed, List.append_assoc, List.length_cons, parsePairs]
      refine (reads_u16 (lt_of_le_u16Max (not_lt.mp hkey)) _ _).bind ?_
      refine (reads_text p.1 rfl _ _ _).bind ?_
      refine (reads_u32 (lt_of_le_u32Max (not_lt.mp hvalue)) _ _).bind ?_
      refine (reads_text p.2 rfl _ _ _).bind ?_
      exact (ih hrest).map ((p.1, p.2) :: ·)

theorem reads_entries {mds : List Pairs} (h : serializeMetadata mds = .ok bytes) (i : Nat)
    (tail : List UInt8) :
    Reads (parseEntries mds.length i) bytes tail mds := by
  induction mds generalizing bytes i with
  | nil =>
      obtain rfl := Except.ok.inj h
      exact Reads.pure [] tail
  | cons md mds ih =>
      obtain ⟨hcount, h⟩ := rejectIf_bind_eq_ok.mp h
      obtain ⟨body, hbody, h⟩ := of_bind h
      obtain ⟨rest, hrest, rfl⟩ := bind_pure_eq_ok.mp h
      refine (reads_u16 (lt_of_le_u16Max (not_lt.mp hcount)) _ _).bind ?_
      refine (reads_pairs i hbody _).bind ?_
      exact (ih hrest (i + 1)).map (md :: ·)

/-- **Pair lists.** They come back. -/
theorem parseMetadata_serializeMetadata {mds : List Pairs} (h : serializeMetadata mds = .ok bytes) :
    parseMetadata bytes mds.length = .ok mds := by
  refine Reads.run ?_
  exact (reads_entries h 0 _).bind_last
    (reads_end mds fun _ => "block: trailing bytes in metadata column")

/-! ### The shredded form -/

variable {keys : List Text}

theorem reads_keys (what : String) (h : encodeKeys keys = .ok bytes)
    (hsorted : keys.Pairwise fun a b => textLt a b = true) (i : Nat) (prev : Option Text)
    (hprev : ∀ p ∈ prev, ∀ k ∈ keys, textLt p k = true) (tail : List UInt8) :
    Reads (readKeys what keys.length i prev) bytes tail keys := by
  induction keys generalizing bytes i prev with
  | nil =>
      obtain rfl := Except.ok.inj h
      exact Reads.pure [] tail
  | cons k keys ih =>
      obtain ⟨hlen, h⟩ := rejectIf_bind_eq_ok.mp h
      obtain ⟨rest, hrest, rfl⟩ := bind_pure_eq_ok.mp h
      obtain ⟨hhead, htail⟩ := List.pairwise_cons.mp hsorted
      have hinc : ¬(prev.any (fun p => !textLt p k) = true) := by
        cases prev with
        | none => simp
        | some p => simp [hprev p rfl k List.mem_cons_self]
      refine (reads_u16 (lt_of_le_u16Max (not_lt.mp hlen)) _ _).bind ?_
      refine (reads_text k rfl _ _ _).bind ?_
      refine (reads_rejectIf hinc _ _).bind_nil ?_
      refine (ih hrest htail (i + 1) (some k) fun p hp k' hk' => ?_).map (k :: ·)
      obtain rfl : k = p := by simpa using hp
      exact hhead k' hk'

theorem reads_framedColumn {e : ColumnEnc} {b : List UInt8} (h : e.toBytes = .ok b) (what : String)
    (tail : List UInt8) : Reads (framedColumn what) b tail b := by
  obtain ⟨hlen, rfl⟩ := toBytes_eq_ok.mp h
  have hread : Reads (do
      let enc ← u8 what
      let len ← u32 what
      let payload ← take len what
      return enc :: (leBytes 4 len ++ payload) : ReadM (List UInt8))
      ([e.encoding] ++ (leBytes 4 e.payload.length ++ e.payload)) tail
      (e.encoding :: (leBytes 4 e.payload.length ++ e.payload)) := by
    refine (reads_u8 _ _ _).bind ?_
    refine (reads_u32 (lt_of_le_u32Max hlen) _ _).bind ?_
    exact (reads_take rfl _ _).map fun payload => e.encoding :: (leBytes 4 e.payload.length ++ payload)
  exact hread

/-- The part of an entry under some keys. -/
def underKeys (keys : List Text) (entry : Pairs) : Pairs :=
  entry.filter fun p => keys.contains p.1

/-- The keys of an entry strictly increase. -/
def KeysIncrease (entry : Pairs) : Prop :=
  entry.Pairwise fun p q => textLt p.1 q.1 = true

theorem canonicalPairs_iff (entry : Pairs) : canonicalPairs entry = true ↔ KeysIncrease entry := by
  have hchain : canonicalPairs entry = true ↔
      entry.IsChain fun p q => textLt p.1 q.1 = true := by
    unfold canonicalPairs
    induction entry with
    | nil => simp
    | cons p entry ih =>
        cases entry with
        | nil => simp
        | cons q entry => simpa using fun _ => ih
  have htrans : IsTrans (Text × Text) fun p q => textLt p.1 q.1 = true :=
    ⟨fun _ _ _ => textLt_linear.trans _ _ _⟩
  rw [hchain, List.isChain_iff_pairwise, KeysIncrease]

/-- One more key, above those before, adds its pair at the end. -/
theorem underKeys_snoc {entry : Pairs} (h : KeysIncrease entry) {k : Text}
    (hk : ∀ k' ∈ keys, textLt k' k = true) :
    underKeys (keys ++ [k]) entry =
      underKeys keys entry ++ ((pairValue k entry).map fun v => (k, v)).toList := by
  induction entry with
  | nil => rfl
  | cons p entry ih =>
      obtain ⟨a, b⟩ := p
      obtain ⟨hhead, htail⟩ := List.pairwise_cons.mp h
      have ih := ih htail
      by_cases hak : a = k
      · -- the entry has the key; what follows has none of the keys
        subst hak
        have hnot : a ∉ keys := fun hmem => by
          have := hk a hmem
          simp [textLt_linear.irrefl] at this
        have hrest : ∀ q ∈ entry, q.1 ∉ keys ∧ q.1 ≠ a := fun q hq => by
          have hlt := hhead q hq
          refine ⟨fun hmem => ?_, fun heq => ?_⟩
          · have := textLt_linear.trans _ _ _ hlt (hk _ hmem)
            simp [textLt_linear.irrefl] at this
          · rw [heq, textLt_linear.irrefl] at hlt
            simp at hlt
        have hnone : underKeys keys entry = [] :=
          List.filter_eq_nil_iff.mpr fun q hq => by simpa using (hrest q hq).1
        have hnone' : underKeys (keys ++ [a]) entry = [] :=
          List.filter_eq_nil_iff.mpr fun q hq => by
            simpa using ⟨(hrest q hq).1, (hrest q hq).2⟩
        rw [underKeys, List.filter_cons_of_pos (by simp), ← underKeys, hnone', underKeys,
          List.filter_cons_of_neg (by simpa using hnot), ← underKeys, hnone]
        simp [pairValue]
      · have hlookup : pairValue k ((a, b) :: entry) = pairValue k entry := by
          rw [pairValue, pairValue, List.lookup_cons, beq_false_of_ne (Ne.symm hak)]
        rw [hlookup]
        by_cases hmem : a ∈ keys
        · rw [underKeys, List.filter_cons_of_pos (by simp [hmem]), ← underKeys, ih, underKeys,
            underKeys, List.filter_cons_of_pos (by simpa using hmem), List.cons_append]
        · rw [underKeys, List.filter_cons_of_neg (by simp [hmem, hak]), ← underKeys, ih, underKeys,
            underKeys, List.filter_cons_of_neg (by simpa using hmem)]

theorem spread_eq (key : Text) (f : Pairs → Pairs) (pairs : List Pairs) :
    spread key (pairs.map f) (pairs.map fun entry => (pairValue key entry).isSome)
        (pairs.filterMap (pairValue key)) =
      pairs.map fun entry => f entry ++ ((pairValue key entry).map fun v => (key, v)).toList := by
  induction pairs with
  | nil => rfl
  | cons entry pairs ih =>
      cases hv : pairValue key entry with
      | none =>
          rw [List.filterMap_cons_none hv]
          simp only [List.map_cons, hv, Option.isSome_none, spread, ih]
          simp
      | some v =>
          rw [List.filterMap_cons_some hv]
          simp only [List.map_cons, hv, Option.isSome_some, spread, ih]
          simp

theorem count_present (k : Text) (pairs : List Pairs) :
    (pairs.map fun entry => (pairValue k entry).isSome).count true =
      (pairs.filterMap (pairValue k)).length := by
  rw [List.count_eq_countP, List.countP_map, List.length_filterMap_eq_countP]
  refine List.countP_congr fun entry _ => ?_
  simp

variable {c : Compressors}

/-- The value columns of the keys are within the decoder's caps. -/
def KeysFit (pairs : List Pairs) (keys : List Text) : Prop :=
  ∀ k ∈ keys, StrColumnFits (pairs.filterMap (pairValue k))

theorem reads_keyColumns (hc : c.Lossless) (what : String) {pairs : List Pairs} {level : Int}
    (hinc : ∀ entry ∈ pairs, KeysIncrease entry) (hfit : KeysFit pairs keys)
    (h : encodeKeyColumns c pairs level keys = .ok bytes) (done : List Text)
    (hsorted : (done ++ keys).Pairwise fun a b => textLt a b = true) (tail : List UInt8) :
    Reads (readKeyColumns c what pairs.length keys (pairs.map (underKeys done))) bytes tail
      (pairs.map (underKeys (done ++ keys))) := by
  induction keys generalizing bytes done with
  | nil =>
      obtain rfl := Except.ok.inj h
      rw [List.append_nil]
      exact Reads.pure _ tail
  | cons k keys ih =>
      obtain ⟨e, he, h⟩ := of_bind h
      obtain ⟨col, hcol, h⟩ := of_bind h
      obtain ⟨rest, hrest, rfl⟩ := bind_pure_eq_ok.mp h
      have hbitmap := decodeBitmap_encodeBitmap (pairs.map fun entry => (pairValue k entry).isSome)
      rw [List.length_map] at hbitmap
      have hvalues := decodeStr_encodeStr hc he hcol (hfit k List.mem_cons_self)
      have hcount := count_present k pairs
      have hbelow : ∀ k' ∈ done, textLt k' k = true := fun k' hk' =>
        (List.pairwise_append.mp hsorted).2.2 k' hk' k List.mem_cons_self
      have hspread := spread_eq k (underKeys done) pairs
      rw [List.map_congr_left fun entry hentry =>
        (underKeys_snoc (hinc entry hentry) hbelow).symm] at hspread
      have hnext := ih (fun k' hk' => hfit k' (List.mem_cons_of_mem _ hk')) hrest (done ++ [k])
        (by simpa using hsorted)
      rw [← hspread, List.append_assoc, List.singleton_append] at hnext
      refine (reads_take (by simp [encodeBitmap]) _ _).bind ?_
      refine (reads_lift (by rw [mapError_eq_ok]; exact hbitmap) _).bind_nil ?_
      refine (reads_framedColumn hcol _ _).bind ?_
      refine (reads_lift (by rw [mapError_eq_ok, hcount]; exact hvalues) _).bind_nil ?_
      exact hnext

/-- The metadata column of codec 5 is within the decoder's caps. -/
def PairsFit (pairs : List Pairs) (legacyRaw : List UInt8) : Prop :=
  if !pairs.all canonicalPairs ||
      shredMaxKeys < (sortedKeys (pairs.flatMap fun entry => entry.map Prod.fst)).length then
    legacyRaw.length ≤ decompressMaxBytes
  else KeysFit pairs (sortedKeys (pairs.flatMap fun entry => entry.map Prod.fst))

/-- **The shredded form.** Pair lists come back from it. -/
theorem decodePairsColumn_encodePairsColumn (hc : c.Lossless) {pairs : List Pairs}
    {legacyRaw bytes : List UInt8} {level : Int} (what : String)
    (h : encodePairsColumn c pairs legacyRaw level = .ok bytes) (hfit : PairsFit pairs legacyRaw)
    (parseLegacy : List UInt8 → Nat → Except String (List Pairs))
    (hlegacy : parseLegacy legacyRaw pairs.length = .ok pairs) :
    decodePairsColumn c bytes pairs.length what parseLegacy = .ok pairs := by
  unfold encodePairsColumn at h
  unfold PairsFit at hfit
  dsimp only at h
  split_ifs at h hfit with hcase
  · obtain ⟨z, hz, rfl⟩ := bind_pure_eq_ok.mp h
    refine Reads.run ?_
    rw [← List.singleton_append]
    refine (reads_u8 _ _ _).bind ?_
    rw [if_pos rfl]
    refine (reads_remaining (z ++ [])).bind_nil ?_
    refine (reads_take (by simp) _ _).bind_last ?_
    refine (reads_lift (zstd_roundtrip hc hz _ hfit) _).bind_nil ?_
    exact reads_lift hlegacy _
  · obtain ⟨table, htable, h⟩ := of_bind h
    obtain ⟨cols, hcols, rfl⟩ := bind_pure_eq_ok.mp h
    rw [Bool.or_eq_true, Bool.not_eq_true', decide_eq_true_eq, not_or, Bool.not_eq_false,
      List.all_eq_true] at hcase
    obtain ⟨hcanon, hkeys⟩ := hcase
    have hsorted := pairwise_sortedKeys (pairs.flatMap fun entry => entry.map Prod.fst)
    have hcolumns := reads_keyColumns hc what
      (fun entry hentry => (canonicalPairs_iff entry).mp (hcanon entry hentry)) hfit hcols []
      (by simpa using hsorted) []
    have hstart : pairs.map (underKeys []) = List.replicate pairs.length [] := by
      rw [List.map_congr_left fun entry _ => show underKeys [] entry = [] by simp [underKeys],
        List.map_const']
    have hall : pairs.map (underKeys ([] ++
        sortedKeys (pairs.flatMap fun entry => entry.map Prod.fst))) = pairs := by
      rw [List.nil_append]
      refine (List.map_congr_left fun entry hentry => ?_).trans (List.map_id pairs)
      refine List.filter_eq_self.mpr fun p hp => ?_
      rw [List.contains_iff_mem, mem_sortedKeys]
      exact List.mem_flatMap.mpr ⟨entry, hentry, List.mem_map_of_mem hp⟩
    rw [hstart, hall] at hcolumns
    refine Reads.run ?_
    rw [← List.singleton_append]
    refine (reads_u8 _ _ _).bind ?_
    rw [if_neg (by decide), if_pos rfl]
    refine (reads_u16 (by unfold shredMaxKeys at hkeys; omega) _ _).bind ?_
    refine (reads_rejectIf hkeys _ _).bind_nil ?_
    refine (reads_keys what htable hsorted 0 none (by simp) _).bind ?_
    refine hcolumns.bind_last ?_
    exact reads_end pairs fun _ => s!"{what} column: trailing bytes after last key"

/-! ### The rich envelope -/

variable {N : Type} {js : SerdeJson N}

/-- The canonical JSON an entry is stored with in a rich block. -/
def storedJson (js : SerdeJson N) (e : LogEntry) : Text :=
  (entryJson js e).toOption.getD []

/-- An entry whose stored envelope says again what the entry says: its severity is a known one and
its JSON, printed in canonical form, is read as that form and as the entry's pairs. -/
structure EnvelopeStable (js : SerdeJson N) (e : LogEntry) : Prop where
  severity : canonicalSeverity e.severityName = .ok e.severityName
  stored : entryJson js e = .ok (storedJson js e)
  canonical : canonicalMetadataJson js (storedJson js e) = .ok (storedJson js e)
  pairs : metadataPairsFromJson js (storedJson js e) = .ok e.metadata

/-- What the stored envelope of an entry is read as. -/
def readEnvelope (js : SerdeJson N) (e : LogEntry) : Except String RichMetadata := do
  let _ ← canonicalSeverity e.severityName
  let json ← canonicalMetadataJson js (storedJson js e)
  let pairs ← metadataPairsFromJson js json
  return ⟨e.severityName, pairs, json⟩

def enveloped (js : SerdeJson N) (e : LogEntry) : RichMetadata :=
  (readEnvelope js e).toOption.getD ⟨[], [], []⟩

/-- An entry whose stored envelope can be read. -/
def Readable (js : SerdeJson N) (e : LogEntry) : Prop :=
  readEnvelope js e = .ok (enveloped js e)

variable {e : LogEntry} {entries : List LogEntry}

theorem readable_of_ok {r : RichMetadata} (h : readEnvelope js e = .ok r) :
    Readable js e ∧ enveloped js e = r := by
  have henv : enveloped js e = r := by
    rw [enveloped, h]
    rfl
  exact ⟨by rw [Readable, henv, h], henv⟩

theorem unreadable (h : ¬Readable js e) : ∃ err, readEnvelope js e = .error err := by
  cases hread : readEnvelope js e with
  | error err => exact ⟨err, rfl⟩
  | ok r => exact absurd (readable_of_ok hread).1 h

/-- A stable envelope is read as what the entry says. -/
theorem EnvelopeStable.read (h : EnvelopeStable js e) :
    Readable js e ∧ enveloped js e = ⟨e.severityName, e.metadata, storedJson js e⟩ := by
  refine readable_of_ok ?_
  rw [readEnvelope, h.severity, ok_bind, h.canonical, ok_bind, h.pairs, ok_bind, pure_eq_ok]

theorem serializeRich_eq (h : serializeRich js e = .ok bytes) :
    (utf8 e.severityName).length < 2 ^ 16 ∧ (utf8 (storedJson js e)).length < 2 ^ 32 ∧
      bytes = leBytes 2 (utf8 e.severityName).length ++ (utf8 e.severityName ++
        (leBytes 4 (utf8 (storedJson js e)).length ++ utf8 (storedJson js e))) := by
  obtain ⟨hsev, h⟩ := rejectIf_bind_eq_ok.mp h
  obtain ⟨json, hentry, h⟩ := of_bind h
  obtain rfl : storedJson js e = json := by
    rw [storedJson, hentry]
    rfl
  obtain ⟨hjson, h⟩ := rejectIf_bind_eq_ok.mp h
  obtain rfl := Except.ok.inj h
  exact ⟨lt_of_le_u16Max (not_lt.mp hsev), lt_of_le_u32Max (not_lt.mp hjson), rfl⟩

theorem reads_richEntry (hread : Readable js e) (h : serializeRich js e = .ok bytes) (index : Nat)
    (tail : List UInt8) :
    Reads (parseRichEntry js .all index) bytes tail (enveloped js e) := by
  obtain ⟨hsev, hjson, rfl⟩ := serializeRich_eq h
  obtain ⟨name, hname, hread⟩ := of_bind hread
  obtain ⟨json, hcanon, hread⟩ := of_bind hread
  obtain ⟨pairs, hpairs, hread⟩ := of_bind hread
  rw [← Except.ok.inj hread]
  refine (reads_u16 hsev _ _).bind ?_
  refine (reads_text e.severityName rfl _ _ _).bind ?_
  refine (reads_lift (by rw [mapError_eq_ok]; exact hname) _).bind_nil ?_
  refine (reads_u32 hjson _ _).bind ?_
  refine (reads_text (storedJson js e) rfl _ _ _).bind_last ?_
  refine (reads_lift (a := json) ?_ _).bind_nil ?_
  · simp [richJson, LogProjection.all, hcanon]
  refine (reads_lift (a := pairs) ?_ _).bind_nil ?_
  · simp [richPairs, LogProjection.all, hpairs]
  exact Reads.pure _ tail

theorem fails_richEntry (hread : ¬Readable js e) (h : serializeRich js e = .ok bytes) (index : Nat)
    (tail : List UInt8) :
    Fails (parseRichEntry js .all index) (bytes ++ tail) := by
  obtain ⟨hsev, hjson, rfl⟩ := serializeRich_eq h
  obtain ⟨err, hread⟩ := unreadable hread
  simp only [List.append_assoc]
  refine (reads_u16 hsev _ _).bind_fails ?_
  refine (reads_text e.severityName rfl _ _ _).bind_fails ?_
  cases hname : canonicalSeverity e.severityName with
  | error err => exact (fails_lift ⟨_, rfl⟩ _).bind _
  | ok name =>
      refine (reads_lift rfl _).bind_nil_fails ?_
      refine (reads_u32 hjson _ _).bind_fails ?_
      refine (reads_text (storedJson js e) rfl _ _ _).bind_fails ?_
      rw [readEnvelope, hname, ok_bind] at hread
      cases hcanon : canonicalMetadataJson js (storedJson js e) with
      | error err =>
          have hjson : richJson js .all index (storedJson js e) =
              .error s!"block: entry {index}: {err}" := by
            simp [richJson, LogProjection.all, hcanon, Except.mapError]
          exact (fails_lift ⟨_, hjson⟩ _).bind _
      | ok json =>
          rw [hcanon, ok_bind] at hread
          refine (reads_lift (a := json) ?_ _).bind_nil_fails ?_
          · simp [richJson, LogProjection.all, hcanon]
          cases hpairs : metadataPairsFromJson js json with
          | error err =>
              have hnone : richPairs js .all json = .error err := by
                simp [richPairs, LogProjection.all, hpairs]
              exact (fails_lift ⟨_, hnone⟩ _).bind _
          | ok pairs => simp [hpairs] at hread

/-- **The rich envelope.** It gives back what was stored. -/
theorem parseRich_serializeRich (hread : ∀ e ∈ entries, Readable js e)
    (h : serializeRichMetadata js entries = .ok bytes) :
    parseRichMetadataProjected js bytes entries.length .all =
      .ok (entries.map (enveloped js)) := by
  have hentries : ∀ index tail, Reads (parseRichEntries js .all entries.length index) bytes tail
      (entries.map (enveloped js)) := by
    induction entries generalizing bytes with
    | nil =>
        obtain rfl := Except.ok.inj h
        exact fun _ tail => Reads.pure [] tail
    | cons e entries ih =>
        intro index tail
        obtain ⟨head, hhead, h⟩ := of_bind h
        obtain ⟨rest, hrest, rfl⟩ := bind_pure_eq_ok.mp h
        have hrest := ih (fun e he => hread e (List.mem_cons_of_mem _ he)) hrest (index + 1) tail
        refine (reads_richEntry (hread e List.mem_cons_self) hhead index _).bind ?_
        exact hrest.map (enveloped js e :: ·)
  refine Reads.run ?_
  exact (hentries 0 _).bind_last
    (reads_end _ fun _ => "block: trailing bytes in rich metadata column")

theorem fails_richEntries (hread : ∃ e ∈ entries, ¬Readable js e)
    (h : serializeRichMetadata js entries = .ok bytes) (index : Nat) (tail : List UInt8) :
    Fails (parseRichEntries js .all entries.length index) (bytes ++ tail) := by
  induction entries generalizing bytes index with
  | nil =>
      obtain ⟨e, he, -⟩ := hread
      cases he
  | cons e entries ih =>
      obtain ⟨head, hhead, h⟩ := of_bind h
      obtain ⟨rest, hrest, rfl⟩ := bind_pure_eq_ok.mp h
      rw [List.append_assoc]
      by_cases he : Readable js e
      · refine (reads_richEntry he hhead index _).bind_fails ?_
        obtain ⟨e', he', hno⟩ := hread
        obtain rfl | he' := List.mem_cons.mp he'
        · exact absurd he hno
        · exact (ih ⟨e', he', hno⟩ hrest (index + 1)).bind _
      · exact (fails_richEntry he hhead index _).bind _

/-- One envelope that cannot be read makes the column unreadable. -/
theorem parseRich_unreadable (hread : ∃ e ∈ entries, ¬Readable js e)
    (h : serializeRichMetadata js entries = .ok bytes) :
    ∃ err, parseRichMetadataProjected js bytes entries.length .all = .error err := by
  have hfails := fails_richEntries hread h 0 []
  rw [List.append_nil] at hfails
  exact (hfails.bind _).run

end Timeless.Blocks
