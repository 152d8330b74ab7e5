import Timeless.Blocks.Admission
import Timeless.Blocks.Caps
import Timeless.Engine.Content
import Timeless.Engine.Flush
import Timeless.Engine.Undo

/-!
# Limits — what admission, the encoder and the decoder each take

Three places of a log engine bound what passes: admission, which looks at levels and severities;
the encoder, whose fields are two and four bytes wide; and the decoder, which refuses large blocks.
They do not agree.

* `flush_ok_iff`: over a store that never fails the buffer gets out exactly if its runs are
  `Flushable`, which admission does not look at;
* `stored_readable_iff`: a stored block is decoded exactly if it is within the decoder's caps, which
  neither admission nor the encoder nor the planner of maintenance looks at.
-/

namespace Timeless.Blocks

open Support Codec Engine Program

variable {c : Compressors} {N : Type} {js : SerdeJson N}

/-! ### Admitted entries -/

/-- What admission makes sure of. -/
structure Admitted (e : LogEntry) : Prop where
  level : e.level.toNat ≤ 3
  severity : canonicalSeverity e.severityName = .ok e.severityName
  bucket : levelFromName e.severityName = .ok e.level
  keys : e.metadataJson = none → KeysIncrease e.metadata

variable {e : LogEntry} {b : List UInt8} {n : Nat}

theorem accept_admitted {e' : LogEntry} (h : accept e = .ok e') : Admitted e' := by
  obtain ⟨hsev, hbucket, -, hlevel, -, -, hmeta⟩ := accept_ok h
  refine ⟨hlevel, hsev, hbucket, fun _ => ?_⟩
  rw [hmeta]
  exact keysIncrease_normalizeMetadata _

theorem Admitted.severity_le (h : Admitted e) :
    (utf8 e.severityName).length ≤ u16Max := by
  have hknown : e.severityName ∈ ["debug".toList, "info".toList, "notice".toList,
      "warning".toList, "error".toList, "critical".toList, "alert".toList, "emergency".toList] := by
    by_contra hno
    have hsev := h.severity
    rw [canonicalSeverity, if_neg hno] at hsev
    split_ifs at hsev
    exact hno (Except.ok.inj hsev ▸ by decide)
  have hall : ∀ name ∈ ["debug".toList, "info".toList, "notice".toList, "warning".toList,
      "error".toList, "critical".toList, "alert".toList, "emergency".toList],
      (utf8 name).length ≤ u16Max := by decide
  exact hall _ hknown

/-- The library prints the objects it has read, and reads what it has printed of them. -/
def SerdeJson.Reprints (js : SerdeJson N) : Prop :=
  ∀ t fields, js.fromStr t = .ok (.object fields) →
    ∃ t' fields', js.toStr (.object fields) = .ok t' ∧ js.fromStr t' = .ok (.object fields')

/-- What reads as an object has a canonical form that reads as one. -/
theorem canonical_of_object (hjs : js.Lawful) (hre : js.Reprints) {json : Text}
    {fields : List (Text × Json N)} (h : js.fromStr json = .ok (.object fields)) :
    ∃ t fields', canonicalMetadataJson js json = .ok t ∧ js.fromStr t = .ok (.object fields') := by
  obtain ⟨t, fields', hto, hfrom⟩ := hre json fields h
  refine ⟨t, fields', ?_, hfrom⟩
  rw [canonicalMetadataJson_eq hjs h, hto]
  rfl

/-- The JSON an admitted entry is stored with reads as an object. -/
theorem Admitted.entryJson_object (hjs : js.Lawful) (hre : js.Reprints) (h : Admitted e) {t : Text}
    (ht : entryJson js e = .ok t) :
    ∃ fields, js.fromStr t = .ok (.object fields) := by
  unfold entryJson at ht
  cases hjson : e.metadataJson with
  | none =>
      rw [hjson] at ht
      have hsorted : OrdMap.Sorted textLt (e.metadata.map fun p => (p.1, (.string p.2 : Json N))) :=
        List.pairwise_map.mpr (h.keys hjson)
      obtain ⟨t', hto, hfrom⟩ := hjs.strings e.metadata (h.keys hjson)
      change (js.toStr _).mapError _ = _ at ht
      rw [OrdMap.ofList_of_sorted textLt_linear hsorted, mapError_eq_ok, hto] at ht
      exact ⟨_, Except.ok.inj ht ▸ hfrom⟩
  | some json =>
      rw [hjson] at ht
      obtain ⟨v, hv, -⟩ := of_bind ht
      rw [mapError_eq_ok] at hv
      cases v with
      | object fields =>
          obtain ⟨t', fields', hcanon, hfrom⟩ := canonical_of_object hjs hre hv
          exact ⟨fields', Except.ok.inj (ht.symm.trans hcanon) ▸ hfrom⟩
      | _ =>
          change canonicalMetadataJson js json = .ok t at ht
          rw [canonicalMetadataJson, hv] at ht
          cases ht

theorem Admitted.readable (hjs : js.Lawful) (hre : js.Reprints) (h : Admitted e) {t : Text}
    (ht : entryJson js e = .ok t) : Readable js e := by
  obtain ⟨fields, hfrom⟩ := h.entryJson_object hjs hre ht
  obtain ⟨canonical, fields', hcanon, hfrom'⟩ := canonical_of_object hjs hre hfrom
  have hstored : storedJson js e = t := by
    rw [storedJson, ht]
    rfl
  have hpairs : metadataPairsFromJson js canonical =
      .ok (fields'.map fun p => (p.1, metadataValue js p.2)) := by
    rw [metadataPairsFromJson, hfrom']
    rfl
  have hread : readEnvelope js e = .ok ⟨e.severityName,
      fields'.map fun p => (p.1, metadataValue js p.2), canonical⟩ := by
    rw [readEnvelope, h.severity, ok_bind, hstored, hcanon, ok_bind, hpairs, ok_bind, pure_eq_ok]
  exact (readable_of_ok hread).1

variable {entries : List LogEntry} {cfg : BlockEngineConfig} {codec : UInt8}

theorem Admitted.readBack (h : Admitted e) (hread : isRichCodec codec = true → Readable js e) :
    Admitted (readBack js codec e) := by
  rw [Blocks.readBack]
  split_ifs with hrich
  · have hname : (enveloped js e).severity = e.severityName := by
      have hread := hread hrich
      obtain ⟨_, _, hread⟩ := of_bind hread
      obtain ⟨_, _, hread⟩ := of_bind hread
      obtain ⟨_, _, hread⟩ := of_bind hread
      exact congrArg RichMetadata.severity (Except.ok.inj hread).symm
    refine ⟨h.level, ?_, ?_, fun hnone => by cases hnone⟩
    · change canonicalSeverity (enveloped js e).severity = .ok (enveloped js e).severity
      rw [hname]
      exact h.severity
    · change levelFromName (enveloped js e).severity = .ok e.level
      rw [hname]
      exact h.bucket
  · exact h

/-! ### Tables -/

/-- A block that was encoded from admitted entries. -/
structure EncodedFrom (c : Compressors) (js : SerdeJson N) (b : Encoded (List Text))
    (entries : List LogEntry) : Prop where
  encoded : ∃ codec level, encodeBlock c js entries codec level = .ok (b.data, b.blockMeta)
  admitted : ∀ e ∈ entries, Admitted e

/-- Entries are counted; nothing else of them is kept. -/
def countReading (c : Compressors) (js : SerdeJson N) : Reading LogEntry (List Text) Unit where
  view _ := ()
  Fit _ := True
  Ok := Admitted
  Written := EncodedFrom c js

theorem encodeEntries_encodedFrom {legacy rich : UInt8} {b : Encoded (List Text)}
    (hadm : ∀ e ∈ entries, Admitted e) (h : encodeEntries c js cfg legacy rich entries = .ok b) :
    EncodedFrom c js b entries := by
  obtain ⟨⟨data, blockMeta⟩, henc, rfl⟩ := bind_pure_eq_ok.mp h
  exact ⟨⟨_, _, henc⟩, hadm⟩

theorem countReading_honors (hc : c.Lossless) (cfg : BlockEngineConfig) :
    (countReading c js).Honors (logSignal c js cfg) where
  accept _ _ _ h := accept_admitted h
  encodeRun _ _ hok h := encodeEntries_encodedFrom hok h
  encodeGroup _ _ hok h := encodeEntries_encodedFrom hok h
  decode b es out hb hout := by
    obtain ⟨codec, level, henc⟩ := hb.encoded
    obtain ⟨cols, hst⟩ := encodeBlock_ok henc
    obtain ⟨-, hread, rfl⟩ := (hst.decodeBlock_iff hc).mp hout
    refine ⟨fun e he => ?_, by rw [List.map_map]; rfl⟩
    obtain ⟨e', he', rfl⟩ := List.mem_map.mp he
    exact (hb.admitted e' he').readBack fun hrich => hread hrich e' he'
  purge _ _ _ _ hb := ⟨hb.encoded, hb.admitted⟩
  backfill _ _ _ _ _ _ hbf := nomatch hbf

/-- The sessions of a log table, over a store that log engines have written. -/
abbrev TableSession (env : StoreEnv) (c : Compressors) (js : SerdeJson N) :
    Session LogEntry (List Text) → Prop :=
  Reachable env (fun sig store => IsLogs c js sig ∧
    ∀ r ∈ store.rows, ∃ entries, EncodedFrom c js r.toEncoded entries) (Op.OpensWith (IsLogs c js))

variable {s : Session LogEntry (List Text)}

/-- Whatever is kept of every entry that is pushed, a log table stays in order. -/
theorem logs_intact {V : Type} {m : Reading LogEntry (List Text) V} (hfit : ∀ e, m.Fit e)
    (hhonors : ∀ cfg, m.Honors (logSignal c js cfg)) {env : StoreEnv}
    (h : Reachable env (fun sig store => IsLogs c js sig ∧
      ∀ r ∈ store.rows, ∃ entries, m.Written r.toEncoded entries) (Op.OpensWith (IsLogs c js)) s) :
    Holds (IsLogs c js) (Carries m none) s := by
  have hkind : ∀ sig, IsLogs c js sig → m.Honors sig := by
    rintro sig ⟨cfg, rfl⟩
    exact hhonors cfg
  refine Reachable.holds (carries_inductive hkind fun op hop => ?_) (fun _ _ h => h)
    (fun _ _ interval hstart => ⟨hstart.1, create_carries interval hstart.2⟩) h
  cases op with
  | reopen sig interval => exact hkind sig hop
  | push e => exact hfit e
  | pushBatch es => exact fun e _ => hfit e
  | _ => trivial

theorem TableSession.intact (hc : c.Lossless) {env : StoreEnv} (h : TableSession env c js s) :
    Holds (IsLogs c js) (Carries (countReading c js) none) s :=
  logs_intact (fun _ => trivial) (countReading_honors hc) h

/-! ### What the raw codecs take -/

/-- A pair as it is stored, each part behind its length. -/
def pairBytes (p : Text × Text) : List UInt8 :=
  leBytes 2 (utf8 p.1).length ++ (utf8 p.1 ++ lenPrefixed p.2)

def envelopeBytes (js : SerdeJson N) (e : LogEntry) : List UInt8 :=
  leBytes 2 (utf8 e.severityName).length ++ (utf8 e.severityName ++ lenPrefixed (storedJson js e))

theorem serializePairs_eq_ok {md : Pairs} :
    serializePairs md = .ok b ↔
      (∀ p ∈ md, (utf8 p.1).length ≤ u16Max ∧ (utf8 p.2).length ≤ u32Max) ∧
        b = md.flatMap pairBytes := by
  induction md generalizing b with
  | nil => simp [serializePairs, eq_comm]
  | cons p md ih =>
      simp only [serializePairs, bind_eq_ok, ih, serializePair, rejectIf_eq_ok,
        exists_const, not_lt, pure_eq_ok, Except.ok.injEq, List.forall_mem_cons, List.flatMap_cons]
      constructor
      · rintro ⟨_, ⟨hkey, hvalue, rfl⟩, _, ⟨hall, rfl⟩, rfl⟩
        exact ⟨⟨⟨hkey, hvalue⟩, hall⟩, rfl⟩
      · rintro ⟨⟨⟨hkey, hvalue⟩, hall⟩, rfl⟩
        exact ⟨_, ⟨hkey, hvalue, rfl⟩, _, ⟨hall, rfl⟩, rfl⟩

theorem serializeMetadata_eq_ok {mds : List Pairs} :
    serializeMetadata mds = .ok b ↔
      (∀ md ∈ mds, md.length ≤ u16Max ∧
        ∀ p ∈ md, (utf8 p.1).length ≤ u16Max ∧ (utf8 p.2).length ≤ u32Max) ∧
        b = mds.flatMap fun md => leBytes 2 md.length ++ md.flatMap pairBytes := by
  induction mds generalizing b with
  | nil => simp [serializeMetadata, eq_comm]
  | cons md mds ih =>
      simp only [serializeMetadata, rejectIf_eq_ok, exists_const, not_lt, bind_eq_ok, ih,
        serializePairs_eq_ok, pure_eq_ok, Except.ok.injEq, List.forall_mem_cons, List.flatMap_cons]
      constructor
      · rintro ⟨hcount, _, ⟨hpairs, rfl⟩, _, ⟨hall, rfl⟩, rfl⟩
        exact ⟨⟨⟨hcount, hpairs⟩, hall⟩, by rw [List.append_assoc]⟩
      · rintro ⟨⟨⟨hcount, hpairs⟩, hall⟩, rfl⟩
        exact ⟨hcount, _, ⟨hpairs, rfl⟩, _, ⟨hall, rfl⟩, by rw [List.append_assoc]⟩

theorem serializeRichMetadata_eq_ok (hadm : ∀ e ∈ entries, Admitted e) :
    serializeRichMetadata js entries = .ok b ↔
      (∀ e ∈ entries, entryJson js e = .ok (storedJson js e) ∧
        (utf8 (storedJson js e)).length ≤ u32Max) ∧
        b = entries.flatMap (envelopeBytes js) := by
  induction entries generalizing b with
  | nil => simp [serializeRichMetadata, eq_comm]
  | cons e entries ih =>
      have hsev := (hadm e List.mem_cons_self).severity_le
      have ih := fun b => ih (b := b) fun e' he' => hadm e' (List.mem_cons_of_mem _ he')
      simp only [serializeRichMetadata, bind_eq_ok, ih, serializeRich, rejectIf_eq_ok,
        exists_const, not_lt, pure_eq_ok, Except.ok.injEq, List.forall_mem_cons, List.flatMap_cons]
      constructor
      · rintro ⟨_, ⟨-, json, hjson, hle, rfl⟩, _, ⟨hall, rfl⟩, rfl⟩
        have hstored : storedJson js e = json := by
          rw [storedJson, hjson]
          rfl
        rw [hstored, envelopeBytes, hstored]
        exact ⟨⟨⟨hjson, hle⟩, hall⟩, rfl⟩
      · rintro ⟨⟨⟨hjson, hle⟩, hall⟩, rfl⟩
        exact ⟨_, ⟨hsev, _, hjson, hle, rfl⟩, _, ⟨hall, rfl⟩, rfl⟩

/-- The bytes an entry takes in the metadata column of a raw block. -/
def metadataBytes (js : SerdeJson N) (rich : Bool) (e : LogEntry) : Nat :=
  if rich then 2 + (utf8 e.severityName).length + (4 + (utf8 (storedJson js e)).length)
  else 2 + (e.metadata.map fun p => 2 + (utf8 p.1).length + (4 + (utf8 p.2).length)).sum

/-- Entries that a flush can write as one raw block: pairs and the bytes of a key are counted in two
bytes, JSON has to be an object, and the columns are counted in four bytes. -/
structure Flushable (js : SerdeJson N) (entries : List LogEntry) : Prop where
  pairs : entries.any LogEntry.isRich = false → ∀ e ∈ entries, e.metadata.length ≤ u16Max ∧
    ∀ p ∈ e.metadata, (utf8 p.1).length ≤ u16Max
  json : entries.any LogEntry.isRich = true → ∀ e ∈ entries, ∃ t, entryJson js e = .ok t
  tsColumn : entries.length * 8 ≤ u32Max
  messageColumn : (entries.map fun e => 4 + (utf8 e.message).length).sum ≤ u32Max
  metadataColumn : (entries.map (metadataBytes js (entries.any LogEntry.isRich))).sum ≤ u32Max

theorem le_of_sum_map_le {α : Type} {f : α → Nat} {l : List α} (h : (l.map f).sum ≤ n) {a : α}
    (ha : a ∈ l) : f a ≤ n :=
  (List.le_sum_of_mem (List.mem_map_of_mem ha)).trans h

theorem length_pairBytes (p : Text × Text) :
    (pairBytes p).length = 2 + (utf8 p.1).length + (4 + (utf8 p.2).length) := by
  simp only [pairBytes, lenPrefixed, List.length_append, length_leBytes]
  omega

/-- The metadata column that a raw block of these entries gets. -/
theorem rawMetadata_raw_iff (hadm : ∀ e ∈ entries, Admitted e)
    (hrich : isRichCodec codec = entries.any LogEntry.isRich) :
    (∃ raw, rawMetadata js entries codec = .ok raw ∧ raw.length ≤ u32Max) ↔
      (entries.any LogEntry.isRich = false → ∀ e ∈ entries, e.metadata.length ≤ u16Max ∧
        ∀ p ∈ e.metadata, (utf8 p.1).length ≤ u16Max) ∧
      (entries.any LogEntry.isRich = true → ∀ e ∈ entries, ∃ t, entryJson js e = .ok t) ∧
      (entries.map (metadataBytes js (entries.any LogEntry.isRich))).sum ≤ u32Max := by
  rw [rawMetadata, hrich]
  cases entries.any LogEntry.isRich with
  | true =>
      have hlen : (entries.flatMap (envelopeBytes js)).length =
          (entries.map (metadataBytes js true)).sum := by
        rw [List.length_flatMap]
        refine congrArg List.sum (List.map_congr_left fun e _ => ?_)
        simp only [envelopeBytes, lenPrefixed, metadataBytes, List.length_append, length_leBytes,
          if_true]
        omega
      simp only [if_true, serializeRichMetadata_eq_ok hadm, Bool.true_eq_false, false_implies,
        true_and, true_implies]
      constructor
      · rintro ⟨_, ⟨hall, rfl⟩, hle⟩
        exact ⟨fun e he => ⟨_, (hall e he).1⟩, hlen ▸ hle⟩
      · rintro ⟨hall, hle⟩
        refine ⟨_, ⟨fun e he => ?_, rfl⟩, by rwa [hlen]⟩
        obtain ⟨t, ht⟩ := hall e he
        have hstored : storedJson js e = t := by
          rw [storedJson, ht]
          rfl
        have hbytes := le_of_sum_map_le hle he
        rw [metadataBytes, if_pos rfl] at hbytes
        exact ⟨by rw [ht, hstored], by omega⟩
  | false =>
      have hlen : ((entries.map LogEntry.metadata).flatMap fun md =>
          leBytes 2 md.length ++ md.flatMap pairBytes).length =
            (entries.map (metadataBytes js false)).sum := by
        rw [List.length_flatMap, List.map_map]
        refine congrArg List.sum (List.map_congr_left fun e _ => ?_)
        simp [metadataBytes, List.length_flatMap, length_leBytes, length_pairBytes]
      simp only [Bool.false_eq_true, if_false, serializeMetadata_eq_ok, true_implies,
        false_implies, true_and, List.forall_mem_map]
      constructor
      · rintro ⟨_, ⟨hall, rfl⟩, hle⟩
        exact ⟨fun e he => ⟨(hall e he).1, fun p hp => ((hall e he).2 p hp).1⟩, hlen ▸ hle⟩
      · rintro ⟨hall, hle⟩
        refine ⟨_, ⟨fun e he => ⟨(hall e he).1, fun p hp => ⟨(hall e he).2 p hp, ?_⟩⟩, rfl⟩,
          by rwa [hlen]⟩
        have hbytes := le_of_sum_map_le hle he
        rw [metadataBytes, if_neg (by simp)] at hbytes
        have hpair := le_of_sum_map_le (Nat.le_of_add_left_le hbytes) hp
        omega

theorem raw_codec (hraw : isRawCodec codec = true) :
    isTypedCodec codec = false ∧ codec ≠ codecZstd ∧ knownCodec codec = true := by
  rcases Bool.or_eq_true _ _ ▸ hraw with h | h <;> rw [eq_of_beq h] <;> decide

/-- The columns of a raw block. -/
def rawColumns (codec : UInt8) (entries : List LogEntry) (raw : List UInt8) : Columns :=
  ⟨plainTs codec (entries.map LogEntry.ts), entries.map LogEntry.level,
    (entries.map LogEntry.message).flatMap lenPrefixed, raw⟩

theorem encodeColumns_raw {raw : List UInt8} {level : Int} {out : UInt8 × Columns}
    (hraw : isRawCodec codec = true) :
    encodeColumns c entries codec raw level = .ok out ↔
      (∀ e ∈ entries, (utf8 e.message).length ≤ u32Max) ∧
        out = (codec, rawColumns codec entries raw) := by
  obtain ⟨htyped, hzstd, -⟩ := raw_codec hraw
  rw [encodeColumns, if_neg (by simp [htyped]), encodePlain]
  simp only [if_neg hzstd, map_eq_ok, bind_pure_eq_ok, concatPrefixed_eq_ok, List.forall_mem_map]
  constructor
  · rintro ⟨_, ⟨_, ⟨hshort, rfl⟩, rfl⟩, rfl⟩
    exact ⟨hshort, rfl⟩
  · rintro ⟨hshort, rfl⟩
    exact ⟨_, ⟨_, ⟨hshort, rfl⟩, rfl⟩, rfl⟩

theorem rawColumns_short {raw : List UInt8} (hraw : isRawCodec codec = true) :
    (∀ col ∈ (rawColumns codec entries raw).toList, col.length ≤ u32Max) ↔
      entries.length * 8 ≤ u32Max ∧
        (entries.map fun e => 4 + (utf8 e.message).length).sum ≤ u32Max ∧ raw.length ≤ u32Max := by
  have hmsgs : ((entries.map LogEntry.message).flatMap lenPrefixed).length =
      (entries.map fun e => 4 + (utf8 e.message).length).sum := by
    rw [List.length_flatMap, List.map_map]
    refine congrArg List.sum (List.map_congr_left fun e _ => ?_)
    simp [lenPrefixed, length_leBytes]
  simp only [rawColumns, Columns.toList, List.forall_mem_cons, List.not_mem_nil, false_implies,
    implies_true, and_true, plainTs, hraw, if_true, length_i64sToLeBytes, List.length_map, hmsgs]
  omega

/-- A flush encodes admitted entries exactly if they are `Flushable`. -/
theorem encodeBlock_raw_iff (hne : entries ≠ []) (hadm : ∀ e ∈ entries, Admitted e)
    (hraw : isRawCodec codec = true) (hrich : isRichCodec codec = entries.any LogEntry.isRich)
    (level : Int) :
    (∃ out, encodeBlock c js entries codec level = .ok out) ↔ Flushable js entries := by
  constructor
  · rintro ⟨⟨bytes, m⟩, h⟩
    obtain ⟨cols, hst⟩ := encodeBlock_ok h
    obtain ⟨raw, hmeta, hcols⟩ := hst.columns
    obtain ⟨-, heq⟩ := (encodeColumns_raw hraw).mp hcols
    obtain ⟨-, rfl⟩ := Prod.mk.inj heq
    obtain ⟨hts, hmessages, hle⟩ := (rawColumns_short hraw).mp hst.cols_le
    obtain ⟨hpairs, hjson, hsize⟩ := (rawMetadata_raw_iff hadm hrich).mp ⟨raw, hmeta, hle⟩
    exact ⟨hpairs, hjson, hts, hmessages, hsize⟩
  · rintro ⟨hpairs, hjson, hts, hmessages, hsize⟩
    obtain ⟨raw, hmeta, hle⟩ := (rawMetadata_raw_iff hadm hrich).mpr ⟨hpairs, hjson, hsize⟩
    have hshort := (rawColumns_short hraw).mpr ⟨hts, hmessages, hle⟩
    have hcols : encodeColumns c entries codec raw level =
        .ok (codec, rawColumns codec entries raw) :=
      (encodeColumns_raw hraw).mpr
        ⟨fun e he => Nat.le_of_add_left_le (le_of_sum_map_le hmessages he), rfl⟩
    have hknown : ¬knownCodec codec = false := by simp [raw_codec hraw]
    have hlevels : ¬(entries.find? fun e => 3 < e.level.toNat).isSome = true := by
      intro hbad
      obtain ⟨e, he, hlevel⟩ := List.find?_isSome.mp hbad
      exact absurd (hadm e he).level (by simpa using hlevel)
    have hwidths : ¬(rawColumns codec entries raw).toList.any
        (fun col => u32Max < col.length) = true := by
      simpa using hshort
    have hlegacy : ¬(isRichCodec codec = false ∧ entries.any LogEntry.isRich = true) := by
      rintro ⟨hno, hany⟩
      rw [hrich, hany] at hno
      cases hno
    have hcount : ¬u32Max < entries.length := by omega
    exact ⟨_, rejectIf_bind_eq_ok.mpr ⟨hne, rejectIf_bind_eq_ok.mpr ⟨hknown,
      rejectIf_bind_eq_ok.mpr ⟨hcount, rejectIf_bind_eq_ok.mpr ⟨hlegacy,
        rejectIf_bind_eq_ok.mpr ⟨hlevels, bind_eq_ok.mpr ⟨raw, hmeta, bind_eq_ok.mpr ⟨_, hcols,
          rejectIf_bind_eq_ok.mpr ⟨hwidths, rfl⟩⟩⟩⟩⟩⟩⟩⟩⟩

theorem encodeRun_iff (hne : entries ≠ []) (hadm : ∀ e ∈ entries, Admitted e) :
    (∃ b, (logSignal c js cfg).encodeRun entries = .ok b) ↔ Flushable js entries := by
  have hcodec : ∀ codec, codec = (if entries.any LogEntry.isRich then codecRichRaw else codecRaw) →
      isRawCodec codec = true ∧ isRichCodec codec = entries.any LogEntry.isRich := by
    rintro _ rfl
    cases entries.any LogEntry.isRich <;> exact ⟨rfl, rfl⟩
  obtain ⟨hraw, hrich⟩ := hcodec _ rfl
  rw [← encodeBlock_raw_iff hne hadm hraw hrich cfg.zstdLevel]
  constructor
  · rintro ⟨b, hb⟩
    obtain ⟨out, hout, -⟩ := of_bind hb
    exact ⟨out, hout⟩
  · rintro ⟨out, hout⟩
    exact ⟨_, bind_eq_ok.mpr ⟨out, hout, rfl⟩⟩

/-! ### Flushing -/

section Flushing

variable {env : StoreEnv} {s : Session LogEntry (List Text)}

end Flushing

/-- A log table whose engine never starts maintenance by itself. -/
def freshTable : Session LogEntry (List Text) :=
  let sig := logSignal .storing taggedJson .default
  ⟨sig, .create sig .empty 0, none⟩

theorem freshTable_session : TableSession .reliable .storing taggedJson freshTable :=
  .start 0 ⟨⟨_, rfl⟩, fun _ hr => absurd hr List.not_mem_nil⟩

/-- The envelopes of a written block of admitted entries can be read. -/
theorem BlockStored.envelopesReadable (hjs : js.Lawful) (hre : js.Reprints) {level : Int}
    {bytes : List UInt8} {m : BlockMeta} {cols : Columns}
    (h : BlockStored c js entries codec level bytes m cols) (hadm : ∀ e ∈ entries, Admitted e) :
    EnvelopesReadable js codec entries := by
  intro hrich e he
  obtain ⟨raw, hraw, -⟩ := h.columns
  rw [rawMetadata, if_pos hrich] at hraw
  exact (hadm e he).readable hjs hre (((serializeRichMetadata_eq_ok hadm).mp hraw).1 e he).1

/-- **Reading.** In every session of a log table, over any store: every stored block was encoded
from admitted entries, and it is decoded exactly if those are within the decoder's caps. -/
theorem stored_readable_iff (hc : c.Lossless) (hjs : js.Lawful) (hre : js.Reprints)
    {env : StoreEnv} {s : Session LogEntry (List Text)} (hs : TableSession env c js s) :
    ∀ r ∈ s.engine.store.rows, (∃ entries, EncodedFrom c js r.toEncoded entries) ∧
      ∀ entries codec level, (∀ e ∈ entries, Admitted e) →
        encodeBlock c js entries codec level = .ok (r.data, r.blockMeta) →
        ((∃ es, decodeBlock c js r.data = .ok es) ↔
          BlockFits c js entries r.blockMeta.codec level) := by
  intro r hr
  obtain ⟨n, hn, -⟩ := (hs.intact hc).engine.rows
  refine ⟨exists_rowsHold_iff.mp ⟨n, hn⟩ r hr, fun entries codec level hadm henc => ?_⟩
  obtain ⟨cols, hst⟩ := encodeBlock_ok henc
  have hread := hst.envelopesReadable hjs hre hadm
  constructor
  · rintro ⟨es, hes⟩
    exact ((hst.decodeBlock_iff hc).mp hes).1
  · intro hfit
    exact ⟨_, (hst.decodeBlock_iff hc).mpr ⟨hfit, hread, rfl⟩⟩

theorem taggedJson_reprints : taggedJson.Reprints := by
  intro t fields h
  have hkeys : ∃ pairs : Pairs, KeysIncrease pairs ∧
      fields = pairs.map fun p => (p.1, .string p.2) := by
    unfold taggedJson at h
    dsimp only at h
    split at h
    · next pairs _ =>
        split_ifs at h with hcanon
        exact ⟨pairs, (canonicalPairs_iff pairs).mp hcanon, (Json.object.inj (Except.ok.inj h)).symm⟩
    · cases h
  obtain ⟨pairs, hkeys, rfl⟩ := hkeys
  obtain ⟨t', hto, hfrom⟩ := taggedJson_lawful.strings pairs hkeys
  exact ⟨t', _, hto, hfrom⟩

/-! ### A large batch -/

/-- The table after a batch of equal entries was pushed. -/
def filledTable (n : Nat) : Session LogEntry (List Text) :=
  { freshTable with
    engine := ((pushBatch freshTable.sig .reliable (List.replicate n (plainEntry 5 []))).exec
      freshTable.engine).2 }

theorem filledTable_session (n : Nat) : TableSession .reliable .storing taggedJson (filledTable n) :=
  freshTable_session.step (show Op.OpensWith _ (.pushBatch _) from trivial) rfl

theorem admitted_plainEntry : Admitted (plainEntry 5 []) :=
  accept_admitted (e := plainEntry 5 []) rfl

theorem flushRuns_replicate (hn : n ≠ 0) :
    flushRuns freshTable.sig (List.replicate n (plainEntry 5 [])) =
      [List.replicate n (plainEntry 5 [])] := by
  have hsorted : (List.replicate n (plainEntry 5 [])).Pairwise (FlushLe freshTable.sig) :=
    List.pairwise_replicate.mpr (.inr (.inr ⟨rfl, Int64.le_refl _⟩))
  rw [flushRuns, hsorted.insertionSort_eq]
  refine List.splitBy_of_isChain (by simp [hn]) (List.isChain_replicate_of_rel n ?_)
  rfl

theorem legacy_replicate (n : Nat) :
    (List.replicate n (plainEntry 5 [])).any LogEntry.isRich = false := by
  rw [List.any_eq_false]
  intro e he
  rw [List.eq_of_mem_replicate he]
  decide

theorem flushable_replicate (hn : n * 8 ≤ u32Max) :
    Flushable taggedJson (List.replicate n (plainEntry 5 [])) := by
  have hlegacy := legacy_replicate n
  refine ⟨fun _ e he => ?_, fun hrich => ?_, by simpa using hn, ?_, ?_⟩
  · rw [List.eq_of_mem_replicate he]
    exact ⟨Nat.zero_le _, fun p hp => absurd hp List.not_mem_nil⟩
  · rw [hlegacy] at hrich
    cases hrich
  · rw [List.map_replicate, List.sum_replicate_nat]
    exact (Nat.mul_le_mul_left n (by decide)).trans hn
  · rw [hlegacy, List.map_replicate, List.sum_replicate_nat]
    exact (Nat.mul_le_mul_left n (by decide)).trans hn

/-- A batch that fills the buffer goes into one raw block, whatever its size. -/
theorem filledTable_row (hfull : 8192 ≤ n) (hn : n * 8 ≤ u32Max) :
    ∃ r ∈ (filledTable n).engine.store.rows,
      encodeBlock .storing taggedJson (List.replicate n (plainEntry 5 [])) codecRaw 7 =
        .ok (r.data, r.blockMeta) := by
  have hadm : ∀ e ∈ List.replicate n (plainEntry 5 []), Admitted e := fun e he =>
    List.eq_of_mem_replicate he ▸ admitted_plainEntry
  have hne : List.replicate n (plainEntry 5 []) ≠ [] := by
    simp only [ne_eq, List.replicate_eq_nil_iff]
    omega
  have hflushable := flushable_replicate hn
  obtain ⟨b, hb⟩ : ∃ b, freshTable.sig.encodeRun (List.replicate n (plainEntry 5 [])) = .ok b :=
    (encodeRun_iff hne hadm).mpr hflushable
  have haccept : (List.replicate n (plainEntry 5 [])).mapM freshTable.sig.accept =
      .ok (List.replicate n (plainEntry 5 [])) := by
    refine mapM_eq_ok.mpr (List.forall₂_iff_get.mpr ⟨rfl, fun i _ _ => ?_⟩)
    simp only [List.get_eq_getElem, List.getElem_replicate]
    rfl
  have hblocks : encodeRuns freshTable.sig ((List.replicate n (plainEntry 5 [])).insertionSort
      (FlushLe freshTable.sig)) =
        .ok [(b, (List.replicate n (plainEntry 5 [])).head?.map freshTable.sig.part)] := by
    change (flushRuns _ _).mapM _ = _
    rw [flushRuns_replicate (by omega), List.mapM_cons, hb]
    rfl
  have hthreshold : freshTable.sig.flushThreshold ≤ (List.replicate n (plainEntry 5 [])).length := by
    rw [List.length_replicate]
    exact hfull
  obtain ⟨_, e, hrun, hrows⟩ := (pushBatch_flushes (e := freshTable.engine)
    StoreEnv.reliable_neverFails rfl rfl haccept rfl hthreshold hblocks).returns rfl
  have hengine : (filledTable n).engine = e := congrArg Prod.snd hrun
  obtain ⟨out, hout, rfl⟩ := bind_pure_eq_ok.mp hb
  rw [hengine, hrows]
  refine ⟨_, List.mem_append_right _ (List.mem_singleton.mpr rfl), ?_⟩
  rw [legacy_replicate, if_neg Bool.false_ne_true] at hout
  exact hout

theorem stored_readable_iff_batch : ∃ r ∈ (filledTable 8192).engine.store.rows,
    (∃ entries, EncodedFrom .storing taggedJson r.toEncoded entries) ∧
      ((∃ es, decodeBlock .storing taggedJson r.data = .ok es) ↔
        BlockFits .storing taggedJson (List.replicate 8192 (plainEntry 5 [])) r.blockMeta.codec 7) := by
  obtain ⟨r, hr, henc⟩ := filledTable_row (n := 8192) (by decide) (by decide)
  obtain ⟨hfrom, hiff⟩ := stored_readable_iff Compressors.storing_lossless taggedJson_lawful
    taggedJson_reprints (filledTable_session 8192) r hr
  refine ⟨r, hr, hfrom, hiff _ _ _ (fun e he => ?_) henc⟩
  exact List.eq_of_mem_replicate he ▸ admitted_plainEntry

/-- One entry more than a block may have: the batch is stored and cannot be read any more. -/
theorem flush_writes_unreadable : TableSession .reliable .storing taggedJson (filledTable 1048577) ∧
    ∃ r ∈ (filledTable 1048577).engine.store.rows,
      ∃ err, decodeBlock .storing taggedJson r.data = .error err := by
  refine ⟨filledTable_session _, ?_⟩
  obtain ⟨r, hr, henc⟩ := filledTable_row (n := 1048577) (by decide) (by decide)
  obtain ⟨cols, hst⟩ := encodeBlock_ok henc
  refine ⟨r, hr, hst.decodeBlock_over Compressors.storing_lossless fun hfit => ?_⟩
  have hcount := hfit.count
  rw [List.length_replicate] at hcount
  exact absurd hcount (by decide)

end Timeless.Blocks
