import Timeless.Blocks.Decode
import Timeless.Codec.Lengths

/-!
# Projection — blocks without the columns that are not asked for

A reader that does not need a payload column has it left out: the decoder does not open it and puts
something empty in its place. `LogProjection.row` is what a row shows of the columns that are asked
for.

* `decodeBlockProjected_rows`: whatever the bytes are, if the whole block can be decoded, then so can
  the projected one, and both show the same of the columns that are asked for.

The reverse is not so: a column that is left out is not checked.
-/

namespace Timeless.Blocks

open Support Codec

/-! ### What a row shows -/

/-- What is asked for of a row. The metadata of an entry without JSON is shown from its pairs. -/
structure ShownRow where
  ts : Int64
  level : UInt8
  message : Option Text
  severity : Option Text
  metadata : Option (Text ⊕ Pairs)
  pairs : Option Pairs

def LogEntry.metadataText (e : LogEntry) : Text ⊕ Pairs :=
  match e.metadataJson with
  | some json => .inl json
  | none => .inr e.metadata

/-- A value that is asked for. -/
def asked {α : Type} (wanted : Bool) (a : α) : Option α :=
  if wanted then some a else none

variable {α : Type} {a : α} {msgs : List Text} {ps : List Payload} {out : List Pairs} {index : Nat}
  {es : List LogEntry}

theorem asked_eq_asked {wanted : Bool} {b : α} :
    asked wanted a = asked wanted b ↔ (wanted = true → a = b) := by
  cases wanted <;> simp [asked]

def LogProjection.row (p : LogProjection) (e : LogEntry) : ShownRow where
  ts := e.ts
  level := e.level
  message := asked p.message e.message
  severity := asked p.severity e.severityName
  metadata := asked p.metadata e.metadataText
  pairs := asked p.metadataPairs e.metadata

/-- A payload is as good as another for a projection. -/
structure LogProjection.Covers (p : LogProjection) (a b : Payload) : Prop where
  severity : p.severity = true → a.severity = b.severity
  metadata : p.metadata = true → a.metadataJson = b.metadataJson ∧
    (b.metadataJson = none → a.metadata = b.metadata)
  pairs : p.metadataPairs = true → a.metadata = b.metadata

variable {p : LogProjection}

theorem LogProjection.Covers.refl (a : Payload) : p.Covers a a :=
  ⟨fun _ => rfl, fun _ => ⟨rfl, fun _ => rfl⟩, fun _ => rfl⟩

theorem LogProjection.Covers.row_eq {a b : Payload} (h : p.Covers a b) (ts : Int64) (level : UInt8)
    {msg msg' : Text} (hmsg : p.message = true → msg = msg') :
    p.row ⟨ts, level, a.severity, msg, a.metadata, a.metadataJson⟩ =
      p.row ⟨ts, level, b.severity, msg', b.metadata, b.metadataJson⟩ := by
  have hseverity : p.severity = true →
      LogEntry.severityName ⟨ts, level, a.severity, msg, a.metadata, a.metadataJson⟩ =
        LogEntry.severityName ⟨ts, level, b.severity, msg', b.metadata, b.metadataJson⟩ := by
    intro hp
    rw [LogEntry.severityName, LogEntry.severityName, h.severity hp]
  have hmetadata : p.metadata = true →
      LogEntry.metadataText ⟨ts, level, a.severity, msg, a.metadata, a.metadataJson⟩ =
        LogEntry.metadataText ⟨ts, level, b.severity, msg', b.metadata, b.metadataJson⟩ := by
    intro hp
    obtain ⟨hjson, hpairs⟩ := h.metadata hp
    rw [LogEntry.metadataText, LogEntry.metadataText]
    dsimp only
    rw [hjson]
    cases hb : b.metadataJson with
    | none => exact congrArg Sum.inr (hpairs hb)
    | some json => rfl
  rw [LogProjection.row, LogProjection.row, asked_eq_asked.mpr hmsg, asked_eq_asked.mpr hseverity,
    asked_eq_asked.mpr hmetadata, asked_eq_asked.mpr h.pairs]

/-- Columns that cover each other make rows that show the same. -/
theorem rows_zipEntries {tss : List Int64} {lvls : List UInt8} {msgs' : List Text}
    {ps' : List Payload}
    (hmsgs : List.Forall₂ (fun msg msg' => p.message = true → msg = msg') msgs msgs')
    (hps : List.Forall₂ p.Covers ps ps') :
    (zipEntries tss lvls msgs ps).map p.row = (zipEntries tss lvls msgs' ps').map p.row := by
  induction tss generalizing lvls msgs msgs' ps ps' with
  | nil => rfl
  | cons ts tss ih =>
      obtain _ | ⟨lvl, lvls⟩ := lvls
      · rfl
      cases hmsgs with
      | nil => rfl
      | cons hmsg hmsgs =>
          cases hps with
          | nil => rfl
          | cons hpay hps =>
              rw [zipEntries, zipEntries, List.map_cons, List.map_cons, ih hmsgs hps,
                hpay.row_eq ts lvl hmsg]

/-- Columns in whose place something empty is put. -/
theorem forall₂_replicate {β : Type} {R : α → β → Prop} {bs : List β} (h : ∀ b ∈ bs, R a b) :
    List.Forall₂ R (List.replicate bs.length a) bs := by
  induction bs with
  | nil => exact List.Forall₂.nil
  | cons b bs ih =>
      exact List.Forall₂.cons (h b List.mem_cons_self)
        (ih fun b' hb' => h b' (List.mem_cons_of_mem _ hb'))

theorem forall₂_replicate_map {β γ : Type} {R : α → β → Prop} {f : γ → β} {cs : List γ}
    (h : ∀ c, R a (f c)) : List.Forall₂ R (List.replicate cs.length a) (cs.map f) :=
  List.forall₂_map_right_iff.mpr (forall₂_replicate fun c _ => h c)

theorem forall₂_refl {R : α → α → Prop} (h : ∀ a, R a a) (l : List α) :
    List.Forall₂ R l l :=
  List.forall₂_same.mpr fun a _ => h a

/-! ### How many entries -/

section Lengths

variable {c : Compressors} {N : Type} {js : SerdeJson N} {n : Nat}

variable {bytes : List UInt8} {col : List UInt8} {r r' : Reader}

theorem parseEntries_length {i : Nat} (h : parseEntries n i r = .ok (out, r')) :
    out.length = n := by
  induction n generalizing i r r' out with
  | zero =>
      obtain ⟨rfl, -⟩ := read_pure_eq_ok.mp h
      rfl
  | succ n ih =>
      obtain ⟨pairs, r₁, -, h⟩ := of_read h
      obtain ⟨md, r₂, -, h⟩ := of_read h
      obtain ⟨rest, r₃, hrest, h⟩ := of_read h
      obtain ⟨rfl, -⟩ := read_pure_eq_ok.mp h
      rw [List.length_cons, ih hrest]

theorem parseMetadata_length {raw : List UInt8} (h : parseMetadata raw n = .ok out) :
    out.length = n := by
  obtain ⟨r, h⟩ := run_eq_ok.mp h
  obtain ⟨entries, r₁, hentries, h⟩ := of_read h
  obtain ⟨left, r₂, -, h⟩ := of_read h
  obtain ⟨-, r₃, -, h⟩ := of_read h
  obtain ⟨rfl, -⟩ := read_pure_eq_ok.mp h
  exact parseEntries_length hentries

theorem spread_length (key : Text) (es : List Pairs) (bs : List Bool) (vs : List Text) :
    (spread key es bs vs).length = es.length := by
  fun_induction spread key es bs vs with
  | case1 e es bs v vs ih => rw [List.length_cons, ih, List.length_cons]
  | case2 e es b bs vs _ ih => rw [List.length_cons, ih, List.length_cons]
  | case3 => rfl

theorem readKeyColumns_length {what : String} {keys : List Text} {start : List Pairs}
    (h : readKeyColumns c what n keys start r = .ok (out, r')) :
    out.length = start.length := by
  induction keys generalizing start r with
  | nil =>
      obtain ⟨rfl, -⟩ := read_pure_eq_ok.mp h
      rfl
  | cons key keys ih =>
      obtain ⟨bm, r₁, -, h⟩ := of_read h
      obtain ⟨present, r₂, -, h⟩ := of_read h
      obtain ⟨frame, r₃, -, h⟩ := of_read h
      obtain ⟨values, r₄, -, h⟩ := of_read h
      rw [ih h, spread_length]

theorem decodePairsColumn_length {what : String}
    (h : decodePairsColumn c bytes n what parseMetadata = .ok out) : out.length = n := by
  obtain ⟨r, h⟩ := run_eq_ok.mp h
  obtain ⟨strategy, r₁, -, h⟩ := of_read h
  split_ifs at h
  · obtain ⟨left, r₂, -, h⟩ := of_read h
    obtain ⟨z, r₃, -, h⟩ := of_read h
    obtain ⟨raw, r₄, -, h⟩ := of_read h
    exact parseMetadata_length (read_lift_eq_ok.mp h).1
  · obtain ⟨nKeys, r₂, -, h⟩ := of_read h
    obtain ⟨-, r₃, -, h⟩ := of_read h
    obtain ⟨keys, r₄, -, h⟩ := of_read h
    obtain ⟨rows, r₅, hrows, h⟩ := of_read h
    obtain ⟨left, r₆, -, h⟩ := of_read h
    obtain ⟨-, r₇, -, h⟩ := of_read h
    obtain ⟨rfl, -⟩ := read_pure_eq_ok.mp h
    rw [readKeyColumns_length hrows, List.length_replicate]
  · cases h

theorem checkIds_length {dictN i : Nat} {ids : List Int64} {out : List Nat}
    (h : checkIds dictN i ids = .ok out) : out.length = ids.length := by
  induction ids generalizing i out with
  | nil =>
      obtain rfl := Except.ok.inj h
      rfl
  | cons id ids ih =>
      obtain ⟨-, h⟩ := rejectIf_bind_eq_ok.mp h
      obtain ⟨rest, hrest, rfl⟩ := bind_pure_eq_ok.mp h
      rw [List.length_cons, ih hrest, List.length_cons]

theorem renderAll_length {d : TemplateData} {ids cursors : List Nat} {out : List Text}
    (h : renderAll d ids cursors = .ok out) : out.length = ids.length := by
  induction ids generalizing cursors out with
  | nil =>
      obtain rfl := Except.ok.inj h
      rfl
  | cons id ids ih =>
      obtain ⟨first, -, h⟩ := of_bind h
      obtain ⟨rest, hrest, rfl⟩ := bind_pure_eq_ok.mp h
      rw [List.length_cons, ih hrest, List.length_cons]

theorem readTemplate_length {d : TemplateData} (h : readTemplate c bytes n = .ok d) :
    d.ids.length = n := by
  obtain ⟨cols, -, h⟩ := of_bind h
  obtain ⟨ids, hids, h⟩ := of_bind h
  obtain ⟨dict, -, h⟩ := of_bind h
  obtain ⟨widths, -, h⟩ := of_bind h
  obtain ⟨values, -, h⟩ := of_bind h
  obtain ⟨strs, -, h⟩ := of_bind h
  obtain ⟨places, hplaces, h⟩ := of_bind h
  obtain ⟨layout, -, rfl⟩ := bind_pure_eq_ok.mp h
  exact (checkIds_length hplaces).trans (decodeI64_length hids)

theorem decodeTemplateStr_length {out : List Text} (h : decodeTemplateStr c bytes n = .ok out) :
    out.length = n := by
  obtain ⟨d, hd, h⟩ := of_bind h
  exact (renderAll_length h).trans (readTemplate_length hd)

end Lengths

/-! ### The envelopes -/

section Envelopes

variable {c : Compressors} {N : Type} {js : SerdeJson N} {n : Nat}

theorem richJson_projected {json out : Text} (h : richJson js .all index json = .ok out) :
    richJson js p index json = .ok (if p.metadata || p.metadataPairs then out else []) := by
  unfold richJson at h ⊢
  split_ifs
  · exact h
  · rfl

theorem richPairs_projected {json : Text} {out : Pairs} (h : richPairs js .all json = .ok out) :
    richPairs js p (if p.metadata || p.metadataPairs then json else []) =
      .ok (if p.metadataPairs then out else []) := by
  unfold richPairs at h ⊢
  by_cases hpairs : p.metadataPairs = true
  · rw [if_pos hpairs, if_pos hpairs, if_pos (by rw [hpairs, Bool.or_true])]
    exact h
  · rw [if_neg hpairs, if_neg hpairs]

/-- An envelope that can be read whole can be read for a projection, and ends at the same place. -/
theorem parseRichEntry_projected {rich : RichMetadata}
    (h : parseRichEntry js .all index r = .ok (rich, r')) :
    ∃ rich', parseRichEntry js p index r = .ok (rich', r') ∧
      p.Covers rich'.payload rich.payload := by
  obtain ⟨severityLen, r₁, hlen, h⟩ := of_read h
  obtain ⟨severity, r₂, hseverity, h⟩ := of_read h
  obtain ⟨canonical, r₃, hcanonical, h⟩ := of_read h
  obtain ⟨jsonLen, r₄, hjsonLen, h⟩ := of_read h
  obtain ⟨json, r₅, hjson, h⟩ := of_read h
  obtain ⟨metadataJson, r₆, hmj, h⟩ := of_read h
  obtain ⟨metadata, r₇, hmd, h⟩ := of_read h
  obtain ⟨rfl, rfl⟩ := read_pure_eq_ok.mp h
  obtain ⟨hjson', rfl⟩ := read_lift_eq_ok.mp hmj
  obtain ⟨hpairs', rfl⟩ := read_lift_eq_ok.mp hmd
  refine ⟨⟨severity, if p.metadataPairs then metadata else [],
    if p.metadata || p.metadataPairs then metadataJson else []⟩, ?_, ?_⟩
  · refine read_bind_eq_ok.mpr ⟨severityLen, r₁, hlen, ?_⟩
    refine read_bind_eq_ok.mpr ⟨severity, r₂, hseverity, ?_⟩
    refine read_bind_eq_ok.mpr ⟨canonical, r₃, hcanonical, ?_⟩
    refine read_bind_eq_ok.mpr ⟨jsonLen, r₄, hjsonLen, ?_⟩
    refine read_bind_eq_ok.mpr ⟨json, r₅, hjson, ?_⟩
    refine read_bind_eq_ok.mpr ⟨_, r₅, read_lift_eq_ok.mpr ⟨richJson_projected hjson', rfl⟩, ?_⟩
    exact read_bind_eq_ok.mpr ⟨_, r₅, read_lift_eq_ok.mpr ⟨richPairs_projected hpairs', rfl⟩, rfl⟩
  · refine ⟨fun _ => rfl, fun hmetadata => ⟨?_, fun hnone => ?_⟩, fun hpairs => ?_⟩
    · change some _ = some _
      rw [hmetadata, Bool.true_or, if_pos rfl]
    · cases hnone
    · exact if_pos hpairs

variable {out : List RichMetadata}

theorem parseRichEntries_projected (h : parseRichEntries js .all n index r = .ok (out, r')) :
    ∃ out', parseRichEntries js p n index r = .ok (out', r') ∧
      List.Forall₂ p.Covers (out'.map RichMetadata.payload) (out.map RichMetadata.payload) ∧
      out.length = n := by
  induction n generalizing index r r' out with
  | zero =>
      obtain ⟨rfl, rfl⟩ := read_pure_eq_ok.mp h
      exact ⟨[], rfl, List.Forall₂.nil, rfl⟩
  | succ n ih =>
      obtain ⟨rich, r₁, hrich, h⟩ := of_read h
      obtain ⟨rest, r₂, hrest, h⟩ := of_read h
      obtain ⟨rfl, rfl⟩ := read_pure_eq_ok.mp h
      obtain ⟨rich', hrich', hcovers⟩ := parseRichEntry_projected (p := p) hrich
      obtain ⟨rest', hrest', hall, hlen⟩ := ih hrest
      refine ⟨rich' :: rest', ?_, List.Forall₂.cons hcovers hall, by rw [List.length_cons, hlen]⟩
      exact read_bind_eq_ok.mpr ⟨rich', r₁, hrich', read_bind_eq_ok.mpr ⟨rest', r₂, hrest', rfl⟩⟩

theorem parseRich_projected {raw : List UInt8}
    (h : parseRichMetadataProjected js raw n .all = .ok out) :
    ∃ out', parseRichMetadataProjected js raw n p = .ok out' ∧
      List.Forall₂ p.Covers (out'.map RichMetadata.payload) (out.map RichMetadata.payload) ∧
      out.length = n := by
  obtain ⟨r, h⟩ := run_eq_ok.mp h
  obtain ⟨entries, r₁, hentries, h⟩ := of_read h
  obtain ⟨left, r₂, hleft, h⟩ := of_read h
  obtain ⟨u, r₃, hend, h⟩ := of_read h
  obtain ⟨rfl, rfl⟩ := read_pure_eq_ok.mp h
  obtain ⟨entries', hentries', hcovers⟩ := parseRichEntries_projected (p := p) hentries
  refine ⟨entries', run_eq_ok.mpr ⟨r₃, ?_⟩, hcovers⟩
  refine read_bind_eq_ok.mpr ⟨entries', r₁, hentries', ?_⟩
  exact read_bind_eq_ok.mpr ⟨left, r₂, hleft, read_bind_eq_ok.mpr ⟨u, r₃, hend, rfl⟩⟩

end Envelopes

/-! ### The columns -/

section Columns

variable {c : Compressors} {N : Type} {js : SerdeJson N} {n : Nat} {codec : UInt8}

/-- Messages that were decoded, and those in whose place something empty is put. -/
abbrev MessagesCover (p : LogProjection) : List Text → List Text → Prop :=
  List.Forall₂ fun msg msg' => p.message = true → msg = msg'

theorem messagesCover_left_out (hp : p.message = false) (hlen : msgs.length = n) :
    MessagesCover p (List.replicate n []) msgs := by
  subst hlen
  refine forall₂_replicate fun msg _ hyes => ?_
  rw [hp] at hyes
  cases hyes

theorem decodeTypedMessages_projected (h : decodeTypedMessages c codec .all col n = .ok msgs) :
    ∃ msgs', decodeTypedMessages c codec p col n = .ok msgs' ∧ MessagesCover p msgs' msgs := by
  have hlen : msgs.length = n := by
    rw [decodeTypedMessages] at h
    split_ifs at h with hnone
    · cases hnone
    · exact decodeTemplateStr_length h
    · exact decodeStr_length h
  cases hp : p.message with
  | false =>
      exact ⟨_, by rw [decodeTypedMessages, if_pos hp], messagesCover_left_out hp hlen⟩
  | true =>
      refine ⟨msgs, ?_, forall₂_refl (fun _ _ => rfl) msgs⟩
      rw [decodeTypedMessages, hp]
      exact h

theorem richEnvelope_eq_false : p.richEnvelope = false ↔
    (p.metadata = false ∧ p.metadataPairs = false) ∧ p.severity = false := by
  rw [LogProjection.richEnvelope, Bool.or_eq_false_iff, Bool.or_eq_false_iff]

/-- Payloads of which nothing is asked for. -/
theorem covers_nothing (hp : p.richEnvelope = false) (a b : Payload) : p.Covers a b := by
  obtain ⟨⟨hmetadata, hpairs⟩, hseverity⟩ := richEnvelope_eq_false.mp hp
  refine ⟨fun h => ?_, fun h => ?_, fun h => ?_⟩
  · rw [hseverity] at h
    cases h
  · rw [hmetadata] at h
    cases h
  · rw [hpairs] at h
    cases h

/-- Pairs that are not asked for; the severity is that of the level in any case. -/
theorem covers_pairs_left_out (hneither : p.metadata = false ∧ p.metadataPairs = false)
    {mds : List Pairs} (hlen : mds.length = n) :
    List.Forall₂ p.Covers (List.replicate n (pairsPayload [])) (mds.map pairsPayload) := by
  rw [← hlen]
  refine forall₂_replicate_map fun md => ⟨fun _ => rfl, fun h => ?_, fun h => ?_⟩
  · rw [hneither.1] at h
    cases h
  · rw [hneither.2] at h
    cases h

theorem decodeTypedPayloads_projected (h : decodeTypedPayloads c js codec .all col n = .ok ps) :
    ∃ ps', decodeTypedPayloads c js codec p col n = .ok ps' ∧ List.Forall₂ p.Covers ps' ps := by
  rw [decodeTypedPayloads] at h
  split_ifs at h with hrich hnone hv2
  · -- rich: the envelopes are read if anything of them is asked for
    have hcodec : isRichCodec codec = true := (Bool.and_eq_true _ _ ▸ hrich).1
    obtain ⟨raw, hraw, h⟩ := of_bind h
    obtain ⟨rich, hparse, rfl⟩ := bind_pure_eq_ok.mp h
    obtain ⟨rich', hparse', hcovers, hlen⟩ := parseRich_projected (p := p) hparse
    cases hp : p.richEnvelope with
    | true =>
        refine ⟨rich'.map RichMetadata.payload, ?_, hcovers⟩
        rw [decodeTypedPayloads, if_pos (by rw [hcodec, hp]; rfl), hraw, ok_bind, hparse', ok_bind]
        rfl
    | false =>
        refine ⟨List.replicate n (pairsPayload []), ?_, ?_⟩
        · rw [decodeTypedPayloads, if_neg (by rw [hp, Bool.and_false]; exact Bool.false_ne_true),
            if_pos (richEnvelope_eq_false.mp hp).1]
        · rw [← hlen]
          exact forall₂_replicate_map fun b => covers_nothing hp _ b.payload
  · cases hnone.1
  all_goals
    have hcodec : ¬(isRichCodec codec && p.richEnvelope) = true := by
      intro hboth
      rw [Bool.and_eq_true] at hboth
      exact hrich (by rw [hboth.1]; rfl)
    by_cases hneither : p.metadata = false ∧ p.metadataPairs = false
  · obtain ⟨mds, hmds, rfl⟩ := map_eq_ok.mp h
    refine ⟨_, by rw [decodeTypedPayloads, if_neg hcodec, if_pos hneither], ?_⟩
    exact covers_pairs_left_out hneither (decodePairsColumn_length hmds)
  · refine ⟨ps, ?_, forall₂_refl LogProjection.Covers.refl ps⟩
    rw [decodeTypedPayloads, if_neg hcodec, if_neg hneither, if_pos hv2]
    exact h
  · obtain ⟨raw, hraw, h⟩ := of_bind h
    obtain ⟨mds, hmds, rfl⟩ := bind_pure_eq_ok.mp h
    refine ⟨_, by rw [decodeTypedPayloads, if_neg hcodec, if_pos hneither], ?_⟩
    exact covers_pairs_left_out hneither (parseMetadata_length hmds)
  · refine ⟨ps, ?_, forall₂_refl LogProjection.Covers.refl ps⟩
    rw [decodeTypedPayloads, if_neg hcodec, if_neg hneither, if_neg hv2]
    exact h

/-- Is anything asked for that is in the metadata column of a plain block? -/
def LogProjection.asksMetadata (p : LogProjection) (codec : UInt8) : Bool :=
  p.metadata || p.metadataPairs || (codec == codecRichRaw && p.severity)

theorem plainColumns_projected {stored cols : Columns}
    (h : plainColumns c codec stored .all = .ok cols) :
    plainColumns c codec stored p = .ok ⟨cols.ts, cols.level,
      if p.message then cols.message else [],
      if p.asksMetadata codec then cols.metadata else []⟩ := by
  rw [plainColumns] at h ⊢
  by_cases hzstd : codec = codecZstd
  · rw [if_pos hzstd] at h ⊢
    obtain ⟨ts, hts, h⟩ := of_bind h
    obtain ⟨level, hlevel, h⟩ := of_bind h
    obtain ⟨message, hmessage, h⟩ := of_bind h
    obtain ⟨metadata, hmetadata, rfl⟩ := bind_pure_eq_ok.mp h
    rw [columnUnless, if_neg (fun hno => by cases hno)] at hmessage
    rw [columnUnless, if_neg (fun hno => by cases hno.1)] at hmetadata
    have hasks : p.asksMetadata codec = (p.metadata || p.metadataPairs) := by
      rw [LogProjection.asksMetadata, hzstd, show (codecZstd == codecRichRaw) = false from rfl,
        Bool.false_and, Bool.or_false]
    rw [hts, ok_bind, hlevel, ok_bind, hmessage, hmetadata, hasks]
    cases p.message <;> cases p.metadata <;> cases p.metadataPairs <;> rfl
  · rw [if_neg hzstd] at h ⊢
    obtain rfl : stored = cols := Except.ok.inj h
    change Except.ok (Columns.mk stored.ts stored.level (if p.message = false then [] else _)
      (if p.asksMetadata codec = false then [] else _)) = _
    cases p.message <;> cases p.asksMetadata codec <;> rfl

theorem plainMessages_projected (h : plainMessages .all col n = .ok msgs) :
    ∃ msgs', plainMessages p (if p.message then col else []) n = .ok msgs' ∧
      MessagesCover p msgs' msgs := by
  have hlen : msgs.length = n := by
    rw [plainMessages, if_neg (fun hno => by cases hno)] at h
    obtain ⟨r, h⟩ := run_eq_ok.mp h
    obtain ⟨texts, r₁, htexts, h⟩ := of_read h
    obtain ⟨left, r₂, -, h⟩ := of_read h
    obtain ⟨-, r₃, -, h⟩ := of_read h
    obtain ⟨rfl, -⟩ := read_pure_eq_ok.mp h
    exact readTexts_length htexts
  cases hp : p.message with
  | false =>
      refine ⟨List.replicate n [], ?_, messagesCover_left_out hp hlen⟩
      rw [plainMessages, if_pos hp]
      rfl
  | true =>
      refine ⟨msgs, ?_, forall₂_refl (fun _ _ => rfl) msgs⟩
      rw [plainMessages, hp]
      exact h

theorem plainPayloads_projected (h : plainPayloads js codec .all col n = .ok ps) :
    ∃ ps', plainPayloads js codec p (if p.asksMetadata codec then col else []) n = .ok ps' ∧
      List.Forall₂ p.Covers ps' ps := by
  rw [plainPayloads] at h
  split_ifs at h with hrich hnone
  · have hcodec : (codec == codecRichRaw) = true := (Bool.and_eq_true _ _ ▸ hrich).1
    have hasks : p.asksMetadata codec = p.richEnvelope := by
      rw [LogProjection.asksMetadata, hcodec, Bool.true_and]
      rfl
    obtain ⟨rich, hparse, rfl⟩ := map_eq_ok.mp h
    obtain ⟨rich', hparse', hcovers, hlen⟩ := parseRich_projected (p := p) hparse
    cases hp : p.richEnvelope with
    | true =>
        refine ⟨rich'.map RichMetadata.payload, ?_, hcovers⟩
        rw [plainPayloads, if_pos (by rw [hcodec, hp]; rfl), hasks, hp, if_pos rfl, hparse']
        rfl
    | false =>
        refine ⟨List.replicate n (pairsPayload []), ?_, ?_⟩
        · rw [plainPayloads, if_neg (by rw [hp, Bool.and_false]; exact Bool.false_ne_true),
            if_pos (richEnvelope_eq_false.mp hp).1]
        · rw [← hlen]
          exact forall₂_replicate_map fun b => covers_nothing hp _ b.payload
  · cases hnone.1
  · have hcodec : ¬(codec == codecRichRaw && p.richEnvelope) = true := by
      intro hboth
      rw [Bool.and_eq_true] at hboth
      exact hrich (by rw [hboth.1]; rfl)
    obtain ⟨mds, hmds, rfl⟩ := map_eq_ok.mp h
    by_cases hneither : p.metadata = false ∧ p.metadataPairs = false
    · refine ⟨_, by rw [plainPayloads, if_neg hcodec, if_pos hneither], ?_⟩
      exact covers_pairs_left_out hneither (parseMetadata_length hmds)
    · have hasks : p.asksMetadata codec = true := by
        rw [LogProjection.asksMetadata]
        cases hm : p.metadata with
        | true => rfl
        | false =>
            cases hq : p.metadataPairs with
            | true => rfl
            | false => exact absurd ⟨hm, hq⟩ hneither
      refine ⟨mds.map pairsPayload, ?_, forall₂_refl LogProjection.Covers.refl _⟩
      rw [plainPayloads, if_neg hcodec, if_neg hneither, if_pos hasks, hmds]
      rfl

/-! ### The block -/

theorem decodeBlockTyped_projected {f : Framing} {cols : Columns}
    (h : decodeBlockTyped c js codec f cols .all = .ok es) :
    ∃ es', decodeBlockTyped c js codec f cols p = .ok es' ∧ es'.map p.row = es.map p.row := by
  obtain ⟨timestamps, hts, h⟩ := of_bind h
  obtain ⟨levels, hlevels, h⟩ := of_bind h
  obtain ⟨u, hcheck, h⟩ := of_bind h
  obtain ⟨msgs, hmsgs, h⟩ := of_bind h
  obtain ⟨ps, hps, h⟩ := of_bind h
  obtain ⟨u', hrange, rfl⟩ := bind_pure_eq_ok.mp h
  obtain ⟨msgs', hmsgs', hcover⟩ := decodeTypedMessages_projected (p := p) hmsgs
  obtain ⟨ps', hps', hcovers⟩ := decodeTypedPayloads_projected (p := p) hps
  refine ⟨zipEntries timestamps levels msgs' ps', ?_, rows_zipEntries hcover hcovers⟩
  rw [decodeBlockTyped, hts, ok_bind, hlevels, ok_bind, hcheck, ok_bind, hmsgs', ok_bind, hps',
    ok_bind, hrange, ok_bind]
  rfl

theorem decodeBlockLegacy_projected {f : Framing} {stored : Columns}
    (h : decodeBlockLegacy c js codec f stored .all = .ok es) :
    ∃ es', decodeBlockLegacy c js codec f stored p = .ok es' ∧ es'.map p.row = es.map p.row := by
  obtain ⟨cols, hcols, h⟩ := of_bind h
  obtain ⟨timestamps, hts, h⟩ := of_bind h
  obtain ⟨hlen, h⟩ := rejectIf_bind_eq_ok.mp h
  obtain ⟨u, hcheck, h⟩ := of_bind h
  obtain ⟨msgs, hmsgs, h⟩ := of_bind h
  obtain ⟨ps, hps, h⟩ := of_bind h
  obtain ⟨u', hrange, rfl⟩ := bind_pure_eq_ok.mp h
  obtain ⟨msgs', hmsgs', hcover⟩ := plainMessages_projected (p := p) hmsgs
  obtain ⟨ps', hps', hcovers⟩ := plainPayloads_projected (p := p) hps
  refine ⟨zipEntries timestamps cols.level msgs' ps', ?_, rows_zipEntries hcover hcovers⟩
  rw [decodeBlockLegacy, plainColumns_projected hcols, ok_bind, hts, ok_bind]
  refine rejectIf_bind_eq_ok.mpr ⟨hlen, ?_⟩
  rw [hcheck, ok_bind, hmsgs', ok_bind, hps', ok_bind, hrange, ok_bind]
  rfl

/-- **Projection.** A block that can be decoded whole can be decoded for a projection, and shows the
same of what is asked for. -/
theorem decodeBlockProjected_rows (h : decodeBlock c js bytes = .ok es) (p : LogProjection) :
    ∃ es', decodeBlockProjected c js bytes p = .ok es' ∧ es'.map p.row = es.map p.row := by
  obtain ⟨⟨codec, f, cols⟩, hread, h⟩ := of_bind h
  dsimp only at h
  simp only [decodeBlockProjected, hread, ok_bind]
  split_ifs at h ⊢
  · exact decodeBlockTyped_projected h
  · exact decodeBlockLegacy_projected h

end Columns

end Timeless.Blocks
