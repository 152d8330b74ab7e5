import Timeless.Blocks.Engine
import Timeless.Blocks.MetadataRound

/-!
# Admission — what the engine lets in can be stored

A rich block stores the JSON of every entry and reads the entry's pairs back from it. So an entry
can be kept only if its JSON, printed in canonical form, is read as the same object and its pairs
are those of that object (`EnvelopeStable`). Of the JSON library this needs that objects come with
their keys in order, and that objects of strings survive printing and parsing (`SerdeJson.Lawful`);
whether numbers survive is up to the entry.

* `keysIncrease_normalizeMetadata`: admitted pairs have distinct keys in order;
* `accept_stable`: an admitted entry whose JSON survives can be stored;
* `richEntry_stable`: and so can what is read back.
-/

namespace Timeless.Blocks

open Support Codec

variable {N : Type} {js : SerdeJson N}

/-! ### The JSON library -/

/-- A value that is printed and read back unchanged. -/
def SerdeJson.RoundTrips (js : SerdeJson N) (v : Json N) : Prop :=
  ∃ t, js.toStr v = .ok t ∧ js.fromStr t = .ok v

/-- What the library promises: keys in order, and strings kept. -/
structure SerdeJson.Lawful (js : SerdeJson N) : Prop where
  sorted : ∀ t fields, js.fromStr t = .ok (.object fields) → OrdMap.Sorted textLt fields
  strings : ∀ pairs : Pairs, KeysIncrease pairs →
    js.RoundTrips (.object (pairs.map fun p => (p.1, .string p.2)))

/-- A text with a mark before every character and another at its end. -/
def tag (t : Text) : Text :=
  t.flatMap (fun ch => ['+', ch]) ++ ['.']

def untag : Text → Option (Text × Text)
  | '.' :: rest => some ([], rest)
  | '+' :: ch :: rest => (untag rest).map fun p => (ch :: p.1, p.2)
  | _ => none

def untagPairs : (fuel : Nat) → Text → Option Pairs
  | _, [] => some []
  | 0, _ :: _ => none
  | fuel + 1, ch :: t => do
      let (k, t) ← untag (ch :: t)
      let (v, t) ← untag t
      return (k, v) :: (← untagPairs fuel t)

def stringFields : List (Text × Json Empty) → Option Pairs
  | [] => some []
  | (k, .string v) :: fields => (stringFields fields).map fun ps => (k, v) :: ps
  | _ => none

/-- A library for objects of strings in a format of its own. -/
def taggedJson : SerdeJson Empty where
  fromStr t :=
    match untagPairs t.length t with
    | some pairs =>
        if canonicalPairs pairs then .ok (.object (pairs.map fun p => (p.1, .string p.2)))
        else .error "keys are not in order"
    | none => .error "expected value"
  toStr v :=
    match v with
    | .object fields =>
        match stringFields fields with
        | some pairs => .ok (pairs.flatMap fun p => tag p.1 ++ tag p.2)
        | none => .error "not a string"
    | _ => .error "not an object"

theorem untag_tag (t rest : Text) : untag (tag t ++ rest) = some (t, rest) := by
  induction t with
  | nil => rfl
  | cons ch t ih =>
      change (untag (tag t ++ rest)).map _ = _
      rw [ih]
      rfl

theorem untagPairs_flatMap (pairs : Pairs) {fuel : Nat} (h : pairs.length ≤ fuel) :
    untagPairs fuel (pairs.flatMap fun p => tag p.1 ++ tag p.2) = some pairs := by
  induction pairs generalizing fuel with
  | nil => cases fuel <;> rfl
  | cons p pairs ih =>
      obtain _ | fuel := fuel
      · simp at h
      have hne : ∃ ch t, (p :: pairs).flatMap (fun p => tag p.1 ++ tag p.2) = ch :: t := by
        cases hkey : p.1 <;> simp [tag, hkey]
      obtain ⟨ch, t, hcons⟩ := hne
      rw [hcons, untagPairs, ← hcons, List.flatMap_cons, List.append_assoc, untag_tag]
      dsimp only [Option.bind_eq_bind, Option.bind_some]
      rw [untag_tag]
      dsimp only [Option.bind_some]
      rw [ih (by simpa using h)]
      rfl

theorem length_le_flatMap_tag (pairs : Pairs) :
    pairs.length ≤ (pairs.flatMap fun p => tag p.1 ++ tag p.2).length := by
  induction pairs with
  | nil => simp
  | cons p pairs ih =>
      simp only [List.flatMap_cons, List.length_append, List.length_cons, tag] at ih ⊢
      omega

theorem stringFields_map (pairs : Pairs) :
    stringFields (pairs.map fun p => (p.1, .string p.2)) = some pairs := by
  induction pairs with
  | nil => rfl
  | cons p pairs ih => rw [List.map_cons, stringFields, ih]; rfl

theorem taggedJson_lawful : taggedJson.Lawful where
  sorted t fields h := by
    unfold taggedJson at h
    dsimp only at h
    split at h
    · split_ifs at h with hkeys
      obtain ⟨rfl⟩ := Json.object.inj (Except.ok.inj h)
      exact List.pairwise_map.mpr ((canonicalPairs_iff _).mp hkeys)
    · cases h
  strings pairs hkeys := by
    refine ⟨pairs.flatMap fun p => tag p.1 ++ tag p.2, ?_, ?_⟩
    · unfold taggedJson
      dsimp only
      rw [stringFields_map]
    · unfold taggedJson
      dsimp only
      rw [untagPairs_flatMap pairs (length_le_flatMap_tag pairs)]
      exact if_pos ((canonicalPairs_iff _).mpr hkeys)

/-- An entry as the ingest paths make it: pairs that are the projection of its JSON, whose numbers
survive printing. -/
structure JsonFit (js : SerdeJson N) (e : LogEntry) : Prop where
  pairs : ∀ json, e.metadataJson = some json → metadataPairsFromJson js json = .ok e.metadata
  survives : ∀ json v, e.metadataJson = some json → js.fromStr json = .ok v → js.RoundTrips v

/-! ### Pairs in order -/

theorem isChain_both {α : Type} {R S : α → α → Prop} {l : List α} (hR : l.IsChain R)
    (hS : l.IsChain S) : l.IsChain fun a b => R a b ∧ S a b := by
  induction hR with
  | nil => exact .nil
  | singleton a => exact .singleton a
  | cons_cons hab _ ih =>
      obtain ⟨hab', hS⟩ := List.isChain_cons_cons.mp hS
      exact .cons_cons ⟨hab, hab'⟩ (ih hS)

/-- Normalized pairs have each key once, in order. -/
theorem keysIncrease_normalizeMetadata (metadata : Pairs) :
    KeysIncrease (normalizeMetadata metadata) := by
  have hsorted : (metadata.insertionSort fun a b => textLe a.1 b.1 = true).Pairwise
      fun a b => textLe a.1 b.1 = true := by
    have : Std.Total fun a b : Text × Text => textLe a.1 b.1 = true :=
      ⟨fun a b => textLe_total a.1 b.1⟩
    have : IsTrans (Text × Text) fun a b => textLe a.1 b.1 = true :=
      ⟨fun _ _ _ => textLe_trans⟩
    exact List.pairwise_insertionSort _ _
  generalize hl : (metadata.insertionSort fun a b => textLe a.1 b.1 = true).reverse = l
  have hdesc : l.Pairwise fun a b => textLe b.1 a.1 = true := by
    rw [← hl]
    exact List.pairwise_reverse.mpr hsorted
  rw [normalizeMetadata, hl, KeysIncrease, List.pairwise_reverse]
  have htrans : IsTrans (Text × Text) fun a b => textLt b.1 a.1 = true :=
    ⟨fun _ _ _ hab hbc => textLt_linear.trans _ _ _ hbc hab⟩
  rw [← List.isChain_iff_pairwise]
  -- neighbours are in order and have different keys
  have hchain := (hdesc.sublist (List.destutter_sublist (fun a b => a.1 ≠ b.1) l)).isChain
  refine (isChain_both hchain (List.isChain_destutter (fun a b => a.1 ≠ b.1) l)).imp ?_
  rintro a b ⟨hle, hne⟩
  rw [textLt, Bool.not_eq_true', ← Bool.not_eq_true]
  exact fun hge => hne (textLe_antisymm hge hle)

theorem normalizeMetadata_of_increase {metadata : Pairs} (h : KeysIncrease metadata) :
    normalizeMetadata metadata = metadata := by
  have hle : metadata.Pairwise fun a b => textLe a.1 b.1 = true := h.imp fun {a b} hlt => by
    rcases textLe_total a.1 b.1 with hle | hge
    · exact hle
    · rw [textLt, hge] at hlt
      cases hlt
  have hne : metadata.reverse.IsChain fun a b => a.1 ≠ b.1 := by
    refine (List.pairwise_reverse.mpr (h.imp fun {a b} hlt heq => ?_)).isChain
    rw [heq, textLt_linear.irrefl] at hlt
    cases hlt
  rw [normalizeMetadata, hle.insertionSort_eq, List.destutter_of_isChain _ _ hne,
    List.reverse_reverse]

/-! ### Severities -/

theorem canonicalSeverity_idem {name kept : Text} (h : canonicalSeverity name = .ok kept) :
    canonicalSeverity kept = .ok kept := by
  unfold canonicalSeverity at h
  split_ifs at h with hknown hwarn
  · obtain rfl := Except.ok.inj h
    exact if_pos hknown
  · obtain rfl := Except.ok.inj h
    decide

theorem canonicalSeverity_levelName {level : UInt8} (h : level.toNat ≤ 3) :
    canonicalSeverity (levelName level) = .ok (levelName level) := by
  have hmem : level.toNat ∈ List.range 4 := by simpa using Nat.lt_succ_of_le h
  have hall : ∀ n ∈ List.range 4, canonicalSeverity (levelNames.getD n []) =
      .ok (levelNames.getD n []) := by decide
  exact hall _ hmem

theorem levelFromName_levelName {level : UInt8} (h : level.toNat ≤ 3) :
    levelFromName (levelName level) = .ok level := by
  have hmem : level.toNat ∈ List.range 4 := by simpa using Nat.lt_succ_of_le h
  have hall : ∀ n ∈ List.range 4, levelFromName (levelNames.getD n []) = .ok n.toUInt8 := by
    decide
  have := hall _ hmem
  rwa [Nat.toUInt8_eq, UInt8.ofNat_toNat] at this

/-! ### Envelopes -/

variable {json : Text} {fields : List (Text × Json N)}

theorem canonicalMetadataJson_eq (hjs : js.Lawful) (h : js.fromStr json = .ok (.object fields)) :
    canonicalMetadataJson js json =
      (js.toStr (.object fields)).mapError fun e => s!"metadata JSON encode: {e}" := by
  rw [canonicalMetadataJson, h]
  change (js.toStr (.object (OrdMap.ofList textLt fields))).mapError _ = _
  rw [OrdMap.ofList_of_sorted textLt_linear (hjs.sorted json fields h)]

variable {e : LogEntry}

/-- An entry is stable if its JSON is the text of an object that survives and shows its pairs. -/
theorem envelopeStable_of_roundTrips (hjs : js.Lawful) {t : Text}
    (hsev : canonicalSeverity e.severityName = .ok e.severityName) (hjson : entryJson js e = .ok t)
    (hto : js.toStr (.object fields) = .ok t) (hfrom : js.fromStr t = .ok (.object fields))
    (hpairs : fields.map (fun p => (p.1, metadataValue js p.2)) = e.metadata) :
    EnvelopeStable js e := by
  have hstored : storedJson js e = t := by rw [storedJson, hjson]; rfl
  refine ⟨hsev, by rw [hstored, hjson], ?_, ?_⟩
  · rw [hstored, canonicalMetadataJson_eq hjs hfrom, hto]
    rfl
  · rw [hstored, metadataPairsFromJson, hfrom, ← hpairs]
    rfl

theorem envelopeStable_of_pairs (hjs : js.Lawful)
    (hsev : canonicalSeverity e.severityName = .ok e.severityName) (hjson : e.metadataJson = none)
    (hkeys : KeysIncrease e.metadata) : EnvelopeStable js e := by
  obtain ⟨t, hto, hfrom⟩ := hjs.strings e.metadata hkeys
  refine envelopeStable_of_roundTrips hjs hsev ?_ hto hfrom ?_
  · have hsorted : OrdMap.Sorted textLt (e.metadata.map fun p => (p.1, (.string p.2 : Json N))) :=
      List.pairwise_map.mpr hkeys
    rw [entryJson, hjson]
    change (js.toStr _).mapError _ = _
    rw [OrdMap.ofList_of_sorted textLt_linear hsorted, hto]
    rfl
  · rw [List.map_map]
    exact List.map_id _

theorem envelopeStable_of_json (hjs : js.Lawful)
    (hsev : canonicalSeverity e.severityName = .ok e.severityName)
    (hjson : e.metadataJson = some json) (hpairs : metadataPairsFromJson js json = .ok e.metadata)
    (hsurvives : ∀ v, js.fromStr json = .ok v → js.RoundTrips v) : EnvelopeStable js e := by
  obtain ⟨v, hv, hpairs⟩ := of_bind hpairs
  rw [mapError_eq_ok] at hv
  cases v with
  | object fields =>
      obtain ⟨t, hto, hfrom⟩ := hsurvives _ hv
      refine envelopeStable_of_roundTrips hjs hsev ?_ hto hfrom (Except.ok.inj hpairs)
      rw [entryJson, hjson]
      change canonicalMetadataJson js json = _
      rw [canonicalMetadataJson_eq hjs hv, hto]
      rfl
  | _ => cases hpairs

theorem keysIncrease_of_json (hjs : js.Lawful) {pairs : Pairs}
    (h : metadataPairsFromJson js json = .ok pairs) : KeysIncrease pairs := by
  obtain ⟨v, hv, h⟩ := of_bind h
  rw [mapError_eq_ok] at hv
  cases v with
  | object fields =>
      obtain rfl := Except.ok.inj h
      exact List.pairwise_map.mpr (hjs.sorted json fields hv)
  | _ => cases h

/-- What is admitted: the level is known, the severity is in its kept spelling and belongs to it, the
pairs are in order, the rest is as it was. -/
theorem accept_ok {e e' : LogEntry} (h : accept e = .ok e') :
    canonicalSeverity e'.severityName = .ok e'.severityName ∧
      levelFromName e'.severityName = .ok e'.level ∧ e'.level = e.level ∧
      e'.level.toNat ≤ 3 ∧ e'.message = e.message ∧ e'.metadataJson = e.metadataJson ∧
      e'.metadata = normalizeMetadata e.metadata := by
  obtain ⟨hlevel, h⟩ := rejectIf_bind_eq_ok.mp h
  obtain ⟨r, hr, rfl⟩ := bind_pure_eq_ok.mp h
  unfold normalizeRichEntry at hr
  cases hsev : e.severity with
  | none =>
      rw [hsev] at hr
      obtain rfl := Except.ok.inj hr
      have hname : e.severityName = levelName e.level := by rw [LogEntry.severityName, hsev]; rfl
      refine ⟨?_, ?_, rfl, not_lt.mp hlevel, rfl, rfl, rfl⟩
      · change canonicalSeverity e.severityName = .ok e.severityName
        rw [hname]
        exact canonicalSeverity_levelName (not_lt.mp hlevel)
      · change levelFromName e.severityName = .ok e.level
        rw [hname]
        exact levelFromName_levelName (not_lt.mp hlevel)
  | some severity =>
      rw [hsev] at hr
      obtain ⟨canonical, hcanonical, rfl⟩ := bind_pure_eq_ok.mp hr
      obtain ⟨kept, hkept, hcanonical⟩ := of_bind hcanonical
      obtain ⟨bucket, hbucket, hcanonical⟩ := of_bind hcanonical
      obtain ⟨hsame, hcanonical⟩ := rejectIf_bind_eq_ok.mp hcanonical
      obtain rfl := Except.ok.inj hcanonical
      rw [not_not.mp hsame] at hbucket
      exact ⟨canonicalSeverity_idem hkept, hbucket, rfl, not_lt.mp hlevel, rfl, rfl, rfl⟩

/-- **Admission.** An entry that is let in, and whose JSON survives, can be stored. -/
theorem accept_stable (hjs : js.Lawful) {e e' : LogEntry} (hfit : JsonFit js e)
    (h : accept e = .ok e') : EnvelopeStable js e' := by
  obtain ⟨hsev, -, -, -, -, hjson, hmeta⟩ := accept_ok h
  cases hcase : e.metadataJson with
  | none =>
      refine envelopeStable_of_pairs hjs hsev (hjson.trans hcase) ?_
      rw [hmeta]
      exact keysIncrease_normalizeMetadata _
  | some json =>
      have hpairs := hfit.pairs json hcase
      have hsame : e'.metadata = e.metadata := by
        rw [hmeta, normalizeMetadata_of_increase (keysIncrease_of_json hjs hpairs)]
      exact envelopeStable_of_json hjs hsev (hjson.trans hcase) (hsame ▸ hpairs)
        fun v => hfit.survives json v hcase

theorem richEntry_stable (h : EnvelopeStable js e) :
    EnvelopeStable js (richEntry js e) := by
  have hentry : entryJson js (richEntry js e) = .ok (storedJson js e) := h.canonical
  have hstored : storedJson js (richEntry js e) = storedJson js e := by
    rw [storedJson, hentry]
    rfl
  exact ⟨h.severity, by rw [hstored, hentry], by rw [hstored]; exact h.canonical,
    by rw [hstored]; exact h.pairs⟩

theorem readAs_stable (h : EnvelopeStable js e) (codec : UInt8) :
    EnvelopeStable js (readAs js codec e) := by
  unfold readAs
  split_ifs
  · exact richEntry_stable h
  · exact h

end Timeless.Blocks
