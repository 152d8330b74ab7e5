import Timeless.Blocks.Admission
import Timeless.Blocks.Caps
import Timeless.Blocks.Terms
import Timeless.Engine.Content

/-!
# Content — what a log engine holds

The content of a log engine is what its entries show: time, level, severity, message and pairs.
Whether an entry was rich or legacy, and the text of its JSON, is not part of it.

`LogWritten` is what is known of a stored block: it was encoded from entries that can be stored,
and its terms cover them. Every configuration with plain index keys keeps this
(`logSignal_honors`), so it holds of all blocks in every session whose entries survive as JSON
(`LogSession.intact`).
-/

namespace Timeless.Blocks

open Support Codec Engine

/-- What an entry shows. -/
structure EntryView where
  ts : Int64
  level : UInt8
  severity : Text
  message : Text
  metadata : Pairs

def LogEntry.view (e : LogEntry) : EntryView :=
  ⟨e.ts, e.level, e.severityName, e.message, e.metadata⟩

section

variable (c : Compressors) {N : Type} (js : SerdeJson N) (keys : List Text)

/-- A block that was written from some entries. -/
structure LogWritten (b : Encoded (List Text)) (entries : List LogEntry) : Prop where
  encoded : ∃ codec level, encodeBlock c js entries codec level = .ok (b.data, b.blockMeta)
  stable : ∀ e ∈ entries, EnvelopeStable js e
  covers : Covers keys b.extra entries

def logReading : Reading LogEntry (List Text) EntryView where
  view := LogEntry.view
  Fit := JsonFit js
  Ok := EnvelopeStable js
  Written := LogWritten c js keys

end

variable {c : Compressors} {N : Type} {js : SerdeJson N} {keys : List Text}

@[simp] theorem readAs_view (codec : UInt8) (e : LogEntry) : (readAs js codec e).view = e.view := by
  unfold readAs
  split_ifs <;> rfl

theorem view_of_readAs (codec : UInt8) (entries : List LogEntry) :
    (entries.map (readAs js codec)).map LogEntry.view = entries.map LogEntry.view := by
  simp [Function.comp_def]

variable {b : Encoded (List Text)} {entries : List LogEntry} {cfg : BlockEngineConfig}

theorem LogWritten.decode (hc : c.Lossless) {out : List LogEntry}
    (h : LogWritten c js keys b entries) (hout : decodeBlock c js b.data = .ok out) :
    ∃ codec, out = entries.map (readAs js codec) := by
  obtain ⟨codec, level, henc⟩ := h.encoded
  obtain ⟨cols, hst⟩ := encodeBlock_ok henc
  exact ⟨codec, ((hst.decodes_iff hc fun _ => h.stable).mp hout).2⟩

theorem encodeEntries_written (hkeys : ∀ k ∈ cfg.indexKeys, Plain k) {legacy rich : UInt8}
    (hok : ∀ e ∈ entries, EnvelopeStable js e)
    (h : encodeEntries c js cfg legacy rich entries = .ok b) :
    LogWritten c js cfg.indexKeys b entries := by
  obtain ⟨⟨data, blockMeta⟩, henc, rfl⟩ := bind_pure_eq_ok.mp h
  exact ⟨⟨_, _, henc⟩, hok, covers_extractTerms hkeys entries⟩

/-- Log engines with plain index keys keep what their entries show. -/
theorem logSignal_honors (hc : c.Lossless) (hjs : js.Lawful) (hkeys : ∀ k ∈ cfg.indexKeys, Plain k) :
    (logReading c js cfg.indexKeys).Honors (logSignal c js cfg) where
  accept _ _ hfit h := accept_stable hjs hfit h
  encodeRun _ _ hok h := encodeEntries_written hkeys hok h
  encodeGroup _ _ hok h := encodeEntries_written hkeys hok h
  decode b es out hb hout := by
    obtain ⟨codec, rfl⟩ := LogWritten.decode hc hb hout
    refine ⟨fun e he => ?_, view_of_readAs codec es⟩
    obtain ⟨e', he', rfl⟩ := List.mem_map.mp he
    exact readAs_stable (hb.stable e' he') codec
  purge keep b es hkeep hb := by
    obtain rfl := logSignal_purge hkeep
    exact ⟨hb.encoded, hb.stable, hb.covers.purge hkeys⟩
  backfill _ _ _ _ _ _ hbf := nomatch hbf

/-! ### Sessions -/

/-- A configuration of a log engine with given index keys. -/
def IsLogsWith (c : Compressors) (js : SerdeJson N) (keys : List Text)
    (sig : Signal LogEntry (List Text)) : Prop :=
  ∃ cfg, sig = logSignal c js cfg ∧ cfg.indexKeys = keys

/-- Pushed entries are as the ingest paths make them, and the table keeps its index keys. -/
def LogOp (c : Compressors) (js : SerdeJson N) (keys : List Text) :
    Op LogEntry (List Text) → Prop
  | .push e => JsonFit js e
  | .pushBatch es => ∀ e ∈ es, JsonFit js e
  | .reopen sig _ => IsLogsWith c js keys sig
  | _ => True

/-- The sessions of a log table with given index keys, over a store whose blocks were written for
these keys. -/
abbrev LogSession (env : StoreEnv) (c : Compressors) (js : SerdeJson N) (keys : List Text) :
    Session LogEntry (List Text) → Prop :=
  Reachable env (fun sig store => IsLogsWith c js keys sig ∧
    ∀ r ∈ store.rows, ∃ es, LogWritten c js keys r.toEncoded es) (LogOp c js keys)

theorem IsLogsWith.honors (hc : c.Lossless) (hjs : js.Lawful) (hkeys : ∀ k ∈ keys, Plain k)
    {sig : Signal LogEntry (List Text)} (h : IsLogsWith c js keys sig) :
    (logReading c js keys).Honors sig := by
  obtain ⟨cfg, rfl, rfl⟩ := h
  exact logSignal_honors hc hjs hkeys

/-- All blocks of a session were written from entries, and its entries can be stored. -/
theorem LogSession.intact (hc : c.Lossless) (hjs : js.Lawful) (hkeys : ∀ k ∈ keys, Plain k)
    {env : StoreEnv} {s : Session LogEntry (List Text)} (h : LogSession env c js keys s) :
    Intact (logReading c js keys) s := by
  refine (h.mono ?_ ?_).intact
  · exact fun sig store hstart => ⟨hstart.1.honors hc hjs hkeys, hstart.2⟩
  · intro op hop
    cases op with
    | reopen sig interval => exact IsLogsWith.honors hc hjs hkeys hop
    | push e => exact hop
    | pushBatch es => exact hop
    | _ => trivial

end Timeless.Blocks
