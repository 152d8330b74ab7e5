import Timeless.Blocks.Limits
import Timeless.Blocks.Pruning
import Timeless.Blocks.RoundTrip
import Timeless.Engine.Listing

/-!
# Levels — what the index knows of a block of logs

Queries that only count answer from the index where they can: it knows how many entries a block has,
their time range and, if the block is of one level, that level.

* `LevelSession.vouched`: the level of an index entry is the level of all entries of its block;
* `LevelWritten.holds`: what the index says of a block is true of the entries it is decoded to.
-/

namespace Timeless.Blocks

open Support Codec Engine

/-- What the index knows of a block, against the entries it is decoded to. -/
structure BlockHolds (i : IndexEntry) (entries : List LogEntry) : Prop where
  count : entries.length = i.count
  nonempty : entries ≠ []
  range : ∀ e ∈ entries, i.tsMin ≤ e.ts ∧ e.ts ≤ i.tsMax
  level : ∀ level, i.partition = some level → ∀ e ∈ entries, e.level = level
  admitted : ∀ e ∈ entries, Admitted e
  legacy : isRichCodec i.blockMeta.codec = false → ∀ e ∈ entries, e.severityName = levelName e.level

/-! ### Tables with level terms -/

section Tables

variable {c : Compressors} {N : Type} {js : SerdeJson N}

/-- A block that was encoded from admitted entries and carries the terms of their levels. -/
structure LevelWritten (c : Compressors) (js : SerdeJson N) (b : Encoded (List Text))
    (entries : List LogEntry) : Prop extends EncodedFrom c js b entries where
  terms : ∀ e ∈ entries, levelTerm e.level ∈ b.extra

def levelReading (c : Compressors) (js : SerdeJson N) : Reading LogEntry (List Text) Unit where
  view _ := ()
  Fit _ := True
  Ok := Admitted
  Written := LevelWritten c js

variable {entries : List LogEntry} {b : Encoded (List Text)} {cfg : BlockEngineConfig}

theorem levelTerm_mem_extractTerms (cfg : BlockEngineConfig) {e : LogEntry} (he : e ∈ entries) :
    levelTerm e.level ∈ extractTerms cfg entries :=
  mem_extractTerms.mpr (.inl ⟨e, he, List.mem_cons_self⟩)

variable {legacy rich : UInt8}

theorem encodeEntries_levelWritten (hadm : ∀ e ∈ entries, Admitted e)
    (h : encodeEntries c js cfg legacy rich entries = .ok b) : LevelWritten c js b entries := by
  refine ⟨encodeEntries_encodedFrom hadm h, fun e he => ?_⟩
  obtain ⟨out, -, rfl⟩ := bind_pure_eq_ok.mp h
  exact levelTerm_mem_extractTerms cfg he

theorem levelReading_honors (hc : c.Lossless) (cfg : BlockEngineConfig) :
    (levelReading c js).Honors (logSignal c js cfg) where
  accept _ _ _ h := accept_admitted h
  encodeRun _ _ hok h := encodeEntries_levelWritten hok h
  encodeGroup _ _ hok h := encodeEntries_levelWritten hok h
  decode b es out hb hout := (countReading_honors hc cfg).decode b es out hb.toEncodedFrom hout
  purge keep b es hkeep hb := by
    obtain rfl := logSignal_purge hkeep
    exact ⟨⟨hb.encoded, hb.admitted⟩, fun e he =>
      mem_purgeTrigrams.mpr ⟨hb.terms e he, levelTerm_apart _⟩⟩
  backfill _ _ _ _ _ _ hbf := nomatch hbf

def logReader (c : Compressors) (js : SerdeJson N) : BlockReader LogEntry (List Text) :=
  ⟨decodeBlock c js, LogEntry.level, levelPartition, fun terms level => levelTerm level ∈ terms⟩

/-- A block with the term of one level only holds that level. -/
theorem eq_of_levelPartition {terms : List Text} {p level : UInt8}
    (h : levelPartition terms = some p) (hle : level.toNat ≤ 3) (hmem : levelTerm level ∈ terms) :
    level = p := by
  have hone : [(0 : UInt8), 1, 2, 3].filter (fun level => terms.contains (levelTerm level)) = [p] := by
    unfold levelPartition at h
    split at h
    · next l heq => rw [heq, Option.some.inj h]
    · cases h
  have hlevel : level ∈ [(0 : UInt8), 1, 2, 3] := by
    have hall : ∀ n ∈ List.range 4, n.toUInt8 ∈ [(0 : UInt8), 1, 2, 3] := by decide
    have := hall level.toNat (by simpa using Nat.lt_succ_of_le hle)
    rwa [Nat.toUInt8_eq, UInt8.ofNat_toNat] at this
  have hin : level ∈ [p] := by
    rw [← hone]
    exact List.mem_filter.mpr ⟨hlevel, by simpa using hmem⟩
  exact List.mem_singleton.mp hin

theorem tagged_of_terms (hc : c.Lossless)
    (henc : ∃ codec level, encodeBlock c js entries codec level = .ok (b.data, b.blockMeta))
    (hterms : ∀ e ∈ entries, levelTerm e.level ∈ b.extra) :
    (logReader c js).Tagged (levelPartition b.extra) b := by
  intro p hp
  obtain ⟨codec, level, henc⟩ := henc
  obtain ⟨cols, hst⟩ := encodeBlock_ok henc
  have hlevel : ∀ e ∈ entries, e.level = p := fun e he =>
    eq_of_levelPartition hp (hst.levels e he) (hterms e he)
  obtain ⟨e, he⟩ := List.exists_mem_of_ne_nil _ hst.nonempty
  refine ⟨hlevel e he ▸ hterms e he, fun out hout x hx => ?_⟩
  obtain ⟨-, -, rfl⟩ := (hst.decodeBlock_iff hc).mp hout
  obtain ⟨e', he', rfl⟩ := List.mem_map.mp hx
  exact (readBack_level js codec e').trans (hlevel e' he')

theorem encodeEntries_keeps (hc : c.Lossless)
    (h : encodeEntries c js cfg legacy rich entries = .ok b) :
    (logReader c js).Keeps entries b := by
  obtain ⟨⟨data, blockMeta⟩, henc, rfl⟩ := bind_pure_eq_ok.mp h
  obtain ⟨cols, hst⟩ := encodeBlock_ok henc
  refine ⟨hst.nonempty, fun e he => levelTerm_mem_extractTerms cfg he, fun out hout => ?_⟩
  obtain ⟨-, -, rfl⟩ := (hst.decodeBlock_iff hc).mp hout
  rw [List.map_map]
  exact List.map_congr_left fun e _ => readBack_level _ _ e

theorem encodeEntries_tagged (hc : c.Lossless)
    (h : encodeEntries c js cfg legacy rich entries = .ok b) :
    (logReader c js).Tagged (levelPartition b.extra) b := by
  obtain ⟨⟨data, blockMeta⟩, henc, rfl⟩ := bind_pure_eq_ok.mp h
  exact tagged_of_terms hc ⟨_, _, henc⟩ fun e he => levelTerm_mem_extractTerms cfg he

theorem levelPartition_purge (terms : List Text) :
    levelPartition (purgeTrigrams terms) = levelPartition terms := by
  have hsame : [(0 : UInt8), 1, 2, 3].filter (fun l => (purgeTrigrams terms).contains (levelTerm l)) =
      [(0 : UInt8), 1, 2, 3].filter fun l => terms.contains (levelTerm l) := by
    refine List.filter_congr fun l _ => ?_
    rw [Bool.eq_iff_iff, List.contains_iff_mem, List.contains_iff_mem, mem_purgeTrigrams]
    exact ⟨fun h => h.1, fun h => ⟨h, levelTerm_apart l⟩⟩
  rw [levelPartition, hsame]
  rfl

theorem logSignal_tags (hc : c.Lossless) (cfg : BlockEngineConfig) :
    (logSignal c js cfg).Tags (logReader c js) where
  decode_eq := rfl
  part_eq := rfl
  partitionOf_eq := rfl
  encodeRun _ _ h := encodeEntries_keeps hc h
  encodeGroup _ _ h := encodeEntries_keeps hc h
  tagRun _ _ h := encodeEntries_tagged hc h
  tagGroup _ _ h := encodeEntries_tagged hc h
  purge keep terms hkeep := by
    obtain rfl := logSignal_purge hkeep
    exact ⟨levelPartition_purge terms, fun p hp => mem_purgeTrigrams.mpr ⟨hp, levelTerm_apart p⟩⟩
  backfill := rfl

/-- The sessions of a log table, over a store whose blocks carry the terms of their levels. -/
abbrev LevelSession (env : StoreEnv) (c : Compressors) (js : SerdeJson N) :
    Session LogEntry (List Text) → Prop :=
  Reachable env (fun sig store => IsLogs c js sig ∧
    ∀ r ∈ store.rows, ∃ entries, LevelWritten c js r.toEncoded entries) (Op.OpensWith (IsLogs c js))

variable {env : StoreEnv} {s : Session LogEntry (List Text)}

theorem LevelSession.intact (hc : c.Lossless) (h : LevelSession env c js s) :
    Holds (IsLogs c js) (Carries (levelReading c js) none) s :=
  logs_intact (fun _ => trivial) (levelReading_honors hc) h

/-- The index of a log table says what is right. -/
theorem LevelSession.vouched (hc : c.Lossless) (h : LevelSession env c js s) :
    Vouched (logReader c js) env s.engine := by
  have htags : ∀ sig, IsLogs c js sig → sig.Tags (logReader c js) := by
    rintro sig ⟨cfg, rfl⟩
    exact logSignal_tags hc cfg
  refine (Reachable.holds (vouched_inductive htags) (fun _ _ h => h) ?_ h).engine
  rintro sig store interval ⟨hsig, hrows⟩
  refine ⟨hsig, vouched_create (htags sig hsig) interval fun r hr => ?_⟩
  obtain ⟨entries, hw⟩ := hrows r hr
  exact tagged_of_terms hc hw.encoded hw.terms

/-! ### The blocks of a table -/

/-- A block that was written and can be read, against its metadata. -/
theorem LevelWritten.holds (hc : c.Lossless) {entries out : List LogEntry}
    (h : LevelWritten c js b entries) (hread : decodeBlock c js b.data = .ok out) {loc : Int}
    {partition : Option UInt8} (htag : (logReader c js).Tagged partition b) :
    BlockHolds ⟨b.blockMeta, loc, partition⟩ out := by
  obtain ⟨codec, level, henc⟩ := h.encoded
  obtain ⟨cols, hst⟩ := encodeBlock_ok henc
  have hdesc := hst.describes hc
  have hadm := ((countReading_honors hc .default).decode b entries out h.toEncodedFrom hread).1
  have hlevel := fun p hp => (htag p hp).2 out hread
  obtain ⟨-, -, rfl⟩ := (hst.decodeBlock_iff hc).mp hread
  refine ⟨?_, ?_, fun e he => ?_, hlevel, hadm, fun hrich e he => ?_⟩
  · rw [List.length_map]
    exact hdesc.count.symm
  · simpa using hst.nonempty
  · obtain ⟨e', he', rfl⟩ := List.mem_map.mp he
    rw [readBack_ts]
    exact hdesc.range e' he'
  · obtain ⟨e', he', rfl⟩ := List.mem_map.mp he
    have hlegacy : isRichCodec codec = false := by
      rcases hdesc.codec_eq with heq | ⟨-, heq⟩
      · exact heq ▸ hrich
      · rw [heq] at hrich
        cases hrich
    have hpoor := hst.legacy hlegacy e' he'
    rw [readBack, if_neg (by simp [hlegacy])]
    rw [LogEntry.isRich, Bool.or_eq_false_iff, Option.isSome_eq_false_iff,
      Option.isNone_iff_eq_none] at hpoor
    rw [LogEntry.severityName, hpoor.1]
    rfl

theorem LevelSession.written (hc : c.Lossless) (h : LevelSession env c js s) :
    ∀ r ∈ s.engine.store.rows, ∃ entries, LevelWritten c js r.toEncoded entries := by
  obtain ⟨N, hrows, -⟩ := (h.intact hc).engine.rows
  exact exists_rowsHold_iff.mp ⟨N, hrows⟩

end Tables

/-- An account is opened, with severity `notice`. -/
def noticeEntry (i : Nat) : LogEntry :=
  ⟨Int64.ofNat i, 1, some "notice".toList,
    "account 77777777".toList ++ [Char.ofNat (48 + i)] ++ " opened".toList, [], none⟩

/-- A table with some notices, flushed. -/
def flushedNotices (n : Nat) : Session LogEntry (List Text) :=
  let pushed := ((pushBatch freshTable.sig .reliable ((List.range n).map noticeEntry)).exec
    freshTable.engine).2
  { freshTable with engine := ((flush freshTable.sig .reliable).exec pushed).2 }

/-- The same table after maintenance. -/
def optimizedNotices (n : Nat) : Session LogEntry (List Text) :=
  { freshTable with
    engine := ((optimize freshTable.sig .reliable).exec (flushedNotices n).engine).2 }

theorem flushedNotices_session (n : Nat) :
    LevelSession .reliable .storing taggedJson (flushedNotices n) :=
  ((Reachable.start 0 ⟨⟨.default, rfl⟩, fun _ hr => absurd hr List.not_mem_nil⟩).step
    (show Op.OpensWith _ (.pushBatch ((List.range n).map noticeEntry)) from trivial) rfl).step
    (show Op.OpensWith _ .flush from trivial) rfl

theorem optimizedNotices_session (n : Nat) :
    LevelSession .reliable .storing taggedJson (optimizedNotices n) :=
  (flushedNotices_session n).step (show Op.OpensWith _ .optimize from trivial) rfl

/-- All entries up to time 1000. -/
def upTo1000 : LogQuery :=
  ⟨0, 1000, none, none, [], none, none⟩

end Timeless.Blocks
