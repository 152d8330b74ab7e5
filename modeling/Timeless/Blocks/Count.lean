import Timeless.Blocks.Levels

/-!
# Count — the number of matching entries

A count need not decode every block: one that lies within the time range, for a query without
filters on metadata and message, is answered by its entry count if its partition proves the level,
and for a severity only if its codec knows no severities but the names of the levels. The partitions
are those of the index in memory.

* `BlockHolds.proven`: such a block holds nothing but matches;
* `count_eq_length`: so the count is the number of rows of the query, whatever calls of the store
  have failed before.
-/

namespace Timeless.Blocks

open Support Codec Engine

/-- The partition of a row in the index; the last entry counts. -/
def partitionAt (index : List IndexEntry) (id : Int) : Option UInt8 :=
  (index.reverse.find? fun i => i.loc = id).bind IndexEntry.partition

/-- The partition that a count sees; it is looked up only for a query that names a level. -/
def snapshotPartition (q : LogQuery) (index : List IndexEntry) (id : Int) : Option UInt8 :=
  if q.level.isSome then partitionAt index id else none

/-- Do all entries of a block have the level and the severity that are asked for? -/
def levelProven (q : LogQuery) (partition : Option UInt8) (codec : UInt8) : Bool :=
  match q.level, q.severity with
  | none, none => true
  | some level, none => partition == some level
  | some level, some severity =>
      if severity == levelName level && !isRichCodec codec then partition == some level else false
  | none, some _ => false

/-- Is a block answered by its entry count? -/
def countedWhole (q : LogQuery) (partition : Option UInt8) (m : BlockMeta) : Bool :=
  decide (q.tsMin ≤ m.tsMin) && decide (m.tsMax ≤ q.tsMax) &&
    q.messageContains.all List.isEmpty && q.metadataEq.isEmpty && levelProven q partition m.codec

section

variable (c : Compressors) {N : Type} (js : SerdeJson N) (lowercase : Text → Text)

/-- The number of matches in a block. -/
def blockCount (q : LogQuery) (index : List IndexEntry) (r : Row (List Text)) :
    Except String Nat :=
  if countedWhole q (snapshotPartition q index r.id) r.blockMeta then .ok r.blockMeta.entryCount
  else (blockMatches c js lowercase q r.data).map List.length

/-- How many entries match. -/
def count (indexKeys : List Text) (e : BlockEngine LogEntry (List Text)) (q : LogQuery) :
    Except String Nat := do
  rejectIf (q.messageLikePrune.isSome)
    "native count requires an exact message_contains predicate, not LIKE pruning"
  let blocks ← candidateBlocks indexKeys e.store.rows q
  let counts ← blocks.mapM (blockCount c js lowercase q e.index)
  return counts.foldl usizeAdd (e.buffer.filter (entryMatches lowercase q)).length

end

/-! ### One block -/

section Block

variable {q : LogQuery} {i : IndexEntry} {entries : List LogEntry} {lowercase : Text → Text}

theorem messageContains_free (h : q.messageContains.all List.isEmpty = true) :
    (q.messageContains.filter fun needle => !needle.isEmpty) = none := by
  cases hq : q.messageContains with
  | none => rfl
  | some needle =>
      rw [hq, Option.all_some] at h
      rw [Option.filter_some, h]
      rfl

theorem levelProven_iff {partition : Option UInt8} {codec : UInt8} :
    levelProven q partition codec = true ↔
      (∀ level, q.level = some level → partition = some level) ∧
      ∀ severity, q.severity = some severity → ∃ level, q.level = some level ∧
        severity = levelName level ∧ isRichCodec codec = false := by
  rw [levelProven]
  cases q.level with
  | none =>
      cases q.severity with
      | none => simp
      | some severity => simp
  | some level =>
      cases q.severity with
      | none => simp
      | some severity =>
          simp only [Option.some.injEq, forall_eq']
          split_ifs with h
          · rw [Bool.and_eq_true, beq_iff_eq, Bool.not_eq_true'] at h
            rw [beq_iff_eq]
            exact ⟨fun hp => ⟨hp, level, rfl, h⟩, fun hp => hp.1⟩
          · refine ⟨fun hno => hno.elim, ?_⟩
            rintro ⟨-, l, rfl, hboth⟩
            rw [Bool.and_eq_true, beq_iff_eq, Bool.not_eq_true'] at h
            exact absurd hboth h

/-- A block that is answered by its entry count holds only matches. -/
theorem BlockHolds.proven (h : BlockHolds i entries)
    (hwhole : countedWhole q i.partition i.blockMeta = true) {e : LogEntry} (he : e ∈ entries) :
    entryMatches lowercase q e = true := by
  simp only [countedWhole, Bool.and_eq_true, decide_eq_true_eq] at hwhole
  obtain ⟨⟨⟨⟨hlo, hhi⟩, hmessage⟩, hpairs⟩, hproven⟩ := hwhole
  obtain ⟨hlevel, hseverity⟩ := levelProven_iff.mp hproven
  obtain ⟨hmin, hmax⟩ := h.range e he
  refine entryMatches_iff.mpr ⟨⟨Int64.le_trans hlo hmin, Int64.le_trans hmax hhi⟩, ?_, ?_, ?_, ?_⟩
  · exact fun level hq => h.level level (hlevel level hq) e he
  · intro severity hq
    obtain ⟨level, hql, rfl, hlegacy⟩ := hseverity severity hq
    rw [h.legacy hlegacy e he, h.level level (hlevel level hql) e he]
  · rw [List.isEmpty_iff.mp hpairs]
    exact fun p hp => absurd hp List.not_mem_nil
  · intro needle hq
    rw [hq, Option.all_some] at hmessage
    rw [messageContainsCi, if_pos hmessage]

end Block

/-! ### The number of rows -/

theorem foldl_usizeAdd {counts : List Nat} {n : Nat} (h : n + counts.sum < 2 ^ 64) :
    counts.foldl usizeAdd n = n + counts.sum := by
  induction counts generalizing n with
  | nil => rfl
  | cons k counts ih =>
      rw [List.sum_cons] at h ⊢
      have hstep : usizeAdd n k = n + k := by
        rw [usizeAdd]
        omega
      rw [List.foldl_cons, hstep, ih (by omega), Nat.add_assoc]

section Tables

variable {c : Compressors} {N : Type} {js : SerdeJson N} {lowercase : Text → Text} {q : LogQuery}
  {env : StoreEnv} {s : Session LogEntry (List Text)} {keys : List Text} {r : Row (List Text)}

/-- The tag of a row in the index is right. -/
theorem LevelSession.tagged_at (hc : c.Lossless) (hs : LevelSession env c js s)
    (hr : r ∈ s.engine.store.rows) :
    (logReader c js).Tagged (partitionAt s.engine.index r.id) r.toEncoded := by
  intro p hp
  obtain ⟨i, hfind, hi⟩ := Option.bind_eq_some_iff.mp hp
  have hloc : i.loc = r.id := by simpa using List.find?_some hfind
  have hmem : i ∈ s.engine.index := List.mem_reverse.mp (List.mem_of_find?_eq_some hfind)
  obtain ⟨r', hr', hid, -, htag⟩ := Vouches.listed (hs.vouched hc) i hmem
  obtain rfl := List.inj_on_of_nodup_map s.engine.store.distinct hr' hr (hid.trans hloc)
  exact htag p hi

/-- What the index knows of a row that can be read. -/
theorem LevelSession.row_holds (hc : c.Lossless) (hs : LevelSession env c js s)
    (hr : r ∈ s.engine.store.rows) {entries : List LogEntry}
    (hread : decodeBlock c js r.data = .ok entries) :
    BlockHolds ⟨r.blockMeta, r.id, snapshotPartition q s.engine.index r.id⟩ entries := by
  obtain ⟨written, hw⟩ := hs.written hc r hr
  refine hw.holds hc hread ?_
  rw [snapshotPartition]
  split_ifs
  · exact hs.tagged_at hc hr
  · exact fun p hp => absurd hp (Option.some_ne_none p).symm

theorem LevelSession.blockCount_eq (hc : c.Lossless) (hs : LevelSession env c js s)
    (hr : r ∈ s.engine.store.rows) {found : List LogEntry}
    (h : blockMatches c js lowercase q r.data = .ok found) :
    blockCount c js lowercase q s.engine.index r = .ok found.length := by
  rw [blockCount]
  split_ifs with hwhole
  · have hfree := hwhole
    simp only [countedWhole, Bool.and_eq_true] at hfree
    rw [blockMatches, messageContains_free hfree.1.1.2] at h
    obtain ⟨entries, hread, rfl⟩ := bind_pure_eq_ok.mp h
    have hholds := hs.row_holds (q := q) hc hr hread
    rw [List.filter_eq_self.mpr fun e he => hholds.proven hwhole he]
    exact congrArg Except.ok hholds.count.symm
  · rw [h]
    rfl

/-- **Native count.** In every session the count is the number of rows that the query returns, and a
block that is answered by its entry count holds that many entries, all of them matches. -/
theorem count_eq_length (hc : c.Lossless) (hs : LevelSession env c js s)
    (hlike : q.messageLikePrune = none) {rows : List LogEntry}
    (h : query c js lowercase keys s.engine q = .ok rows)
    -- what a `Vec` can hold
    (hvec : rows.length < 2 ^ 64) :
    count c js lowercase keys s.engine q = .ok rows.length ∧
      ∀ r ∈ s.engine.store.rows, ∀ entries, decodeBlock c js r.data = .ok entries →
        countedWhole q (snapshotPartition q s.engine.index r.id) r.blockMeta = true →
        r.blockMeta.entryCount = entries.length ∧
          ∀ e ∈ entries, entryMatches lowercase q e = true := by
  refine ⟨?_, fun r hr entries hread hwhole => ?_⟩
  · obtain ⟨blocks, hblocks, h⟩ := of_bind h
    obtain ⟨found, hfound, rfl⟩ := bind_pure_eq_ok.mp h
    have hcounts : blocks.mapM (blockCount c js lowercase q s.engine.index) =
        .ok (found.map List.length) :=
      mapM_ok_map hfound fun r hr _ hmatching =>
        hs.blockCount_eq hc (mem_of_candidateBlocks hblocks hr) hmatching
    rw [List.length_insertionSort, List.length_append, List.length_flatten, Nat.add_comm] at hvec ⊢
    rw [count, rejectIf_neg (by rw [hlike]; exact Bool.false_ne_true), ok_bind, hblocks, ok_bind,
      hcounts, ok_bind, foldl_usizeAdd hvec]
    rfl
  · have hholds := hs.row_holds (q := q) hc hr hread
    exact ⟨hholds.count.symm, fun e he => hholds.proven hwhole he⟩

end Tables

/-- All entries of level `info` up to time 1000. -/
def infoUpTo1000 : LogQuery :=
  { upTo1000 with level := some 1 }

theorem count_eq_length_notices :
    count .storing taggedJson id [] (optimizedNotices 3).engine infoUpTo1000 = .ok 3 := by
  have hthree : (query .storing taggedJson id [] (optimizedNotices 3).engine
      infoUpTo1000).toOption.any (fun rows => rows.length == 3) = true := by decide +kernel
  cases hrows : query .storing taggedJson id [] (optimizedNotices 3).engine infoUpTo1000 with
  | error err =>
      rw [hrows] at hthree
      cases hthree
  | ok rows =>
      rw [hrows] at hthree
      have hlen : rows.length = 3 := beq_iff_eq.mp hthree
      have hcount := (count_eq_length Compressors.storing_lossless (optimizedNotices_session 3) rfl
        hrows (by rw [hlen]; decide)).1
      rwa [hlen] at hcount

end Timeless.Blocks
