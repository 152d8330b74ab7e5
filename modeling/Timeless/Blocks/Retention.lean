import Timeless.Blocks.Levels

/-!
# Retention — deleting by age spares what is recent

Logs are deleted by blocks: those whose newest entry is before the cutoff, by the metadata in the
index, and old entries of the buffer. `Spares`: every entry from the cutoff on stays where it was
and none is added. `deletes_by_age`: pruning and retention do so in every session, whatever calls of
the store fail; the cutoff of retention is as far behind the newest entry as was asked for.
-/

namespace Timeless.Blocks

open Support Codec Engine Program

variable {c : Compressors} {N : Type} {js : SerdeJson N} {env : StoreEnv}
  {s : Session LogEntry (List Text)} {cutoff : Int64}

/-- What is from the cutoff on stays, in its order, and nothing comes. -/
structure Spares (c : Compressors) (js : SerdeJson N) (cutoff : Int64)
    (before after : BlockEngine LogEntry (List Text)) : Prop where
  recent : (allEntries c js after).filter (fun x => cutoff ≤ x.ts) =
    (allEntries c js before).filter fun x => cutoff ≤ x.ts
  sublist : (allEntries c js after).Sublist (allEntries c js before)

/-- The blocks that are all before the cutoff, as the index has it. -/
def victims (cutoff : Int64) (e : BlockEngine LogEntry (List Text)) : List Int :=
  (e.index.filter fun i => i.tsMax < cutoff).map IndexEntry.loc

/-- No block of the index is all before the cutoff, and nothing in the buffer is. -/
def Pruned (cutoff : Int64) (e : BlockEngine LogEntry (List Text)) : Prop :=
  (∀ i ∈ e.index, cutoff ≤ i.tsMax) ∧ ∀ x ∈ e.buffer, cutoff ≤ x.ts

/-- The block of a victim holds nothing recent. -/
theorem old_of_victim (hc : c.Lossless) (hs : LevelSession env c js s) {r : Row (List Text)}
    (hr : r ∈ s.engine.store.rows) (hold : r.id ∈ victims cutoff s.engine) :
    (entriesOf c js r.data).filter (fun x => cutoff ≤ x.ts) = [] := by
  obtain ⟨i, hi, hloc⟩ := List.mem_map.mp hold
  obtain ⟨hi, hlt⟩ := List.mem_filter.mp hi
  obtain ⟨r', hr', hid, hmeta, htag⟩ := Vouches.listed (hs.vouched hc) i hi
  obtain rfl := List.inj_on_of_nodup_map s.engine.store.distinct hr' hr (hid.trans hloc)
  rw [List.filter_eq_nil_iff, entriesOf]
  cases hread : decodeBlock c js r'.data with
  | error err => exact fun x hx => absurd hx List.not_mem_nil
  | ok out =>
      intro x hx hrecent
      obtain ⟨entries, hw⟩ := hs.written hc r' hr'
      have hholds : BlockHolds ⟨r'.blockMeta, i.loc, i.partition⟩ out := hw.holds hc hread htag
      have hrange : x.ts ≤ r'.blockMeta.tsMax := (hholds.range x hx).2
      rw [hmeta] at hrange
      exact Int64.not_le.mpr (of_decide_eq_true hlt)
        (Int64.le_trans (of_decide_eq_true hrecent) hrange)

/-- Rows that go are victims, and the buffer has lost its old entries. -/
theorem spares_of (hc : c.Lossless) (hs : LevelSession env c js s)
    {after : BlockEngine LogEntry (List Text)} {p : Row (List Text) → Bool}
    (hp : ∀ r ∈ s.engine.store.rows, p r = false → r.id ∈ victims cutoff s.engine)
    (hrows : after.store.rows = s.engine.store.rows.filter p)
    (hbuffer : after.buffer = s.engine.buffer.filter fun x => cutoff ≤ x.ts) :
    Spares c js cutoff s.engine after := by
  constructor
  · rw [allEntries, allEntries, hrows, hbuffer, List.filter_append, List.filter_append,
      List.filter_filter, List.filter_flatMap, List.filter_flatMap]
    rw [Keyed.flatMap_filter_of_nil fun r hr hgone => old_of_victim hc hs hr (hp r hr hgone)]
    simp only [Bool.and_self]
  · rw [allEntries, allEntries, hrows, hbuffer]
    exact (List.filter_sublist.flatMap _).append List.filter_sublist

/-- An engine whose buffer has been cut already. -/
structure Trimmed (cutoff : Int64) (before e : BlockEngine LogEntry (List Text)) : Prop where
  rows : e.store.rows = before.store.rows
  index : e.index = before.index
  buffer : e.buffer = before.buffer.filter fun x => cutoff ≤ x.ts

theorem recent_of_filter {buffer es : List LogEntry}
    (h : buffer = es.filter fun x => cutoff ≤ x.ts) : ∀ x ∈ buffer, cutoff ≤ x.ts := by
  intro x hx
  rw [h] at hx
  exact of_decide_eq_true (List.mem_filter.mp hx).2

theorem prune_spares (hc : c.Lossless) (hs : LevelSession env c js s) (cutoff : Int64) :
    Triple (· = s.engine) (prune s.sig env cutoff)
      (fun _ e => Spares c js cutoff s.engine e ∧ Pruned cutoff e)
      fun e => Spares c js cutoff s.engine e ∧ ¬env.NeverFails := by
  obtain ⟨cfg, hsig⟩ := (hs.intact hc).kind
  refine Triple.get_bind fun e he => ?_
  subst he
  refine Triple.bind (Triple.modify (Q := fun _ => Trimmed cutoff s.engine) ?_) fun _ => ?_
  · rintro _ rfl
    rw [hsig]
    exact ⟨rfl, rfl, rfl⟩
  have hsame : ∀ e, Trimmed cutoff s.engine e → Spares c js cutoff s.engine e := fun e he =>
    spares_of hc hs (p := fun _ => true) (fun _ _ h => nomatch h) (by simpa using he.rows) he.buffer
  refine Triple.ite (fun hnone => Triple.pure fun e he => ⟨hsame e he, fun i hi => ?_,
    recent_of_filter he.buffer⟩) fun _ => ?_
  · rw [List.isEmpty_iff, List.map_eq_nil_iff, List.filter_eq_nil_iff] at hnone
    exact Int64.not_lt.mp fun hlt => hnone i (he.index ▸ hi) (decide_eq_true hlt)
  refine Triple.bind (storeCallOr_cases (Q := fun _ e => Spares c js cutoff s.engine e ∧
    e.buffer = s.engine.buffer.filter fun x => cutoff ≤ x.ts) ?_ ?_)
    fun _ => Triple.bind (Triple.modify (Q := fun _ e => Spares c js cutoff s.engine e ∧
      Pruned cutoff e) ?_) fun _ => Triple.pure fun _ h => h
  · rintro e ⟨hrows, -, hbuf⟩
    refine ⟨spares_of hc hs (p := fun r => r.id ∉ victims cutoff s.engine)
      (fun r _ h => ?_) ?_ hbuf, hbuf⟩
    · exact of_not_not (of_decide_eq_false h)
    · change e.store.rows.filter _ = _
      rw [hrows]
      rfl
  · refine fun e err hfault he => ⟨hsame _ ⟨he.rows, he.index, he.buffer⟩, fun hnf => ?_⟩
    simp [hnf _] at hfault
  · refine fun e he => ⟨⟨he.1.1, he.1.2⟩, fun i hi => ?_, recent_of_filter he.2⟩
    have hkept : ¬i.tsMax < cutoff := by simpa using (List.mem_filter.mp hi).2
    exact Int64.not_lt.mp hkept

/-- **Deletion by age.** Pruning at a cutoff spares what is from the cutoff on, and retention what
is at most that much older than the newest entry that the index or the buffer has. Pruning leaves no
block that is all older; it fails only if the store does. -/
theorem deletes_by_age (hc : c.Lossless) (hs : LevelSession env c js s) :
    (∀ cutoff, Triple (· = s.engine) (prune s.sig env cutoff)
      (fun _ e => Spares c js cutoff s.engine e ∧ Pruned cutoff e)
      fun e => Spares c js cutoff s.engine e ∧ ¬env.NeverFails) ∧
    ∀ newest, tsRangeMax s.sig s.engine = some newest →
      Spares c js (satSub newest s.engine.retentionNative) s.engine
        ((applyRetention s.sig env).exec s.engine).2 := by
  refine ⟨prune_spares hc hs, fun newest hnewest => ?_⟩
  refine Triple.exec (P := (· = s.engine)) ?_ rfl
  have hsame : ∀ e, e = s.engine →
      Spares c js (satSub newest s.engine.retentionNative) s.engine e := by
    rintro _ rfl
    exact ⟨rfl, .refl _⟩
  refine Triple.get_bind fun e he => ?_
  subst he
  refine Triple.ite (fun _ => Triple.pure hsame) fun _ => ?_
  rw [hnewest]
  refine Triple.ite (fun _ => Triple.pure hsame) fun _ => ?_
  exact Triple.bind ((prune_spares hc hs _).imp (fun _ h => h) (fun _ _ h => h.1) fun _ h => h.1)
    fun _ => Triple.bind (Triple.modify fun e he => ⟨he.1, he.2⟩) fun _ => Triple.pure fun _ h => h

/-- Two old entries in one block, a recent one in another, and one of each in the buffer. -/
def oldAndNew : Session LogEntry (List Text) :=
  let pushed := ((push freshTable.sig .reliable (noticeEntry 8)).exec (flushedNotices 2).engine).2
  let flushed := ((flush freshTable.sig .reliable).exec pushed).2
  { freshTable with
    engine := ((pushBatch freshTable.sig .reliable [noticeEntry 3, noticeEntry 9]).exec flushed).2 }

theorem oldAndNew_session : LevelSession .reliable .storing taggedJson oldAndNew :=
  (((flushedNotices_session 2).step
    (show Op.OpensWith _ (.push (noticeEntry 8)) from trivial) rfl).step
    (show Op.OpensWith _ .flush from trivial) rfl).step
    (show Op.OpensWith _ (.pushBatch [noticeEntry 3, noticeEntry 9]) from trivial) rfl

/-- A block and an entry of the buffer go, the recent ones stay. -/
theorem deletes_by_age_oldAndNew :
    LevelSession .reliable .storing taggedJson oldAndNew ∧
      (oldAndNew.engine.index.map (·.tsMax), oldAndNew.engine.buffer.map (·.ts)) =
        ([1, 8], [3, 9]) ∧
      (((prune oldAndNew.sig .reliable 5).exec oldAndNew.engine).2.index.map (·.tsMax),
          ((prune oldAndNew.sig .reliable 5).exec oldAndNew.engine).2.buffer.map (·.ts)) =
        ([8], [9]) ∧
      Triple (· = oldAndNew.engine) (prune oldAndNew.sig .reliable 5)
        (fun _ e => Spares .storing taggedJson 5 oldAndNew.engine e ∧ Pruned 5 e)
        fun e => Spares .storing taggedJson 5 oldAndNew.engine e ∧
          ¬StoreEnv.reliable.NeverFails :=
  ⟨oldAndNew_session, by decide +kernel, by decide +kernel,
    (deletes_by_age Compressors.storing_lossless oldAndNew_session).1 5⟩

end Timeless.Blocks
