import Timeless.Engine.Session
import Mathlib.Data.List.SplitBy
import Mathlib.Algebra.Order.BigOperators.Group.List

/-!
# Flush — what a flush writes, and when it returns

A flush sorts the buffer by partition and time and writes one block for each partition
(`flushRuns`). Over a store that never fails nothing but the encoder can stop it, so the buffer gets
out exactly if every run can be encoded. Behind that come retention, which cannot fail either, and
a budgeted maintenance if one is due.

* `flushInner_returns`, `flushInner_stuck`: the two ways the first part can go;
* `flush_returns`: the whole operation, if no maintenance is due;
* `flush_quiet`, `pushBatch_flushes`: what is stored then, without retention and maintenance.
-/

namespace Timeless.Engine

open Support Blocks Program

variable {E R : Type}

/-- A store none of whose calls fails. -/
def StoreEnv.NeverFails (env : StoreEnv) : Prop :=
  ∀ call, env.fault call = none

theorem StoreEnv.reliable_neverFails : StoreEnv.reliable.NeverFails :=
  fun _ => rfl

/-- The runs of one partition each that a flush makes blocks of. -/
def flushRuns (sig : Signal E R) (buffer : List E) : List (List E) :=
  (buffer.insertionSort (FlushLe sig)).splitBy fun a b => sig.part a == sig.part b

/-- The entries in raw blocks. -/
def rawEntries (sig : Signal E R) (index : List IndexEntry) : Nat :=
  ((index.filter fun i => sig.plan.isRaw i.blockMeta.codec).map IndexEntry.count).sum

variable {sig : Signal E R} {env : StoreEnv}

/-! ### Runs -/

variable {buffer : List E} {index : List IndexEntry}

section NeverFails

variable (hnf : env.NeverFails)

include hnf

variable {e : BlockEngine E R} {P : BlockEngine E R → Prop}

theorem storeCallOr_returns {text : String → String} {f : Store R → Store R}
    {Q : Unit → BlockEngine E R → Prop} (hok : ∀ e, P e → Q () (e.onStore f)) :
    Triple P (storeCallOr env text f) Q fun _ => False := by
  refine storeCallOr_cases hok fun e err hfault _ => ?_
  rw [hnf] at hfault
  cases hfault

theorem persistIngestRawTotal_returns (hP : Steady P) (added : Nat) :
    Triple P (persistIngestRawTotal env added : EngineM E R Unit) (fun _ => P) fun _ => False := by
  refine Triple.ite (fun _ => Triple.pure fun _ h => h) fun _ => ?_
  refine Triple.bind (storeCallOr_returns (Q := fun _ => P) hnf ?_) fun _ =>
    storeCallOr_returns hnf ?_
  · exact fun e he => hP e _ rfl he
  · exact fun e he => hP e _ rfl he

theorem persistCompressionTotals_returns (hP : Steady P) (rawIn rawOut mergeIn mergeOut : Nat) :
    Triple P (persistCompressionTotals env rawIn rawOut mergeIn mergeOut : EngineM E R Unit)
      (fun _ => P) fun _ => False := by
  refine Triple.ite (fun _ => Triple.pure fun _ h => h) fun _ => ?_
  refine Triple.bind (storeCallOr_returns (Q := fun _ => P) hnf ?_) fun _ =>
    storeCallOr_returns hnf ?_
  · exact fun e he => hP e _ rfl he
  · exact fun e he => hP e _ rfl he

end NeverFails

/-! ### The buffer gets out -/

/-- What stands in an engine, and what of another it has kept. -/
structure Stands (rows : List (Row R)) (buffer : List E) (index : List IndexEntry)
    (before e : BlockEngine E R) : Prop where
  rows_eq : e.store.rows = rows
  buffer_eq : e.buffer = buffer
  index_eq : e.index = index
  interval_eq : e.autoOptimizeInterval = before.autoOptimizeInterval
  flushes_eq : e.flushesSinceAutoOptimize = before.flushesSinceAutoOptimize
  retention_eq : e.retentionNative = before.retentionNative

theorem Stands.steady (rows : List (Row R)) (buffer : List E) (index : List IndexEntry)
    (before : BlockEngine E R) : Steady (Stands rows buffer index before) :=
  fun _ _ hrows he => ⟨hrows.trans he.1, he.2, he.3, he.4, he.5, he.6⟩

variable {before : BlockEngine E R}

theorem addAll_stands {rows : List (Row R)} {E' : BlockEngine E R → Prop}
    (es index : List IndexEntry) :
    Triple (Stands rows buffer index before) (addAll es)
      (fun _ => Stands rows buffer (index ++ es) before) E' :=
  addAll_appends (P := fun index => Stands rows buffer index before)
    (fun _ i _ h => ⟨h.1, h.2, congrArg (· ++ [i]) h.3, h.4, h.5, h.6⟩) es index

theorem putBlocks_stands (hnf : env.NeverFails) (blocks : List (Encoded R)) {e : BlockEngine E R} :
    Triple (fun e' => Stands e.store.rows buffer index before e' ∧ e'.store = e.store)
      (putBlocks env blocks)
      (fun locs => fun e' => Stands (e.store.rows ++ e.store.newRows env blocks) buffer index before
        e' ∧ locs = env.newIds e.store.calls e.store.ids blocks.length)
      fun _ => False := by
  refine Triple.get_bind fun e' he' => ?_
  obtain ⟨⟨hrows, hbuffer, hindex, hinterval, hflushes, hret⟩, hstore⟩ := he'
  rw [hnf]
  refine Triple.bind (Triple.modify
    (Q := fun _ => Stands (e.store.rows ++ e.store.newRows env blocks) buffer index before) ?_)
    fun _ => Triple.pure fun _ h => ⟨h, by rw [hstore]⟩
  rintro e' rfl
  refine ⟨?_, hbuffer, hindex, hinterval, hflushes, hret⟩
  change e'.store.rows ++ (e'.store.newRows env blocks).take blocks.length = _
  rw [hstore, List.take_of_length_le]
  simp [Store.newRows, env.length_newIds]

/-- What is there after the buffer got out. -/
abbrev Flushed (env : StoreEnv) (blocks : List (Encoded R × Option UInt8))
    (e : BlockEngine E R) : BlockEngine E R → Prop :=
  Stands (e.store.rows ++ e.store.newRows env (blocks.map Prod.fst)) []
    (e.index ++ indexEntries blocks (env.newIds e.store.calls e.store.ids blocks.length)) e

variable {blocks : List (Encoded R × Option UInt8)}

/-- If the runs can be encoded, they are stored and the buffer is empty. -/
theorem flushInner_returns (hnf : env.NeverFails)
    (hblocks : encodeRuns sig (e.buffer.insertionSort (FlushLe sig)) = .ok blocks) :
    Triple (· = e) (flushInner sig env) (fun _ => Flushed env blocks e) fun _ => False := by
  refine Triple.get_bind fun e' he' => ?_
  subst he'
  refine Triple.ite (fun hempty => ?_) fun _ => ?_
  · have hnil : e'.buffer = [] := List.isEmpty_iff.mp hempty
    obtain rfl : blocks = [] := by
      rw [hnil] at hblocks
      exact (Except.ok.inj hblocks).symm
    refine Triple.pure ?_
    rintro _ rfl
    exact ⟨by simp [Store.newRows], hnil, by simp [indexEntries], rfl, rfl, rfl⟩
  · generalize e'.buffer.insertionSort (FlushLe sig) = sorted at hblocks
    refine Triple.bind (Triple.modify (Q := fun _ e'' =>
      Stands e'.store.rows sorted e'.index e' e'' ∧ e''.store = e'.store) ?_) fun _ => ?_
    · rintro _ rfl
      exact ⟨⟨rfl, rfl, rfl, rfl, rfl, rfl⟩, rfl⟩
    rw [hblocks]
    refine Triple.bind (Triple.pure (Q := fun bs e'' => (Stands e'.store.rows sorted e'.index e' e'' ∧
      e''.store = e'.store) ∧ bs = blocks) fun _ h => ⟨h, rfl⟩) fun bs => Triple.given fun hbs => ?_
    subst hbs
    refine Triple.bind (putBlocks_stands hnf (bs.map Prod.fst)) fun locs =>
      Triple.given fun hlocs => ?_
    subst hlocs
    refine Triple.bind (persistIngestRawTotal_returns hnf (Stands.steady _ _ _ _) _) fun _ => ?_
    refine Triple.bind (addAll_stands _ _) fun _ => ?_
    refine Triple.bind (Triple.modify (Q := fun _ => Flushed env bs e') ?_) fun _ =>
      Triple.pure fun _ h => h
    rintro e'' ⟨hrows, -, hindex, hinterval, hflushes, hret⟩
    refine ⟨hrows, rfl, ?_, hinterval, hflushes, hret⟩
    rw [List.length_map] at hindex
    exact hindex

/-- If they cannot, no flush returns and the entries stay where they are. -/
theorem flushInner_stuck (hne : e.buffer ≠ [])
    (hstuck : ¬∃ blocks, encodeRuns sig (e.buffer.insertionSort (FlushLe sig)) = .ok blocks) :
    Triple (· = e) (flushInner sig env) (fun _ _ => False)
      fun e' => e'.buffer.Perm e.buffer ∧ e'.store = e.store ∧ e'.index = e.index := by
  refine Triple.get_bind fun e' he' => ?_
  subst he'
  refine Triple.ite (fun hempty => absurd (List.isEmpty_iff.mp hempty) hne) fun _ => ?_
  have hperm := List.perm_insertionSort (FlushLe sig) e'.buffer
  generalize e'.buffer.insertionSort (FlushLe sig) = sorted at hstuck hperm
  refine Triple.bind (Triple.modify (Q := fun _ e'' => e''.buffer.Perm e'.buffer ∧
    e''.store = e'.store ∧ e''.index = e'.index) ?_) fun _ => ?_
  · rintro _ rfl
    exact ⟨hperm, rfl, rfl⟩
  refine Triple.bind (Triple.lift (Q := fun _ _ => False) ?_ fun _ h => h) fun _ =>
    Triple.imp (P := fun _ => False) (fun _ h => h.elim) (fun _ h => h) (fun _ _ h => h)
      fun _ h => h
  exact fun blocks hblocks => absurd ⟨blocks, hblocks⟩ hstuck

/-! ### The whole flush -/

/-- Without retention and maintenance a flush does nothing but write the buffer. -/
theorem flush_quiet (hnf : env.NeverFails) (hret : e.retentionNative = 0)
    (hinterval : e.autoOptimizeInterval = 0)
    (hblocks : encodeRuns sig (e.buffer.insertionSort (FlushLe sig)) = .ok blocks) :
    Triple (· = e) (flush sig env) (fun _ => Flushed env blocks e) fun _ => False := by
  refine Triple.bind (flushInner_returns hnf hblocks) fun _ => ?_
  refine Triple.bind (Q := fun _ => Flushed env blocks e) ?_ fun _ =>
    Triple.bind (Q := fun _ => Flushed env blocks e) ?_ fun _ => Triple.pure fun _ h => h
  · refine Triple.get_bind fun e' he' => Triple.ite (fun _ => ?_) fun hno => ?_
    · exact Triple.pure fun _ heq => heq ▸ he'
    · exact absurd (he'.retention_eq.trans hret) hno
  · refine Triple.get_bind fun e' he' => Triple.ite (fun _ => ?_) fun hno => ?_
    · exact Triple.pure fun _ heq => heq ▸ he'
    · exact absurd (he'.interval_eq.trans hinterval) hno

/-- A batch that fills an empty buffer is flushed. -/
theorem pushBatch_flushes (hnf : env.NeverFails) (hret : e.retentionNative = 0)
    (hinterval : e.autoOptimizeInterval = 0) {entries admitted : List E}
    (haccept : entries.mapM sig.accept = .ok admitted) (hempty : e.buffer = [])
    (hfull : sig.flushThreshold ≤ admitted.length)
    (hblocks : encodeRuns sig (admitted.insertionSort (FlushLe sig)) = .ok blocks) :
    Triple (· = e) (pushBatch sig env entries)
      (fun _ e' => e'.store.rows = e.store.rows ++ e.store.newRows env (blocks.map Prod.fst))
      fun _ => False := by
  have hbuffer : (e.onJournal fun j => j.push admitted).buffer = admitted := by
    change e.buffer ++ admitted = admitted
    rw [hempty, List.nil_append]
  have hflush : Triple (· = e.onJournal fun j => j.push admitted) (flush sig env)
      (fun _ e' => e'.store.rows = e.store.rows ++ e.store.newRows env (blocks.map Prod.fst))
      fun _ => False := by
    rw [← hbuffer] at hblocks
    exact (flush_quiet (e := e.onJournal fun j => j.push admitted) hnf hret hinterval hblocks).imp
      (fun _ h => h) (fun _ _ h => h.rows_eq) fun _ h => h
  rw [pushBatch, haccept]
  refine Triple.bind (Triple.pure (Q := fun a e' => e' = e ∧ a = admitted) fun _ h => ⟨h, rfl⟩)
    fun a => Triple.given fun ha => ?_
  subst ha
  refine Triple.bind (Triple.modify (Q := fun _ e' => e' = e.onJournal fun j => j.push a) ?_)
    fun _ => ?_
  · rintro _ rfl
    rfl
  refine Triple.bind (Q := fun _ e' => e'.store.rows =
    e.store.rows ++ e.store.newRows env (blocks.map Prod.fst)) ?_ fun _ => Triple.pure fun _ h => h
  refine Triple.get_bind fun e' he' => ?_
  subst he'
  rw [hbuffer, if_pos hfull]
  exact Triple.bind hflush fun _ => Triple.pure fun _ h => h

end Timeless.Engine
