import Timeless.Engine.Engine

/-!
# Session — an engine inside the transactions of its host

The host tells the engine when a transaction begins and ends and when a savepoint is opened, given
up or returned to; on the way back it restores the rows of the store itself. A `Session` is an
engine with what the host would bring back: the states in which the transaction and its open
savepoints began.

* `Good`: the index has distinct row ids that are all in the store, and the journal follows the
  saved states. Every operation keeps it, whether it succeeds or fails (`keeps_flush`,
  `keeps_optimizeBudgeted`, …), and so does every step of a session (`Sound.step`);
* `Reachable.restores`: undoing gives back the saved memory.
-/

namespace Timeless.Engine

open Support Blocks

variable {E R : Type}

/-! ### Transactions -/

namespace BlockEngine

/-- The part of an engine that the journal restores. -/
def memory (e : BlockEngine E R) : Journal.Memory E IndexEntry :=
  e.journal.toMemory

/-- Begin to log changes. -/
def txnBegin (e : BlockEngine E R) : BlockEngine E R :=
  e.onJournal Journal.State.start

/-- Keep the changes and end the log. -/
def txnCommit (e : BlockEngine E R) : BlockEngine E R :=
  e.onJournal Journal.State.commit

/-- Undo everything logged. -/
def txnRollback (e : BlockEngine E R) : BlockEngine E R :=
  e.onJournal (Journal.State.rollback IndexEntry.loc)

/-- Open a frame under a number. -/
def txnSavepoint (id : Int) (e : BlockEngine E R) : BlockEngine E R :=
  e.onJournal (Journal.State.savepoint id)

/-- Merge a frame, and those inside it, into the one around it. -/
def txnRelease (id : Int) (e : BlockEngine E R) : BlockEngine E R :=
  e.onJournal (Journal.State.release IndexEntry.loc id)

/-- Undo a frame and those inside it, and keep it open. -/
def txnRollbackTo (id : Int) (e : BlockEngine E R) : BlockEngine E R :=
  e.onJournal (Journal.State.rollbackTo IndexEntry.loc id)

end BlockEngine

/-- An engine with its configuration, and the states to which its host can return. -/
structure Session (E R : Type) where
  sig : Signal E R
  engine : BlockEngine E R
  saves : Option (Journal.Saves Int (BlockEngine E R))

/-- What happens to an engine. -/
inductive Op (E R : Type) where
  | push (entry : E)
  | pushBatch (entries : List E)
  | flush
  | optimize
  | optimizeBudgeted (maxEntries : Nat)
  | prune (cutoff : Int64)
  | setRetention (native : Option Int64)
  | setAutoOptimizeInterval (interval : Nat)
  | begin
  | commit
  | rollback
  | savepoint (id : Int)
  | release (id : Int)
  | rollbackTo (id : Int)
  | reopen (sig : Signal E R) (autoOptimizeInterval : Nat)

variable (sig : Signal E R) (env : StoreEnv)

/-- One operation; `none` where the engine falls out of step with its host: at a rollback to a savepoint
it was not told of, which it ignores, and at a second savepoint of one name (see `Savepoints`). -/
def Session.step (s : Session E R) : Op E R → Option (Session E R)
  | .push entry => some { s with engine := ((push s.sig env entry).exec s.engine).2 }
  | .pushBatch entries => some { s with engine := ((pushBatch s.sig env entries).exec s.engine).2 }
  | .flush => some { s with engine := ((flush s.sig env).exec s.engine).2 }
  | .optimize => some { s with engine := ((optimize s.sig env).exec s.engine).2 }
  | .optimizeBudgeted n =>
      some { s with engine := ((optimizeBudgeted s.sig env n).exec s.engine).2 }
  | .prune cutoff => some { s with engine := ((prune s.sig env cutoff).exec s.engine).2 }
  | .setRetention native => some { s with engine := setRetention native s.engine }
  | .setAutoOptimizeInterval n => some { s with engine := setAutoOptimizeInterval n s.engine }
  | .begin =>
      match s.saves with
      | none => some { s with engine := s.engine.txnBegin, saves := some (.start s.engine) }
      | some _ => none
  | .commit =>
      match s.saves with
      | none => none
      | some _ => some { s with engine := s.engine.txnCommit, saves := none }
  | .rollback =>
      match s.saves with
      | none => none
      | some v =>
          some { s with
            engine := s.engine.txnRollback.onStore fun st => st.restore v.base.store
            saves := none }
  | .savepoint id =>
      match s.saves with
      | none => none
      | some v =>
          if id ∉ v.opened.map Prod.fst then
            some { s with
              engine := s.engine.txnSavepoint id
              saves := some (v.savepoint id s.engine) }
          else none
  | .release id =>
      match s.saves with
      | none => none
      | some v => some { s with engine := s.engine.txnRelease id, saves := some (v.release id) }
  | .rollbackTo id =>
      match s.saves with
      | none => none
      | some v =>
          match v.find id with
          | none => none
          | some b =>
              some { s with
                engine := (s.engine.txnRollbackTo id).onStore fun st => st.restore b.store
                saves := some (v.rollbackTo id) }
  | .reopen sig interval =>
      match s.saves with
      | none => some ⟨sig, .create sig s.engine.store interval, none⟩
      | some _ => none

/-- The sessions that start over a store and go on by operations; `starts` says with which
configurations and over which stores, `allows` with which operations. -/
inductive Reachable (starts : Signal E R → Store R → Prop) (allows : Op E R → Prop) :
    Session E R → Prop
  | start {sig : Signal E R} {store : Store R} (interval : Nat) (h : starts sig store) :
      Reachable starts allows ⟨sig, .create sig store interval, none⟩
  | step {s s' : Session E R} {op : Op E R} (before : Reachable starts allows s) (hop : allows op)
      (h : s.step env op = some s') : Reachable starts allows s'

/-! ### The invariant -/

/-- The index names distinct rows that are in the store. -/
structure Indexed (e : BlockEngine E R) : Prop where
  distinct : e.memory.Distinct IndexEntry.loc
  present : ∀ i ∈ e.index, i.loc ∈ e.store.ids

/-- An engine that can go back to what is saved. -/
structure Good (saves : Option (Journal.Saves Int (BlockEngine E R))) (e : BlockEngine E R) :
    Prop extends Indexed e where
  follows : Journal.Follows IndexEntry.loc BlockEngine.memory e.journal saves

variable {sig env} {saves : Option (Journal.Saves Int (BlockEngine E R))}

variable {e : BlockEngine E R} {f : Store R → Store R}

theorem Good.onStore (h : Good saves e) (hf : ∀ i ∈ e.index, i.loc ∈ (f e.store).ids) :
    Good saves (e.onStore f) :=
  ⟨⟨h.distinct, hf⟩, h.follows⟩

theorem Good.disturb (h : Good saves e) (buffer : List E) :
    Good saves (e.onJournal fun j => j.disturb buffer) :=
  ⟨⟨h.distinct, h.present⟩, h.follows.disturb buffer⟩

theorem Good.push (h : Good saves e) (entries : List E) :
    Good saves (e.onJournal fun j => j.push entries) :=
  ⟨⟨h.distinct, h.present⟩, h.follows.push entries⟩

theorem Good.add (h : Good saves e) {i : IndexEntry} (hnew : i.loc ∉ e.index.map IndexEntry.loc)
    (hpresent : i.loc ∈ e.store.ids) :
    Good saves (e.onJournal fun j => j.add IndexEntry.loc i) := by
  refine ⟨⟨?_, ?_⟩, h.follows.add hnew⟩
  · change ((e.index ++ [i]).map IndexEntry.loc).Nodup
    rw [List.map_append, List.nodup_append']
    refine ⟨h.distinct, List.nodup_singleton _, ?_⟩
    simpa [List.disjoint_singleton] using hnew
  · intro i' hi'
    rcases List.mem_append.mp hi' with hi' | hi'
    · exact h.present i' hi'
    · rw [List.mem_singleton.mp hi']
      exact hpresent

/-- Taking entries out of the index; their rows may be gone already. -/
theorem good_remove (hdistinct : e.memory.Distinct IndexEntry.loc)
    (hfollows : Journal.Follows IndexEntry.loc BlockEngine.memory e.journal saves)
    {p : IndexEntry → Bool} (hpresent : ∀ i ∈ e.index, p i = false → i.loc ∈ e.store.ids) :
    Good saves (e.onJournal fun j => j.remove IndexEntry.loc p) := by
  refine ⟨⟨hdistinct.sublist (List.filter_sublist.map _), fun i hi => ?_⟩,
    hfollows.remove hdistinct p⟩
  obtain ⟨hmem, hkeep⟩ := List.mem_filter.mp hi
  exact hpresent i hmem (by simpa using hkeep)

theorem Good.remove (h : Good saves e) (p : IndexEntry → Bool) :
    Good saves (e.onJournal fun j => j.remove IndexEntry.loc p) :=
  good_remove h.distinct h.follows fun i hi _ => h.present i hi

/-! ### Store calls -/

open Program

variable {text : String → String} {P E' : BlockEngine E R → Prop}
  {Q : Unit → BlockEngine E R → Prop} {s : Session E R}

theorem storeCallOr_cases (hok : ∀ e, P e → Q () (e.onStore f))
    (herr : ∀ e err, env.fault e.store.calls = some err → P e → E' (e.onStore Store.called)) :
    Triple P (storeCallOr env text f) Q E' := by
  refine Triple.get_bind fun e he => ?_
  cases hfault : env.fault e.store.calls with
  | none =>
      refine Triple.modify ?_
      rintro e rfl
      exact hok _ he
  | some err =>
      refine Triple.bind (Triple.modify ?_) fun _ => Triple.throw fun _ he' => he'
      rintro e rfl
      exact herr _ err hfault he

theorem storeCallOr_triple (hok : ∀ e, P e → Q () (e.onStore f))
    (herr : ∀ e, P e → E' (e.onStore Store.called)) :
    Triple P (storeCallOr env text f) Q E' :=
  storeCallOr_cases hok fun e _ _ he => herr e he

/-- A property that depends on nothing but the rows of the store and the engine's memory. -/
def Steady (P : BlockEngine E R → Prop) : Prop :=
  ∀ (e : BlockEngine E R) (f : Store R → Store R), (f e.store).rows = e.store.rows → P e →
    P (e.onStore f)

theorem ids_congr {s s' : Store R} (h : s'.rows = s.rows) : s'.ids = s.ids :=
  congrArg (List.map Row.id) h

theorem Good.steady : Steady (Good saves : BlockEngine E R → Prop) := fun e f hrows he =>
  he.onStore fun i hi => by rw [ids_congr hrows]; exact he.present i hi

namespace Steady

variable {P Q : BlockEngine E R → Prop}

theorem and (hP : Steady P) (hQ : Steady Q) : Steady fun e => P e ∧ Q e :=
  fun e f hrows he => ⟨hP e f hrows he.1, hQ e f hrows he.2⟩

theorem index (I : List IndexEntry) : Steady fun e : BlockEngine E R => e.index = I :=
  fun _ _ _ he => he

theorem storeCall (hP : Steady P) (hf : ∀ s, (f s).rows = s.rows) :
    Keeps P (storeCall env f : EngineM E R Unit) :=
  storeCallOr_triple (fun e he => hP e f (hf _) he) fun e he => hP e _ rfl he

theorem readBlock (hP : Steady P) (loc : Int) :
    Keeps P (readBlock env loc : EngineM E R (List UInt8)) :=
  Keeps.bind (hP.storeCall (by intro s; rfl)) fun _ => Keeps.get_bind fun _ => .lift _

theorem persistIngestRawTotal (hP : Steady P) (added : Nat) :
    Keeps P (persistIngestRawTotal env added : EngineM E R Unit) :=
  .ite (.pure ()) (.bind (hP.storeCall (by intro s; rfl)) fun _ => hP.storeCall (by intro s; rfl))

theorem persistCompressionTotals (hP : Steady P) (rawIn rawOut mergeIn mergeOut : Nat) :
    Keeps P (persistCompressionTotals env rawIn rawOut mergeIn mergeOut : EngineM E R Unit) :=
  .ite (.pure ()) (.bind (hP.storeCall (by intro s; rfl)) fun _ => hP.storeCall (by intro s; rfl))

theorem readSources (hP : Steady P) (sources : List IndexEntry) :
    Keeps P (readSources sig env sources) := by
  induction sources with
  | nil => exact .pure _
  | cons source rest ih =>
      exact (hP.readBlock source.loc).bind fun _ => (Keeps.lift _).bind fun _ => ih.bind fun _ => .pure _

/-- Groups are rewritten one for one. -/
theorem rewriteGroups (hP : Steady P) (groups : List OptimizeGroup) :
    Triple P (rewriteGroups sig env groups)
      (fun done e => P e ∧ done.map Rewritten.group = groups) P := by
  induction groups with
  | nil => exact Triple.pure fun e he => ⟨he, rfl⟩
  | cons g groups ih =>
      have hfirst : Triple P (rewriteGroup sig env g) (fun r e => P e ∧ r.group = g) P :=
        Triple.bind (hP.readSources g.sources) fun _ => Triple.bind (Keeps.lift _) fun _ =>
          Triple.pure fun e he => ⟨he, rfl⟩
      refine hfirst.bind fun r => Triple.given fun hr => ih.bind fun done => ?_
      exact Triple.given fun hdone => Triple.pure fun e he => ⟨he, by simp [hr, hdone]⟩

end Steady

/-- Row ids that are in the store and not in the index. -/
structure Unlisted (locs : List Int) (e : BlockEngine E R) : Prop where
  nodup : locs.Nodup
  present : ∀ l ∈ locs, l ∈ e.store.ids
  unlisted : ∀ l ∈ locs, l ∉ e.index.map IndexEntry.loc

theorem insert_ids (s : Store R) (blocks : List (Encoded R)) (n : Nat) :
    (s.insert env blocks n).ids = s.ids ++ (env.newIds s.calls s.ids blocks.length).take n := by
  rw [Store.ids, Store.insert, List.map_append, List.map_take, s.newRows_ids]
  rfl

/-- An insertion hands out ids that the index does not have. -/
theorem putBlocks_triple (blocks : List (Encoded R)) (I : List IndexEntry) :
    Triple (fun e => Good saves e ∧ e.index = I) (putBlocks env blocks : EngineM E R (List Int))
      (fun locs e => Good saves e ∧ Unlisted locs e ∧ e.index = I) (Good saves) := by
  refine Triple.get_bind fun e he => ?_
  obtain ⟨hgood, hindex⟩ := he
  have hgrow : ∀ n, ∀ i ∈ e.index, i.loc ∈ (e.store.insert env blocks n).ids := fun n i hi => by
    rw [insert_ids]
    exact List.mem_append_left _ (hgood.present i hi)
  cases env.fault e.store.calls with
  | some err =>
      refine Triple.bind (Triple.modify ?_) fun _ => Triple.throw fun _ he' => he'
      rintro e rfl
      exact hgood.onStore (hgrow _)
  | none =>
      refine Triple.bind (Triple.modify ?_) fun _ => Triple.pure fun _ he' => he'
      rintro e rfl
      refine ⟨hgood.onStore (hgrow _), ⟨env.nodup_newIds _ _ _, ?_, ?_⟩, hindex⟩
      · intro l hl
        change l ∈ (e.store.insert env blocks blocks.length).ids
        rw [insert_ids, List.take_of_length_le (env.length_newIds _ _ _).le]
        exact List.mem_append_right _ hl
      · intro l hl hlisted
        obtain ⟨i, hi, rfl⟩ := List.mem_map.mp hlisted
        exact env.fresh_newIds _ _ _ _ hl (hgood.present i hi)

theorem indexEntries_locs (blocks : List (Encoded R × Option UInt8)) (locs : List Int) :
    ((indexEntries blocks locs).map IndexEntry.loc).Sublist locs := by
  induction blocks generalizing locs with
  | nil => simp [indexEntries]
  | cons b blocks ih =>
      cases locs with
      | nil => simp [indexEntries]
      | cons l locs => simpa [indexEntries] using (ih locs).cons_cons l

theorem mem_indexEntries {blocks : List (Encoded R × Option UInt8)} {locs : List Int}
    {i : IndexEntry} (h : i ∈ indexEntries blocks locs) :
    ∃ b ∈ blocks, i.blockMeta = b.1.blockMeta := by
  rw [indexEntries, ← List.map_uncurry_zip_eq_zipWith] at h
  obtain ⟨p, hp, rfl⟩ := List.mem_map.mp h
  exact ⟨p.1, (List.of_mem_zip hp).1, rfl⟩

theorem Unlisted.sublist {locs locs' : List Int} (h : Unlisted locs e) (hsub : locs'.Sublist locs) :
    Unlisted locs' e :=
  ⟨h.nodup.sublist hsub, fun l hl => h.present l (hsub.subset hl),
    fun l hl => h.unlisted l (hsub.subset hl)⟩

/-- New blocks get into the index, and nothing else does. -/
theorem addAll_triple (es I : List IndexEntry) :
    Triple (fun e => Good saves e ∧ Unlisted (es.map IndexEntry.loc) e ∧ e.index = I)
      (addAll es : EngineM E R Unit)
      (fun _ e => Good saves e ∧ e.index = I ++ es) (Good saves) := by
  induction es generalizing I with
  | nil => exact Triple.pure fun e he => ⟨he.1, by simpa using he.2.2⟩
  | cons i es ih =>
      refine (Triple.bind (Triple.modify ?_) fun _ => ih (I ++ [i])).imp (fun _ he => he)
        (fun _ _ he => by simpa using he) fun _ he => he
      rintro e ⟨hgood, hnew, rfl⟩
      have hi := List.mem_cons_self (a := i.loc) (l := es.map IndexEntry.loc)
      refine ⟨hgood.add (hnew.unlisted _ hi) (hnew.present _ hi), ?_, rfl⟩
      obtain ⟨hfirst, hrest⟩ := List.nodup_cons.mp hnew.nodup
      refine ⟨hrest, fun l hl => hnew.present l (List.mem_cons_of_mem _ hl), fun l hl hlisted => ?_⟩
      rw [show (e.onJournal fun j => j.add IndexEntry.loc i).index = e.index ++ [i] from rfl,
        List.map_append, List.mem_append] at hlisted
      rcases hlisted with hlisted | hlisted
      · exact hnew.unlisted l (List.mem_cons_of_mem _ hl) hlisted
      · rw [List.map_singleton, List.mem_singleton] at hlisted
        exact hfirst (hlisted ▸ hl)

/-- What grows with the index, entry by entry, grows with a list of entries. -/
theorem addAll_appends {P : List IndexEntry → BlockEngine E R → Prop}
    (hadd : ∀ I i e, P I e → P (I ++ [i]) (e.onJournal fun j => j.add IndexEntry.loc i))
    (es I : List IndexEntry) : Triple (P I) (addAll es) (fun _ => P (I ++ es)) E' := by
  induction es generalizing I with
  | nil => exact .pure fun _ h => by rwa [List.append_nil]
  | cons i es ih =>
      refine (Triple.bind (Triple.modify fun e => hadd I i e) fun _ => ih (I ++ [i])).imp
        (fun _ he => he) (fun _ _ he => ?_) fun _ he => he
      rwa [List.append_assoc] at he

theorem mem_delete_ids {s : Store R} {ids : List Int} {l : Int} :
    l ∈ (s.delete ids).ids ↔ l ∈ s.ids ∧ l ∉ ids := by
  simp only [Store.ids, Store.delete, List.mem_map, List.mem_filter, decide_eq_true_eq]
  constructor
  · rintro ⟨r, ⟨hr, hid⟩, rfl⟩
    exact ⟨⟨r, hr, rfl⟩, hid⟩
  · rintro ⟨⟨r, hr, rfl⟩, hid⟩
    exact ⟨r, ⟨hr, hid⟩, rfl⟩

theorem Unlisted.steady (locs : List Int) : Steady (Unlisted locs : BlockEngine E R → Prop) :=
  fun e f hrows he => ⟨he.nodup, fun l hl => by
    change l ∈ (f e.store).ids
    rw [ids_congr hrows]
    exact he.present l hl, he.unlisted⟩

/-! ### The operations keep the invariant -/

theorem keeps_flushInner : Keeps (Good saves) (flushInner sig env) := by
  refine Triple.get_bind fun e he => Triple.ite (fun _ => ?_) fun _ => ?_
  · exact Triple.pure fun _ heq => heq ▸ he
  · have hsteady (locs : List Int) : Steady fun e' : BlockEngine E R =>
        Good saves e' ∧ Unlisted locs e' ∧ e'.index = e.index :=
      Good.steady.and ((Unlisted.steady locs).and (.index _))
    refine Triple.bind (Triple.modify (Q := fun _ e' => Good saves e' ∧ e'.index = e.index) ?_)
      fun _ => ?_
    · rintro _ rfl
      exact ⟨he.disturb _, rfl⟩
    refine Triple.bind (Triple.lift (fun _ _ _ h => h) fun _ h => h.1) fun blocks => ?_
    refine Triple.bind (putBlocks_triple _ _) fun locs => ?_
    refine Triple.bind (((hsteady locs).persistIngestRawTotal _).onError fun _ h => h.1) fun _ => ?_
    refine Triple.bind ((addAll_triple _ e.index).imp
      (fun e' h => ⟨h.1, h.2.1.sublist (indexEntries_locs blocks locs), h.2.2⟩)
      (fun _ _ h => h.1) fun _ h => h) fun _ => ?_
    exact Triple.bind (Triple.modify fun e' h => h.disturb []) fun _ => Keeps.pure _

theorem keeps_prune (cutoff : Int64) : Keeps (Good saves) (prune sig env cutoff) := by
  refine Triple.get_bind fun e he => ?_
  refine Triple.bind (Triple.modify (Q := fun _ e' => Good saves e' ∧ e'.index = e.index) ?_)
    fun _ => ?_
  · rintro _ rfl
    exact ⟨he.disturb _, rfl⟩
  · refine Triple.ite (fun _ => Triple.pure fun _ h => h.1) fun _ => ?_
    -- between the two steps the rows are gone and the index still names them
    refine Triple.bind (storeCallOr_triple (Q := fun _ e' => e'.memory.Distinct IndexEntry.loc ∧
        Journal.Follows IndexEntry.loc BlockEngine.memory e'.journal saves ∧
        ∀ i ∈ e'.index, decide (i.tsMax < cutoff) = false → i.loc ∈ e'.store.ids) ?_
      fun e' h => h.1.onStore fun i hi => h.1.present i hi) fun _ => ?_
    · rintro e' ⟨hgood, hindex⟩
      refine ⟨hgood.distinct, hgood.follows, fun i hi hkeep => ?_⟩
      refine mem_delete_ids.mpr ⟨hgood.present i hi, fun hvictim => ?_⟩
      obtain ⟨i', hi', hloc⟩ := List.mem_map.mp hvictim
      obtain ⟨hmem, hold⟩ := List.mem_filter.mp hi'
      have heq := List.inj_on_of_nodup_map hgood.distinct (hindex ▸ hmem : i' ∈ e'.index) hi hloc
      rw [heq, hkeep] at hold
      exact absurd hold (by decide)
    · refine Triple.bind (Triple.modify ?_) fun _ => Keeps.pure _
      rintro e' ⟨hdistinct, hfollows, hpresent⟩
      exact good_remove hdistinct hfollows hpresent

theorem removes_eq (done : List (Rewritten R)) :
    (done.flatMap fun r => r.group.sources.map IndexEntry.loc) =
      (sourcesOf (done.map Rewritten.group)).map IndexEntry.loc := by
  rw [sourcesOf, List.flatMap_map, List.map_flatMap]

/-- The sources of the groups at hand are in the index. -/
theorem selected_sources (plan : PlanConfig) (budget : Option Nat) (index : List IndexEntry) :
    ∀ i ∈ sourcesOf (selectGroups budget [] 0 (planOptimize plan index (candidatesOf plan index))).1,
      i ∈ index := fun _ hi =>
  List.mem_of_mem_filter <| (planOptimize_subperm index _).subset <|
    (selectGroups_sources budget _).subset hi

theorem keeps_replaceBlocks (done : List (Rewritten R)) (I : List IndexEntry)
    (hsources : ∀ i ∈ sourcesOf (done.map Rewritten.group), i ∈ I) :
    Triple (fun e => Good saves e ∧ e.index = I)
      (replaceBlocks env done : EngineM E R Unit) (fun _ => Good saves) (Good saves) := by
  have hremoves : ∀ l ∈ done.flatMap (fun r => r.group.sources.map IndexEntry.loc),
      l ∈ I.map IndexEntry.loc := by
    intro l hl
    obtain ⟨r, hr, hl⟩ := List.mem_flatMap.mp hl
    obtain ⟨i, hi, rfl⟩ := List.mem_map.mp hl
    refine List.mem_map_of_mem (hsources i ?_)
    exact List.mem_flatMap.mpr ⟨r.group, List.mem_map_of_mem hr, hi⟩
  generalize hrem : done.flatMap (fun r => r.group.sources.map IndexEntry.loc) = removes at hremoves
  let kept := I.filter fun i => !removes.contains i.loc
  unfold replaceBlocks
  rw [hrem]
  refine Triple.bind (putBlocks_triple _ I) fun locs => ?_
  -- the new ids are not among those that go
  refine Triple.imp (Triple.given (P := fun e => Good saves e ∧ Unlisted locs e ∧ e.index = I)
    (c := ∀ l ∈ locs, l ∉ removes) fun hnew => ?_)
    (fun e h => ⟨h, fun l hl hgone => h.2.1.unlisted l hl (h.2.2 ▸ hremoves l hgone)⟩)
    (fun _ _ h => h) fun _ h => h
  refine Triple.bind (Triple.modify (Q := fun _ e => Good saves e ∧ Unlisted locs e ∧
    e.index = kept) ?_) fun _ => ?_
  · rintro e ⟨hgood, hnew, rfl⟩
    refine ⟨hgood.remove _, ⟨hnew.nodup, hnew.present, fun l hl hlisted => ?_⟩, rfl⟩
    exact hnew.unlisted l hl ((List.filter_sublist.map _).subset hlisted)
  refine Triple.bind ((addAll_triple _ kept).pre
    fun e h => ⟨h.1, h.2.1.sublist (indexEntries_locs _ locs), h.2.2⟩) fun _ => ?_
  refine storeCallOr_triple ?_ fun e h => h.1.onStore fun i hi => h.1.present i hi
  rintro e ⟨hgood, hindex⟩
  refine hgood.onStore fun i hi => mem_delete_ids.mpr ⟨hgood.present i hi, ?_⟩
  rw [hindex, List.mem_append] at hi
  rcases hi with hi | hi
  · simpa using (List.mem_filter.mp hi).2
  · exact hnew _ ((indexEntries_locs _ locs).subset (List.mem_map_of_mem hi))

theorem keeps_optimizeInner (budget : Option Nat) :
    Keeps (Good saves) (optimizeInner sig env budget) := by
  refine Triple.get_bind fun e he => Triple.ite (fun _ => ?_) fun _ => ?_
  · exact Triple.pure fun _ heq => heq ▸ he
  have hsteady : Steady fun e' : BlockEngine E R => Good saves e' ∧ e'.index = e.index :=
    Good.steady.and (.index _)
  refine Triple.bind ((hsteady.rewriteGroups _).imp (fun e' heq => ⟨heq ▸ he, heq ▸ rfl⟩)
    (fun _ _ h => h) fun _ h => h.1) fun done => Triple.given fun hdone => ?_
  refine Triple.bind (keeps_replaceBlocks done e.index ?_) fun _ => ?_
  · rw [hdone]
    exact selected_sources _ _ _
  · exact Triple.bind (Good.steady.persistCompressionTotals _ _ _ _) fun _ => Keeps.pure _

theorem mapExtra_ids (s : Store R) (f : Row R → R) : (s.mapExtra f).ids = s.ids := by
  simp [Store.ids, Store.mapExtra, Function.comp_def]

theorem keeps_mapExtra (f : Row R → R) :
    Keeps (Good saves) (storeCall env fun s => s.mapExtra f : EngineM E R Unit) :=
  storeCallOr_triple
    (fun _ he => he.onStore fun i hi => by rw [mapExtra_ids]; exact he.present i hi)
    fun _ he => he.onStore fun i hi => he.present i hi

theorem keeps_maybePurge : Keeps (Good saves) (maybePurge sig env) := by
  refine Keeps.get_bind fun e => ?_
  cases sig.purge with
  | none => exact .pure _
  | some keep =>
      refine .ite (.pure _) (.bind (.modify fun e he => ⟨⟨he.distinct, he.present⟩, he.follows⟩)
        fun _ => keeps_mapExtra _)

theorem Steady.backfill (hP : Steady P) (hmap : ∀ e f, P e → P (e.onStore fun s => s.mapExtra f))
    (budget : Option Nat) :
    Keeps P (backfillDurationBounds sig env budget) := by
  have hfill (b : Backfill E R) (rows : List (Row R)) : Keeps P (fillRows sig env b rows) := by
    induction rows with
    | nil => exact .pure _
    | cons r rows ih =>
        exact .bind (hP.readBlock r.id) fun _ => .bind (.lift _) fun _ => .bind (.lift _) fun _ =>
          .bind (.lift _) fun _ => .bind ih fun _ => .pure _
  unfold backfillDurationBounds
  cases sig.backfill with
  | none => exact .pure _
  | some b =>
      refine .bind (hP.storeCall (by intro s; rfl)) fun _ => .get_bind fun e => ?_
      exact .ite (.pure _) (.bind (hfill b _) fun _ => storeCallOr_triple (fun e he => hmap e _ he)
        fun e he => hP e _ rfl he)

theorem keeps_backfill (budget : Option Nat) :
    Keeps (Good saves) (backfillDurationBounds sig env budget) :=
  Good.steady.backfill
    (fun _ _ he => he.onStore fun i hi => by rw [mapExtra_ids]; exact he.present i hi) budget

theorem keeps_applyRetention : Keeps (Good saves) (applyRetention sig env) := by
  refine Keeps.get_bind fun e => .ite (.pure _) ?_
  cases tsRangeMax sig e with
  | none => exact .pure _
  | some highWater =>
      exact .ite (.pure _) (.bind (keeps_prune _) fun _ =>
        .bind (.modify fun e he => ⟨⟨he.distinct, he.present⟩, he.follows⟩) fun _ => .pure _)

theorem keeps_optimizeWithBudget (budget : Option Nat) :
    Keeps (Good saves) (optimizeWithBudget sig env budget) :=
  .bind keeps_maybePurge fun _ => .bind (keeps_optimizeInner budget) fun _ =>
    .bind (keeps_backfill _) fun _ => .bind keeps_applyRetention fun _ => .pure _

theorem keeps_optimizeBudgeted (n : Nat) : Keeps (Good saves) (optimizeBudgeted sig env n) :=
  .ite (.throw _) (keeps_optimizeWithBudget _)

theorem keeps_maybeAutoOptimize : Keeps (Good saves) (maybeAutoOptimize sig env) := by
  refine Keeps.get_bind fun e => .ite (.pure _) (.bind (.modify ?_) fun _ => .ite (.pure _)
    (.bind (.modify ?_) fun _ => .ite (.bind (keeps_optimizeBudgeted _) fun _ => .pure _) (.pure _)))
  · exact fun e he => ⟨⟨he.distinct, he.present⟩, he.follows⟩
  · exact fun e he => ⟨⟨he.distinct, he.present⟩, he.follows⟩

/-- A flush keeps the engine in step with its store, however it ends. -/
theorem keeps_flush : Keeps (Good saves) (flush sig env) :=
  .bind keeps_flushInner fun _ => .bind keeps_applyRetention fun _ =>
    .bind keeps_maybeAutoOptimize fun _ => .pure _

theorem keeps_autoFlush : Keeps (Good saves) (autoFlush sig env) :=
  Keeps.get_bind fun _ => .ite (.bind keeps_flush fun _ => .pure _) (.pure _)

theorem keeps_push (entry : E) : Keeps (Good saves) (push sig env entry) :=
  .bind (.lift _) fun _ => .bind (.modify fun _ he => he.push _) fun _ => keeps_autoFlush

theorem keeps_pushBatch (entries : List E) : Keeps (Good saves) (pushBatch sig env entries) :=
  .bind (.lift _) fun _ => .bind (.modify fun _ he => he.push _) fun _ =>
    .bind keeps_autoFlush fun _ => .pure _

/-- What the parts of flushing and maintenance keep of a good engine, and what is left when one fails. -/
structure Maintained (sig : Signal E R) (env : StoreEnv)
    (saves : Option (Journal.Saves Int (BlockEngine E R))) (P L : BlockEngine E R → Prop) : Prop where
  flushInner : Triple (fun e => Good saves e ∧ P e) (flushInner sig env) (fun _ => P) L
  maybePurge : Triple (fun e => Good saves e ∧ P e) (maybePurge sig env) (fun _ => P) L
  optimizeInner : ∀ budget,
    Triple (fun e => Good saves e ∧ P e) (optimizeInner sig env budget) (fun _ => P) L
  backfill : ∀ budget,
    Triple (fun e => Good saves e ∧ P e) (backfillDurationBounds sig env budget) (fun _ => P) L
  applyRetention : Triple (fun e => Good saves e ∧ P e) (applyRetention sig env) (fun _ => P) L
  counted : ∀ e n, P e → P { e with flushesSinceAutoOptimize := n }
  failed : ∀ e, P e → L e

namespace Maintained

variable {P L : BlockEngine E R → Prop} (h : Maintained sig env saves P L)

include h

theorem optimizeWithBudget (budget : Option Nat) :
    Triple (fun e => Good saves e ∧ P e) (optimizeWithBudget sig env budget) (fun _ => P) L := by
  refine Triple.bind (keeps_maybePurge.with h.maybePurge) fun _ => ?_
  refine Triple.bind ((keeps_optimizeInner budget).with (h.optimizeInner budget)) fun _ => ?_
  refine Triple.bind ((keeps_backfill _).with (h.backfill _)) fun _ => ?_
  exact Triple.bind h.applyRetention fun _ => Triple.pure fun _ he => he

theorem optimizeBudgeted (n : Nat) :
    Triple (fun e => Good saves e ∧ P e) (optimizeBudgeted sig env n) (fun _ => P) L :=
  Triple.ite (fun _ => Triple.throw fun _ he => h.failed _ he.2) fun _ => h.optimizeWithBudget _

theorem maybeAutoOptimize :
    Triple (fun e => Good saves e ∧ P e) (maybeAutoOptimize sig env) (fun _ => P) L := by
  have hcount (n : Nat) : Triple (fun e => Good saves e ∧ P e)
      (modify fun e => { e with flushesSinceAutoOptimize := n })
      (fun _ e => Good saves e ∧ P e) L :=
    Triple.modify fun e he =>
      ⟨⟨⟨he.1.distinct, he.1.present⟩, he.1.follows⟩, h.counted e n he.2⟩
  refine Triple.get_bind_same fun e _ => ?_
  refine Triple.ite (fun _ => Triple.pure fun _ he => he.2) fun _ => ?_
  refine Triple.bind (hcount _) fun _ => ?_
  refine Triple.ite (fun _ => Triple.pure fun _ he => he.2) fun _ => ?_
  refine Triple.bind (hcount _) fun _ => ?_
  refine Triple.ite (fun _ => ?_) fun _ => Triple.pure fun _ he => he.2
  exact Triple.bind (h.optimizeBudgeted _) fun _ => Triple.pure fun _ he => he

theorem flush : Triple (fun e => Good saves e ∧ P e) (flush sig env) (fun _ => P) L := by
  refine Triple.bind (keeps_flushInner.with h.flushInner) fun _ => ?_
  refine Triple.bind (keeps_applyRetention.with h.applyRetention) fun _ => ?_
  exact Triple.bind h.maybeAutoOptimize fun _ => Triple.pure fun _ he => he

theorem autoFlush : Triple (fun e => Good saves e ∧ P e) (autoFlush sig env) (fun _ => P) L := by
  refine Triple.get_bind_same fun e _ => ?_
  exact Triple.ite (fun _ => Triple.bind h.flush fun _ => Triple.pure fun _ he => he)
    fun _ => Triple.pure fun _ he => he.2

end Maintained

/-! ### Runs -/

/-- The invariant of a session: the engine is good, and so was every state that is saved, under names
of its own. -/
structure Sound (s : Session E R) : Prop where
  good : Good s.saves s.engine
  base : ∀ v ∈ s.saves, Indexed v.base
  opened : ∀ v ∈ s.saves, ∀ p ∈ v.opened, Indexed p.2
  nodup : ∀ v ∈ s.saves, (v.opened.map Prod.fst).Nodup

theorem create_indexed (store : Store R) (interval : Nat) :
    Indexed (BlockEngine.create sig store interval) := by
  refine ⟨?_, fun i hi => ?_⟩
  · change ((store.rows.map _).map IndexEntry.loc).Nodup
    rw [List.map_map]
    exact store.distinct
  · obtain ⟨r, hr, rfl⟩ := List.mem_map.mp hi
    exact List.mem_map_of_mem hr

theorem Sound.engine (h : Sound s) (he : Good s.saves e) :
    Sound { s with engine := e } :=
  ⟨he, h.base, h.opened, h.nodup⟩

theorem indexed_of_memory {e e' : BlockEngine E R} (h : Indexed e)
    (hmemory : e'.memory = e.memory) (hstore : e'.store = e.store) : Indexed e' := by
  refine ⟨hmemory ▸ h.distinct, fun i hi => ?_⟩
  rw [hstore]
  have hindex : e'.index = e.index := congrArg Journal.Memory.index hmemory
  exact h.present i (hindex ▸ hi)

/-- An engine that is back at a saved state, with the rows of that state. -/
theorem indexed_restored {e b : BlockEngine E R} (hb : Indexed b)
    (hsame : e.memory.Same b.memory) :
    Indexed (e.onStore fun st => st.restore b.store) :=
  ⟨hb.distinct.of_perm hsame.index.symm, fun i hi => hb.present i (hsame.index.subset hi)⟩

variable {e : BlockEngine E R} {v : Journal.Saves Int (BlockEngine E R)} {s : Session E R}

theorem txnRollback_same (h : Good (some v) e) :
    e.txnRollback.memory.Same v.base.memory :=
  Journal.Tracks.rollback h.follows

/-- What a rollback gives back: what the savepoint saved, or what there is if it is unknown. -/
theorem txnRollbackTo_same (h : Good (some v) e) (id : Int) :
    (e.txnRollbackTo id).memory.Same ((v.find id).getD e).memory := by
  have hsame := (Journal.Tracks.rollbackTo h.follows id).1
  cases hid : v.find id <;> rw [hid] at hsame <;> exact hsame

theorem txnRelease_memory (e : BlockEngine E R) (id : Int) : (e.txnRelease id).memory = e.memory :=
  Journal.State.release_toMemory IndexEntry.loc id e.journal

theorem txnSavepoint_memory (e : BlockEngine E R) (id : Int) : (e.txnSavepoint id).memory = e.memory :=
  Journal.State.savepoint_toMemory id e.journal

theorem Good.savepoint (h : Good (some v) e) (id : Int) :
    Good (some (v.savepoint id e)) (e.txnSavepoint id) :=
  ⟨indexed_of_memory h.toIndexed (txnSavepoint_memory e id) rfl,
    Journal.Tracks.savepoint h.follows h.distinct rfl id⟩

theorem Good.release (h : Good (some v) e) (id : Int) :
    Good (some (v.release id)) (e.txnRelease id) :=
  ⟨indexed_of_memory h.toIndexed (txnRelease_memory e id) rfl, Journal.Tracks.release h.follows id⟩

/-- Back at a state, with its rows. -/
theorem Good.rollbackTo {b : BlockEngine E R} (h : Good (some v) e) {id : Int} (hb : Indexed b)
    (hsame : (e.txnRollbackTo id).memory.Same b.memory) :
    Good (some (v.rollbackTo id)) ((e.txnRollbackTo id).onStore fun st => st.restore b.store) :=
  ⟨indexed_restored hb hsame, (Journal.Tracks.rollbackTo h.follows id).2⟩

theorem Sound.begin (h : Sound s) :
    Sound { s with engine := s.engine.txnBegin, saves := some (.start s.engine) } := by
  refine ⟨⟨⟨h.good.distinct, h.good.present⟩, ?_⟩, ?_, ?_, ?_⟩
  · exact Journal.Tracks.start h.good.distinct rfl
  · rintro v ⟨⟩
    exact h.good.toIndexed
  · rintro v ⟨⟩ p hp
    exact absurd hp List.not_mem_nil
  · rintro v ⟨⟩
    exact List.nodup_nil

theorem Sound.rollback (h : Sound s) (hsaves : s.saves = some v) :
    Sound { s with
      engine := s.engine.txnRollback.onStore fun st => st.restore v.base.store
      saves := none } := by
  have hgood : Good (some v) s.engine := hsaves ▸ h.good
  refine ⟨⟨indexed_restored (h.base v hsaves) (txnRollback_same hgood), rfl⟩, ?_, ?_, ?_⟩ <;>
    rintro v ⟨⟩

theorem Sound.savepoint (h : Sound s) (hsaves : s.saves = some v) {id : Int}
    (hid : id ∉ v.opened.map Prod.fst) :
    Sound { s with
      engine := s.engine.txnSavepoint id
      saves := some (v.savepoint id s.engine) } := by
  have hgood : Good (some v) s.engine := hsaves ▸ h.good
  refine ⟨hgood.savepoint id, ?_, ?_, ?_⟩
  · rintro _ ⟨⟩
    exact h.base v hsaves
  · rintro _ ⟨⟩ p hp
    rcases List.mem_cons.mp hp with rfl | hp
    · exact hgood.toIndexed
    · exact h.opened v hsaves p hp
  · rintro _ ⟨⟩
    exact List.nodup_cons.mpr ⟨hid, h.nodup v hsaves⟩

/-- Some of the savepoints are left. -/
theorem Sound.fewer (h : Sound s) (hsaves : s.saves = some v)
    {w : Journal.Saves Int (BlockEngine E R)} (hbase : w.base = v.base)
    (hopened : w.opened.Sublist v.opened) (hgood : Good (some w) e) :
    Sound { s with engine := e, saves := some w } := by
  refine ⟨hgood, ?_, ?_, ?_⟩
  · rintro _ ⟨⟩
    exact hbase ▸ h.base v hsaves
  · rintro _ ⟨⟩ p hp
    exact h.opened v hsaves p (hopened.subset hp)
  · rintro _ ⟨⟩
    exact (h.nodup v hsaves).sublist (hopened.map _)

/-- What happens to an engine beside transactions. -/
def Op.Works : Op E R → Prop
  | .begin | .commit | .rollback | .savepoint _ | .release _ | .rollbackTo _ | .reopen _ _ => False
  | _ => True

theorem Good.work {s' : Session E R} {op : Op E R} (h : Good s.saves s.engine)
    (hstep : s.step env op = some s') (hop : op.Works) :
    Good s.saves s'.engine ∧ s' = { s with engine := s'.engine } := by
  cases op with
  | push entry =>
      cases hstep
      exact ⟨(keeps_push entry).exec h, rfl⟩
  | pushBatch entries =>
      cases hstep
      exact ⟨(keeps_pushBatch entries).exec h, rfl⟩
  | flush =>
      cases hstep
      exact ⟨keeps_flush.exec h, rfl⟩
  | optimize =>
      cases hstep
      exact ⟨(keeps_optimizeWithBudget none).exec h, rfl⟩
  | optimizeBudgeted n =>
      cases hstep
      exact ⟨(keeps_optimizeBudgeted n).exec h, rfl⟩
  | prune cutoff =>
      cases hstep
      exact ⟨(keeps_prune cutoff).exec h, rfl⟩
  | setRetention native =>
      cases hstep
      exact ⟨⟨⟨h.distinct, h.present⟩, h.follows⟩, rfl⟩
  | setAutoOptimizeInterval n =>
      cases hstep
      exact ⟨⟨⟨h.distinct, h.present⟩, h.follows⟩, rfl⟩
  | begin | commit | rollback | savepoint | release | rollbackTo | reopen => exact hop.elim

/-- **One operation.** Whatever it is, the session stays sound. -/
theorem Sound.step {s' : Session E R} {op : Op E R} (h : Sound s) (hstep : s.step env op = some s') :
    Sound s' := by
  have hgood := h.good
  cases op with
  | push | pushBatch | flush | optimize | optimizeBudgeted | prune | setRetention
  | setAutoOptimizeInterval =>
      obtain ⟨hengine, hsame⟩ := hgood.work hstep trivial
      exact hsame ▸ h.engine hengine
  | begin =>
      rw [Session.step] at hstep
      split at hstep <;> cases hstep
      exact h.begin
  | commit =>
      rw [Session.step] at hstep
      split at hstep <;> cases hstep
      refine ⟨⟨⟨hgood.distinct, hgood.present⟩, rfl⟩, ?_, ?_, ?_⟩ <;> rintro _ ⟨⟩
  | rollback =>
      rw [Session.step] at hstep
      split at hstep <;> cases hstep
      next hsaves => exact h.rollback hsaves
  | savepoint id =>
      rw [Session.step] at hstep
      split at hstep
      · cases hstep
      next hsaves =>
        split_ifs at hstep with hid
        cases hstep
        exact h.savepoint hsaves hid
  | release id =>
      rw [Session.step] at hstep
      split at hstep <;> cases hstep
      next v hsaves =>
        exact h.fewer hsaves (v.release_base id) (v.release_sublist id)
          (Good.release (hsaves ▸ hgood) id)
  | rollbackTo id =>
      rw [Session.step] at hstep
      split at hstep
      · cases hstep
      next v hsaves =>
        split at hstep <;> cases hstep
        next b hfind =>
          have hgood : Good (some v) s.engine := hsaves ▸ hgood
          have hsame := txnRollbackTo_same hgood id
          rw [hfind] at hsame
          exact h.fewer hsaves (v.rollbackTo_base id) (v.rollbackTo_sublist id)
            (hgood.rollbackTo (h.opened v hsaves _ (Journal.Saves.mem_of_find hfind)) hsame)
  | reopen sig interval =>
      rw [Session.step] at hstep
      split at hstep <;> cases hstep
      refine ⟨⟨create_indexed _ _, rfl⟩, ?_, ?_, ?_⟩ <;> rintro _ ⟨⟩

variable {starts : Signal E R → Store R → Prop} {allows : Op E R → Prop}

theorem Reachable.mono {starts' : Signal E R → Store R → Prop} {allows' : Op E R → Prop}
    (h : Reachable env starts allows s)
    (hstarts : ∀ sig store, starts sig store → starts' sig store)
    (hallows : ∀ op, allows op → allows' op) : Reachable env starts' allows' s := by
  induction h with
  | start interval hstart => exact .start interval (hstarts _ _ hstart)
  | step _ hop hstep ih => exact .step ih (hallows _ hop) hstep

theorem Reachable.sound (h : Reachable env starts allows s) : Sound s := by
  induction h with
  | start interval =>
      refine ⟨⟨create_indexed _ interval, rfl⟩, ?_, ?_, ?_⟩ <;> rintro _ ⟨⟩
  | step _ _ hstep ih => exact ih.step hstep

/-- **Undo.** In a transaction, rolling back gives the memory in which it began, and rolling back
to an open savepoint gives the memory in which that was opened; of the index, as a set. -/
theorem Reachable.restores (h : Reachable env starts allows s) (hv : s.saves = some v) :
    s.engine.txnRollback.memory.Same v.base.memory ∧
      ∀ id b, (id, b) ∈ v.opened → (s.engine.txnRollbackTo id).memory.Same b.memory := by
  have hgood : Good (some v) s.engine := hv ▸ h.sound.good
  refine ⟨txnRollback_same hgood, fun id b hid => ?_⟩
  have hsame := txnRollbackTo_same hgood id
  rwa [Journal.Saves.find_of_mem (h.sound.nodup v hv) hid] at hsame

end Timeless.Engine
