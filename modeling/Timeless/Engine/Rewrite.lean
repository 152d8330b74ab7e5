import Timeless.Engine.Content
import Timeless.Engine.Flush

/-!
# Rewrite — when blocks can still be read after maintenance

Encoders do not look at the bounds of the decoder, so a flush or a merge may write a block that
cannot be read again. Over a store that never fails, what is written is a function of what is there:
a flush encodes the runs of the buffer, maintenance decodes, merges and encodes the groups that were
planned (`rewritten`), and if one of these fails nothing is written. So all blocks are readable
afterwards exactly if they were before and every block that is written is:

* `optimizeWithBudget_reads`: for maintenance, over the groups that are selected (`MergesRead`);
* `flush_reads`: for a flush, over its runs and the groups of the maintenance behind it
  (`FlushReads`).
-/

namespace Timeless.Engine

open Support Blocks Program

variable {E R : Type} (sig : Signal E R)

/-! ### What is written -/

/-- A block that can be decoded. -/
def Signal.Reads (b : Encoded R) : Prop :=
  ∃ es, sig.decode b.data = .ok es

variable (rows : List (Row R))

def AllRead : Prop :=
  ∀ r ∈ rows, sig.Reads r.toEncoded

/-- The bytes of the row with an id. -/
def rowBytes (loc : Int) : Except String (List UInt8) :=
  okOr ((rows.find? fun r => r.id = loc).map fun r => r.data)
    s!"block row {loc} read failed: Query returned no rows"

/-- The entries of the row that an index entry names. -/
def sourceEntries (source : IndexEntry) : Except String (List E) := do
  let bytes ← rowBytes rows source.loc
  sig.decode bytes

/-- The entries of a group in the order in which they are written. -/
def mergedEntries (g : OptimizeGroup) : Except String (List E) := do
  let parts ← g.sources.mapM (sourceEntries sig rows)
  return parts.flatten.insertionSort fun a b => sig.ts a ≤ sig.ts b

/-- The block that takes the place of a group. -/
def rewritten (g : OptimizeGroup) : Except String (Encoded R) := do
  let entries ← mergedEntries sig rows g
  sig.encodeGroup entries

/-- The groups that one pass of maintenance takes on. -/
def selectedGroups (index : List IndexEntry) (budget : Option Nat) : List OptimizeGroup :=
  (selectGroups budget [] 0 (planOptimize sig.plan index (candidatesOf sig.plan index))).1

/-- Every group that maintenance takes on can be written. -/
def MergesDone (index : List IndexEntry) (budget : Option Nat) : Prop :=
  ∀ g ∈ selectedGroups sig index budget, ∃ b, rewritten sig rows g = .ok b

/-- If maintenance writes anything, it writes blocks that can be read. -/
def MergesRead (index : List IndexEntry) (budget : Option Nat) : Prop :=
  (∀ g ∈ selectedGroups sig index budget, ∃ b, rewritten sig rows g = .ok b) →
    ∀ g ∈ selectedGroups sig index budget, ∀ b, rewritten sig rows g = .ok b → sig.Reads b

variable {sig} {env : StoreEnv} {rows : List (Row R)} {buffer : List E} {ret : Int64}

/-! ### Groups -/

section Groups

variable (hnf : env.NeverFails)

include hnf

theorem readBlock_exact (loc : Int) :
    Triple (Shape rows buffer ret) (readBlock env loc)
      (fun bytes e => Shape rows buffer ret e ∧ rowBytes rows loc = .ok bytes)
      (fun e => Shape rows buffer ret e ∧ ∃ err, rowBytes rows loc = .error err) := by
  refine Triple.bind (Q := fun _ => Shape rows buffer ret) ?_ fun _ =>
    Triple.get_bind fun e he => ?_
  · exact (storeCallOr_returns hnf (Shape.steady rows buffer ret · _ rfl)).onError fun _ h => h.elim
  · rw [Store.find, he.rows_eq]
    exact (Triple.lift_result _).pre (fun _ heq => heq ▸ he)

theorem readSources_exact (sources : List IndexEntry) :
    Triple (Shape rows buffer ret) (readSources sig env sources)
      (fun out e => Shape rows buffer ret e ∧
        ∃ parts, sources.mapM (sourceEntries sig rows) = .ok parts ∧ out.1 = parts.flatten)
      (fun e => Shape rows buffer ret e ∧
        ∃ err, sources.mapM (sourceEntries sig rows) = .error err) := by
  induction sources with
  | nil => exact Triple.pure fun e he => ⟨he, [], rfl, rfl⟩
  | cons source sources ih =>
      rw [List.mapM_cons]
      refine Triple.bind ((readBlock_exact hnf source.loc).onError
        fun e ⟨he, herr⟩ => ⟨he, bind_error _ (bind_error _ herr)⟩) fun bytes =>
          Triple.given fun hbytes => ?_
      have hsource : sourceEntries sig rows source = sig.decode bytes := by
        rw [sourceEntries, hbytes, ok_bind]
      rw [hsource]
      refine Triple.bind ((Triple.lift_result _).onError
        fun e ⟨he, herr⟩ => ⟨he, bind_error _ herr⟩) fun entries => Triple.given fun hentries => ?_
      rw [hentries, ok_bind]
      refine Triple.bind (ih.onError fun e ⟨he, herr⟩ => ⟨he, bind_error _ herr⟩) fun more =>
        Triple.given ?_
      rintro ⟨parts, hparts, hmore⟩
      refine Triple.pure fun e he => ⟨he, entries :: parts, by rw [hparts]; rfl, ?_⟩
      rw [List.flatten_cons, ← hmore]

theorem rewriteGroup_exact (g : OptimizeGroup) :
    Triple (Shape rows buffer ret) (rewriteGroup sig env g)
      (fun r e => Shape rows buffer ret e ∧ r.group = g ∧ rewritten sig rows g = .ok r.block)
      (fun e => Shape rows buffer ret e ∧ ∃ err, rewritten sig rows g = .error err) := by
  refine Triple.bind ((readSources_exact hnf g.sources).onError
    fun e ⟨he, herr⟩ => ⟨he, bind_error _ (bind_error _ herr)⟩) fun out => Triple.given ?_
  rintro ⟨parts, hparts, hout⟩
  have hgroup : rewritten sig rows g =
      sig.encodeGroup (out.1.insertionSort fun a b => sig.ts a ≤ sig.ts b) := by
    rw [rewritten, mergedEntries, hparts, hout]
    rfl
  rw [hgroup]
  exact Triple.bind (Triple.lift_result _) fun block => Triple.given fun hblock =>
    Triple.pure fun e he => ⟨he, rfl, hblock⟩

theorem rewriteGroups_exact (groups : List OptimizeGroup) :
    Triple (Shape rows buffer ret) (rewriteGroups sig env groups)
      (fun done e => Shape rows buffer ret e ∧ done.map Rewritten.group = groups ∧
        List.Forall₂ (fun g b => rewritten sig rows g = .ok b) groups (done.map Rewritten.block))
      (fun e => Shape rows buffer ret e ∧ ∃ g ∈ groups, ∃ err, rewritten sig rows g = .error err) := by
  induction groups with
  | nil => exact Triple.pure fun e he => ⟨he, rfl, .nil⟩
  | cons g groups ih =>
      refine Triple.bind ((rewriteGroup_exact hnf g).onError
        fun e ⟨he, herr⟩ => ⟨he, g, List.mem_cons_self, herr⟩) fun r => Triple.given ?_
      rintro ⟨rfl, hr⟩
      refine Triple.bind (ih.onError
        fun e ⟨he, g', hg', herr⟩ => ⟨he, g', List.mem_cons_of_mem _ hg', herr⟩) fun done =>
          Triple.given ?_
      rintro ⟨rfl, hdone⟩
      exact Triple.pure fun e he => ⟨he, rfl, .cons hr hdone⟩

end Groups

/-! ### Rows -/

/-- A source of a group that was rewritten is a row that could be read. -/
theorem source_read {g : OptimizeGroup} {b : Encoded R} (h : rewritten sig rows g = .ok b)
    {source : IndexEntry} (hsource : source ∈ g.sources) :
    ∃ r ∈ rows, r.id = source.loc ∧ sig.Reads r.toEncoded := by
  obtain ⟨entries, hentries, -⟩ := of_bind h
  obtain ⟨parts, hparts, -⟩ := of_bind hentries
  obtain ⟨part, -, hpart⟩ := exists_of_forall₂_left (mapM_eq_ok.mp hparts) hsource
  obtain ⟨bytes, hbytes, hdecode⟩ := of_bind hpart
  cases hfind : rows.find? fun r => r.id = source.loc with
  | none =>
      rw [rowBytes, hfind] at hbytes
      cases hbytes
  | some r =>
      rw [rowBytes, hfind] at hbytes
      obtain rfl := Except.ok.inj hbytes
      exact ⟨r, List.mem_of_find?_eq_some hfind, by simpa using List.find?_some hfind, part, hdecode⟩

variable {blocks : List (Encoded R)}

/-- Once groups have been replaced all rows can be read, if they could be before and the new ones
can be. -/
theorem allRead_replaced (hdistinct : (rows.map Row.id).Nodup) {groups : List OptimizeGroup}
    {new : List (Row R)} (hnew : new.map Row.toEncoded = blocks)
    (hfresh : ∀ r ∈ new, r.id ∉ rows.map Row.id)
    (hgroups : List.Forall₂ (fun g b => rewritten sig rows g = .ok b) groups blocks) :
    AllRead sig ((rows ++ new).filter fun r => r.id ∉ (sourcesOf groups).map IndexEntry.loc) ↔
      AllRead sig rows ∧ ∀ b ∈ blocks, sig.Reads b := by
  have hsources : ∀ source ∈ sourcesOf groups,
      ∃ r ∈ rows, r.id = source.loc ∧ sig.Reads r.toEncoded := by
    intro source hsource
    obtain ⟨g, hg, hsource⟩ := List.mem_flatMap.mp hsource
    obtain ⟨b, -, hb⟩ := exists_of_forall₂_left hgroups hg
    exact source_read hb hsource
  have hkept : ∀ r, r ∈ (rows ++ new).filter (fun r => r.id ∉ (sourcesOf groups).map IndexEntry.loc) ↔
      (r ∈ rows ∨ r ∈ new) ∧ r.id ∉ (sourcesOf groups).map IndexEntry.loc := by
    intro r
    rw [List.mem_filter, List.mem_append, decide_eq_true_iff]
  constructor
  · intro h
    refine ⟨fun r hr => ?_, fun b hb => ?_⟩
    · by_cases hgone : r.id ∈ (sourcesOf groups).map IndexEntry.loc
      · obtain ⟨source, hsource, hid⟩ := List.mem_map.mp hgone
        obtain ⟨r', hr', hid', hread⟩ := hsources source hsource
        obtain rfl := List.inj_on_of_nodup_map hdistinct hr' hr (hid'.trans hid)
        exact hread
      · exact h r ((hkept r).mpr ⟨.inl hr, hgone⟩)
    · obtain ⟨r, hr, rfl⟩ := List.mem_map.mp (hnew ▸ hb)
      refine h r ((hkept r).mpr ⟨.inr hr, fun hgone => hfresh r hr ?_⟩)
      obtain ⟨source, hsource, hid⟩ := List.mem_map.mp hgone
      obtain ⟨r', hr', hid', -⟩ := hsources source hsource
      exact List.mem_map.mpr ⟨r', hr', hid'.trans hid⟩
  · rintro ⟨hrows, hblocks⟩ r hr
    rcases ((hkept r).mp hr).1 with hr | hr
    · exact hrows r hr
    · exact hblocks _ (hnew ▸ List.mem_map_of_mem hr)

theorem newRows_encoded (s : Store R) (env : StoreEnv) (blocks : List (Encoded R)) :
    (s.newRows env blocks).map Row.toEncoded = blocks := by
  have hlen := env.length_newIds s.calls s.ids blocks.length
  rw [Store.newRows, List.map_zipWith]
  generalize env.newIds s.calls s.ids blocks.length = ids at hlen
  induction blocks generalizing ids with
  | nil => rfl
  | cons b blocks ih =>
      obtain _ | ⟨id, ids⟩ := ids
      · simp at hlen
      · rw [List.zipWith_cons_cons, ih ids (by simpa using hlen)]

theorem newRows_fresh (s : Store R) (env : StoreEnv) (blocks : List (Encoded R)) :
    ∀ r ∈ s.newRows env blocks, r.id ∉ s.rows.map Row.id := by
  intro r hr
  refine env.fresh_newIds s.calls s.ids blocks.length r.id ?_
  rw [← s.newRows_ids]
  exact List.mem_map_of_mem hr

theorem mergesRead_iff {index : List IndexEntry} {budget : Option Nat}
    (h : List.Forall₂ (fun g b => rewritten sig rows g = .ok b) (selectedGroups sig index budget)
      blocks) : (∀ b ∈ blocks, sig.Reads b) ↔ MergesRead sig rows index budget := by
  constructor
  · intro hblocks _ g hg b hb
    obtain ⟨b', hb', heq⟩ := exists_of_forall₂_left h hg
    obtain rfl := Except.ok.inj (heq.symm.trans hb)
    exact hblocks _ hb'
  · intro hmerges b hb
    obtain ⟨g, hg, hgb⟩ := exists_of_forall₂_right h hb
    refine hmerges (fun g' hg' => ?_) g hg b hgb
    obtain ⟨b', -, hb'⟩ := exists_of_forall₂_left h hg'
    exact ⟨b', hb'⟩

/-! ### Maintenance -/

/-- All rows can be read exactly if something holds, and the retention is as given. -/
structure Leaves (sig : Signal E R) (X : Prop) (ret : Int64) (e : BlockEngine E R) : Prop where
  reads : AllRead sig e.store.rows ↔ X
  ret_eq : e.retentionNative = ret

theorem Leaves.steady (sig : Signal E R) (X : Prop) (ret : Int64) : Steady (Leaves sig X ret) := by
  intro e f hrows he
  refine ⟨?_, he.2⟩
  change AllRead sig (f e.store).rows ↔ X
  rw [hrows]
  exact he.1

section Maintenance

variable (hnf : env.NeverFails) {X : Prop}

include hnf

theorem replaceBlocks_exact {done : List (Rewritten R)} :
    Triple (Shape rows buffer ret) (replaceBlocks env done)
      (fun _ e => ∃ new : List (Row R), (new.map Row.toEncoded = done.map Rewritten.block ∧
        ∀ r ∈ new, r.id ∉ rows.map Row.id) ∧
        Shape ((rows ++ new).filter fun r =>
          r.id ∉ (sourcesOf (done.map Rewritten.group)).map IndexEntry.loc) buffer ret e)
      fun _ => False := by
  unfold replaceBlocks
  rw [removes_eq]
  refine Triple.bind (Q := fun _ e => ∃ new : List (Row R), Shape (rows ++ new) buffer ret e ∧
    new.map Row.toEncoded = done.map Rewritten.block ∧ ∀ r ∈ new, r.id ∉ rows.map Row.id) ?_
    fun locs => Triple.exists fun new => Triple.given fun hnew => ?_
  · refine Triple.get_bind fun e he => ?_
    rw [hnf]
    refine Triple.bind (Triple.modify (Q := fun _ e' => Shape (e.store.rows ++
      e.store.newRows env (done.map Rewritten.block)) buffer ret e') ?_) fun _ => Triple.pure ?_
    · rintro e' rfl
      refine ⟨?_, he.2, he.3⟩
      change e'.store.rows ++ (e'.store.newRows env _).take _ = _
      rw [List.take_of_length_le]
      simp [Store.newRows, env.length_newIds]
    · intro e' he'
      refine ⟨_, he.rows_eq ▸ he', newRows_encoded _ _ _, ?_⟩
      rw [← he.rows_eq]
      exact newRows_fresh _ _ _
  · refine Triple.bind (Triple.modify (Q := fun _ => Shape (rows ++ new) buffer ret)
      fun e h => ⟨h.1, h.2, h.3⟩) fun _ => Triple.bind (addAll_shape _) fun _ => ?_
    refine storeCallOr_returns hnf fun e he => ⟨new, hnew, ?_, he.2, he.3⟩
    change e.store.rows.filter _ = _
    rw [he.rows_eq]

theorem optimizeInner_reads (e : BlockEngine E R) (budget : Option Nat) :
    Triple (· = e) (optimizeInner sig env budget)
      (fun _ => Leaves sig (AllRead sig e.store.rows ∧ MergesRead sig e.store.rows e.index budget)
        e.retentionNative)
      (Leaves sig (AllRead sig e.store.rows ∧ MergesRead sig e.store.rows e.index budget)
        e.retentionNative) := by
  refine Triple.get_bind fun e' he' => ?_
  subst he'
  refine Triple.ite (fun hnone => Triple.pure ?_) fun _ => ?_
  · rintro _ rfl
    refine ⟨(and_iff_left fun _ g hg => ?_).symm, rfl⟩
    rw [selectedGroups, List.isEmpty_iff.mp hnone] at hg
    cases hg
  have hrewrite : Triple (Shape e'.store.rows e'.buffer e'.retentionNative) _ _ _ :=
    @rewriteGroups_exact _ _ sig _ _ _ _ hnf (selectedGroups sig e'.index budget)
  refine Triple.bind (hrewrite.imp ?_ (fun _ _ h => h) ?_) fun done => Triple.given ?_
  · rintro _ rfl
    exact ⟨rfl, rfl, rfl⟩
  · rintro e'' ⟨hshape, g, hg, err, herr⟩
    refine ⟨?_, hshape.ret_eq⟩
    rw [hshape.rows_eq]
    refine (and_iff_left fun hall => ?_).symm
    obtain ⟨b, hb⟩ := hall g hg
    rw [hb] at herr
    cases herr
  rintro ⟨hdone, hblocks⟩
  refine Triple.bind (Q := fun _ => Leaves sig (AllRead sig e'.store.rows ∧
    MergesRead sig e'.store.rows e'.index budget) e'.retentionNative) ?_ fun _ => ?_
  · refine (replaceBlocks_exact hnf).imp (fun _ h => h) ?_ fun _ h => h.elim
    rintro _ e'' ⟨new, ⟨hnew, hfresh⟩, hshape⟩
    refine ⟨?_, hshape.ret_eq⟩
    rw [hshape.rows_eq, hdone, allRead_replaced e'.store.distinct hnew hfresh hblocks]
    exact and_congr_right fun _ => mergesRead_iff hblocks
  · exact Triple.bind ((Leaves.steady _ _ _).persistCompressionTotals _ _ _ _) fun _ =>
      Triple.pure fun _ h => h

omit hnf in
theorem Leaves.applyRetention (X : Prop) :
    Keeps (Leaves sig X 0) (Engine.applyRetention sig env) := by
  refine Triple.get_bind fun e he => ?_
  rw [if_pos he.ret_eq]
  exact Triple.pure fun _ heq => heq ▸ he

omit hnf in
/-- Filling in index data leaves the bytes of the blocks alone. -/
theorem Leaves.backfill (X : Prop) (budget : Option Nat) :
    Keeps (Leaves sig X ret) (backfillDurationBounds sig env budget) := by
  refine (Leaves.steady sig X ret).backfill (fun e f he => ⟨?_, he.2⟩) budget
  rw [← he.1]
  change AllRead sig (e.store.rows.map _) ↔ _
  exact List.forall_mem_map

/-- **Maintenance.** All blocks can be read afterwards exactly if they could be before and so can
those that are written. -/
theorem optimizeWithBudget_reads (hpurge : sig.purge = none) {e : BlockEngine E R}
    (hret : e.retentionNative = 0) (budget : Option Nat) :
    Triple (· = e) (optimizeWithBudget sig env budget)
      (fun _ e' => AllRead sig e'.store.rows ↔
        AllRead sig e.store.rows ∧ MergesRead sig e.store.rows e.index budget)
      (fun e' => AllRead sig e'.store.rows ↔
        AllRead sig e.store.rows ∧ MergesRead sig e.store.rows e.index budget) := by
  have hinner := @optimizeInner_reads _ _ sig _ hnf e budget
  rw [hret] at hinner
  have hsame : Triple (· = e) (maybePurge sig env) (fun _ => (· = e)) (Leaves sig
      (AllRead sig e.store.rows ∧ MergesRead sig e.store.rows e.index budget) 0) := by
    refine Triple.get_bind fun e' he' => ?_
    rw [hpurge]
    exact Triple.pure fun _ heq => heq.trans he'
  have hall : Triple (· = e) (optimizeWithBudget sig env budget) (fun _ => Leaves sig
      (AllRead sig e.store.rows ∧ MergesRead sig e.store.rows e.index budget) 0) (Leaves sig
      (AllRead sig e.store.rows ∧ MergesRead sig e.store.rows e.index budget) 0) :=
    Triple.bind hsame fun _ => Triple.bind hinner fun out => Triple.bind (Leaves.backfill _ _)
      fun _ => Triple.bind (Leaves.applyRetention _) fun _ => Triple.pure fun _ h => h
  exact hall.imp (fun _ h => h) (fun _ _ h => h.reads) fun _ h => h.reads

end Maintenance

/-! ### Flush -/

/-- Maintenance is run behind a flush that leaves an index. -/
def AutoOptimizes (sig : Signal E R) (e : BlockEngine E R) (index : List IndexEntry) : Prop :=
  e.autoOptimizeInterval ≠ 0 ∧ ¬(e.flushesSinceAutoOptimize + 1 < e.autoOptimizeInterval ∧
    rawEntries sig index < sig.autoOptimizeBudget) ∧ hasBacklog sig index = true ∧
    sig.autoOptimizeBudget ≠ 0

/-- The rows after the buffer got out as some blocks. -/
def flushedRows (env : StoreEnv) (blocks : List (Encoded R × Option UInt8)) (e : BlockEngine E R) :
    List (Row R) :=
  e.store.rows ++ e.store.newRows env (blocks.map Prod.fst)

/-- The index after the buffer got out as some blocks. -/
def flushedIndex (env : StoreEnv) (blocks : List (Encoded R × Option UInt8))
    (e : BlockEngine E R) : List IndexEntry :=
  e.index ++ indexEntries blocks (env.newIds e.store.calls e.store.ids blocks.length)

/-- If a flush writes anything, it writes blocks that can be read, and so does the maintenance behind
it. -/
def FlushReads (sig : Signal E R) (env : StoreEnv) (e : BlockEngine E R) : Prop :=
  ∀ blocks, encodeRuns sig (e.buffer.insertionSort (FlushLe sig)) = .ok blocks →
    (∀ b ∈ blocks, sig.Reads b.1) ∧ (AutoOptimizes sig e (flushedIndex env blocks e) →
      MergesRead sig (flushedRows env blocks e) (flushedIndex env blocks e)
        (some sig.autoOptimizeBudget))

section Flush

variable (hnf : env.NeverFails)

include hnf

theorem maybeAutoOptimize_reads (hpurge : sig.purge = none) {e : BlockEngine E R}
    (hret : e.retentionNative = 0) :
    Triple (· = e) (maybeAutoOptimize sig env)
      (fun _ e' => AllRead sig e'.store.rows ↔ AllRead sig e.store.rows ∧
        (AutoOptimizes sig e e.index →
          MergesRead sig e.store.rows e.index (some sig.autoOptimizeBudget)))
      (fun e' => AllRead sig e'.store.rows ↔ AllRead sig e.store.rows ∧
        (AutoOptimizes sig e e.index →
          MergesRead sig e.store.rows e.index (some sig.autoOptimizeBudget))) := by
  -- without maintenance only the counter of flushes is changed
  have hquiet (hno : ¬AutoOptimizes sig e e.index) (n : Nat) :
      ∀ e', e' = { e with flushesSinceAutoOptimize := n } → (AllRead sig e'.store.rows ↔
        AllRead sig e.store.rows ∧ (AutoOptimizes sig e e.index →
          MergesRead sig e.store.rows e.index (some sig.autoOptimizeBudget))) := by
    rintro _ rfl
    exact (and_iff_left fun h => absurd h hno).symm
  refine Triple.get_bind fun e' he' => ?_
  subst he'
  refine Triple.ite (fun hoff => Triple.pure (hquiet (fun h => h.1 hoff) _)) fun hon => ?_
  refine Triple.bind (Triple.modify (Q := fun _ => (· = { e' with
    flushesSinceAutoOptimize := e'.flushesSinceAutoOptimize + 1 })) fun _ h => by rw [h]) fun _ => ?_
  refine Triple.ite (fun hwait => Triple.pure (hquiet (fun h => h.2.1 hwait) _)) fun hgo => ?_
  refine Triple.bind (Triple.modify (Q := fun _ => (· = { e' with
    flushesSinceAutoOptimize := 0 })) fun _ h => by rw [h]) fun _ => ?_
  refine Triple.ite (fun hbacklog => ?_) fun hnone =>
    Triple.pure (hquiet (fun h => hnone h.2.2.1) _)
  unfold optimizeBudgeted
  by_cases hbudget : sig.autoOptimizeBudget = 0
  · rw [if_pos hbudget]
    exact Triple.bind (Q := fun _ _ => False)
      (Triple.throw (hquiet (fun h => h.2.2.2 hbudget) _)) fun _ _ h => h.elim
  · rw [if_neg hbudget]
    have hdue : AutoOptimizes sig e' e'.index := ⟨hon, hgo, hbacklog, hbudget⟩
    have hiff {p : Prop} : p ↔ (AutoOptimizes sig e' e'.index → p) :=
      ⟨fun h _ => h, fun h => h hdue⟩
    have hreads := @optimizeWithBudget_reads _ _ sig env hnf hpurge
      { e' with flushesSinceAutoOptimize := 0 } hret (some sig.autoOptimizeBudget)
    exact Triple.bind (hreads.imp (fun _ h => h) (fun _ _ h => h.trans (and_congr_right' hiff))
      fun _ h => h.trans (and_congr_right' hiff)) fun _ => Triple.pure fun _ h => h

omit hnf in
theorem allRead_flushedRows {blocks : List (Encoded R × Option UInt8)} (e : BlockEngine E R) :
    AllRead sig (flushedRows env blocks e) ↔
      AllRead sig e.store.rows ∧ ∀ b ∈ blocks, sig.Reads b.1 := by
  have hnew : AllRead sig (e.store.newRows env (blocks.map Prod.fst)) ↔
      ∀ b ∈ blocks.map Prod.fst, sig.Reads b := by
    conv_rhs => rw [← newRows_encoded e.store env (blocks.map Prod.fst), List.forall_mem_map]
    rfl
  rw [List.forall_mem_map] at hnew
  rw [← hnew, flushedRows, AllRead, List.forall_mem_append]
  rfl

/-- **Flush.** All blocks can be read afterwards exactly if they could be before and so can those
that are written, by the flush and by the maintenance behind it. -/
theorem flush_reads (hpurge : sig.purge = none) {e : BlockEngine E R}
    (hret : e.retentionNative = 0) :
    Triple (· = e) (flush sig env)
      (fun _ e' => AllRead sig e'.store.rows ↔ AllRead sig e.store.rows ∧ FlushReads sig env e)
      (fun e' => AllRead sig e'.store.rows ↔ AllRead sig e.store.rows ∧ FlushReads sig env e) := by
  by_cases hruns : ∃ blocks, encodeRuns sig (e.buffer.insertionSort (FlushLe sig)) = .ok blocks
  · obtain ⟨blocks, hblocks⟩ := hruns
    have hiff : AllRead sig e.store.rows ∧ FlushReads sig env e ↔
        AllRead sig (flushedRows env blocks e) ∧ (AutoOptimizes sig e (flushedIndex env blocks e) →
          MergesRead sig (flushedRows env blocks e) (flushedIndex env blocks e)
            (some sig.autoOptimizeBudget)) := by
      rw [allRead_flushedRows, and_assoc]
      refine and_congr_right' ⟨fun h => h blocks hblocks, fun h blocks' hblocks' => ?_⟩
      obtain rfl := Except.ok.inj (hblocks.symm.trans hblocks')
      exact h
    simp only [hiff]
    refine Triple.bind ((flushInner_returns hnf hblocks).onError fun _ h => h.elim) fun _ => ?_
    refine Triple.bind (Q := fun _ => Flushed env blocks e) ?_ fun _ => ?_
    · refine Triple.get_bind fun e₁ he₁ => ?_
      rw [if_pos (he₁.retention_eq.trans hret)]
      exact Triple.pure fun _ heq => heq ▸ he₁
    · refine Triple.bind (fun e₁ he₁ => ?_) fun _ => Triple.pure fun _ h => h
      have hauto := maybeAutoOptimize_reads hnf hpurge (he₁.retention_eq.trans hret) e₁ rfl
      rw [AutoOptimizes, he₁.interval_eq, he₁.flushes_eq, he₁.rows_eq, he₁.index_eq] at hauto
      exact hauto
  · have hne : e.buffer ≠ [] := by
      intro hnil
      rw [hnil] at hruns
      exact hruns ⟨[], rfl⟩
    refine Triple.bind ((flushInner_stuck hne hruns).onError ?_)
      fun _ _ h => h.elim
    rintro e' ⟨-, hstore, -⟩
    rw [hstore]
    exact (and_iff_left fun blocks hblocks => absurd ⟨blocks, hblocks⟩ hruns).symm

end Flush

end Timeless.Engine
