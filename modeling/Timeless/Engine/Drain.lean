import Mathlib.Data.Prod.Lex
import Timeless.Blocks.RoundTrip
import Timeless.Engine.Listing
import Timeless.Engine.Rewrite
import Timeless.Engine.Undo
import Timeless.Spans.Query
import Timeless.Spans.RoundTrip

/-!
# Drain — maintenance comes to an end

What one call of maintenance writes may be a candidate of the next, and a budget cuts plans short,
so it is not plain that repeated calls come to an end. A group of raw blocks leaves a block that is
not raw, and a merge leaves one block in the place of several; so the pair of the raw blocks and of
all blocks goes down in lexicographic order (`replaced_fewer`), and retention only takes blocks
away.

* `optimizeBudgeted_progress`: a call with a plan applies a group and lowers the pair, if the groups
  that it takes on can be read and written;
* `optimize_drains`: if all calls can do that, the plan is empty after finitely many, for logs and
  for spans with any configuration and any positive budget.
-/

namespace Timeless.Engine

open Support Codec Blocks Spans Program

variable {E R : Type} (sig : Signal E R)

/-- Groups are never written as raw blocks. -/
def Signal.Compresses : Prop :=
  ∀ es b, sig.encodeGroup es = .ok b → sig.plan.isRaw b.blockMeta.codec = false

def rawBlocks (index : List IndexEntry) : Nat :=
  index.countP fun i => sig.plan.isRaw i.blockMeta.codec

/-- The raw blocks and all blocks, in lexicographic order. -/
def backlog (index : List IndexEntry) : ℕ ×ₗ ℕ :=
  toLex (rawBlocks sig index, index.length)

/-- Fewer raw blocks, or no more of them and fewer blocks. -/
def Fewer (index' index : List IndexEntry) : Prop :=
  rawBlocks sig index' < rawBlocks sig index ∨
    rawBlocks sig index' ≤ rawBlocks sig index ∧ index'.length < index.length

/-- The groups that the planner finds. -/
def planned (index : List IndexEntry) : List OptimizeGroup :=
  planOptimize sig.plan index (candidatesOf sig.plan index)

/-- A group was applied, and the backlog went down. -/
structure Progresses (e e' : BlockEngine E R) : Prop where
  applied : ∃ g ∈ planned sig e.index, (∃ b, rewritten sig e.store.rows g = .ok b) ∧
    ∀ i ∈ g.sources, i.loc ∉ e'.index.map IndexEntry.loc
  decreases : backlog sig e'.index < backlog sig e.index

/-- The engine after some calls of maintenance with a budget, whether they succeed or not. -/
def repeated (env : StoreEnv) (budget : Nat) (e : BlockEngine E R) : Nat → BlockEngine E R
  | 0 => e
  | n + 1 => ((optimizeBudgeted sig env budget).exec (repeated env budget e n)).2

/-- As long as the groups that are taken on can be read and written, calls make progress and come to
an end. -/
def Drains (env : StoreEnv) (budget : Nat) (e : BlockEngine E R) : Prop :=
  (∀ n, MergesDone sig (repeated sig env budget e n).store.rows
    (repeated sig env budget e n).index (some budget)) →
  (∀ n, planned sig (repeated sig env budget e n).index ≠ [] →
    Progresses sig (repeated sig env budget e n) (repeated sig env budget e (n + 1))) ∧
  ∃ n, planned sig (repeated sig env budget e n).index = []

variable {sig} {env : StoreEnv} {index index' new : List IndexEntry} {groups : List OptimizeGroup}

/-! ### The measure -/

theorem Fewer.sublist (h : Fewer sig index' index) {index'' : List IndexEntry}
    (hsub : index''.Sublist index') : Fewer sig index'' index := by
  have hraw : rawBlocks sig index'' ≤ rawBlocks sig index' := hsub.countP_le
  have hlen := hsub.length_le
  rcases h with h | ⟨h, h'⟩
  · exact .inl (by omega)
  · exact .inr ⟨by omega, by omega⟩

theorem Fewer.backlog_lt (h : Fewer sig index' index) : backlog sig index' < backlog sig index := by
  rw [backlog, backlog, Prod.Lex.toLex_lt_toLex]
  rcases h with h | ⟨h, h'⟩
  · exact .inl h
  · rcases Nat.lt_or_eq_of_le h with h | h
    · exact .inl h
    · exact .inr ⟨h, h'⟩

/-- An index is some of its entries and the others. -/
theorem perm_sources {sources : List IndexEntry} (hsub : sources.Subperm index)
    (hdistinct : (index.map IndexEntry.loc).Nodup) :
    index.Perm (sources ++ index.filter fun i => i.loc ∉ sources.map IndexEntry.loc) := by
  obtain ⟨sources', hperm, hsub⟩ := hsub
  obtain ⟨rest, hrest⟩ := hsub.exists_perm_append
  have hall : index.Perm (sources ++ rest) := hrest.trans (hperm.append_right rest)
  have hnodup : ((sources ++ rest).map IndexEntry.loc).Nodup :=
    (hall.map IndexEntry.loc).nodup_iff.mp hdistinct
  rw [List.map_append, List.nodup_append'] at hnodup
  have hkept : (sources ++ rest).filter (fun i => i.loc ∉ sources.map IndexEntry.loc) = rest := by
    rw [List.filter_append, List.filter_eq_nil_iff.mpr, List.nil_append, List.filter_eq_self]
    · intro i hi
      simpa using fun j hj hloc => hnodup.2.2 (List.mem_map_of_mem hj)
        (hloc ▸ List.mem_map_of_mem hi)
    · intro i hi
      simpa using ⟨i, hi, rfl⟩
  refine hall.trans (List.Perm.append_left _ ?_)
  conv_lhs => rw [← hkept]
  exact (hall.filter _).symm

/-- A group with a raw block, or with several blocks. -/
def Shrinks (sig : Signal E R) (g : OptimizeGroup) : Prop :=
  (∃ i ∈ g.sources, sig.plan.isRaw i.blockMeta.codec = true) ∨ 2 ≤ g.sources.length

theorem length_sourcesOf (h : ∀ g ∈ groups, 2 ≤ g.sources.length) :
    2 * groups.length ≤ (sourcesOf groups).length := by
  induction groups with
  | nil => exact Nat.zero_le _
  | cons g groups ih =>
      have hfirst := h g List.mem_cons_self
      have hrest := ih fun g' hg' => h g' (List.mem_cons_of_mem _ hg')
      rw [sourcesOf, List.flatMap_cons, List.length_append, List.length_cons]
      rw [sourcesOf] at hrest
      omega

/-- Blocks that are not raw in the place of groups. -/
theorem replaced_fewer (hdistinct : (index.map IndexEntry.loc).Nodup)
    (hsources : (sourcesOf groups).Subperm index) (hne : groups ≠ [])
    (hgroups : ∀ g ∈ groups, Shrinks sig g) (hlen : new.length = groups.length)
    (hnew : ∀ i ∈ new, sig.plan.isRaw i.blockMeta.codec = false) :
    Fewer sig (index.filter (fun i => i.loc ∉ (sourcesOf groups).map IndexEntry.loc) ++ new)
      index := by
  have hperm := perm_sources hsources hdistinct
  have hraw : rawBlocks sig index = _ := hperm.countP_eq _
  have hall := hperm.length_eq
  have hzero : new.countP (fun i => sig.plan.isRaw i.blockMeta.codec) = 0 :=
    List.countP_eq_zero.mpr fun i hi => by simp [hnew i hi]
  rw [List.countP_append] at hraw
  rw [List.length_append] at hall
  have hraw' (kept : List IndexEntry) : rawBlocks sig (kept ++ new) =
      kept.countP fun i => sig.plan.isRaw i.blockMeta.codec := by
    rw [rawBlocks, List.countP_append, hzero, Nat.add_zero]
  rw [Fewer, hraw', hraw, List.length_append, hlen, hall]
  by_cases hany : ∃ i ∈ sourcesOf groups, sig.plan.isRaw i.blockMeta.codec = true
  · have hpos := List.countP_pos_iff.mpr hany
    exact .inl (by omega)
  · have hlong := length_sourcesOf fun g hg => (hgroups g hg).resolve_left
      fun ⟨i, hi, hrawi⟩ => hany ⟨i, List.mem_flatMap.mpr ⟨g, hg, hi⟩, hrawi⟩
    have hpos := List.length_pos_of_ne_nil hne
    exact .inr ⟨by omega, by omega⟩

/-! ### The groups that are taken on -/

variable {budget : Option Nat}

theorem selectedGroups_shrinks {g : OptimizeGroup} (h : g ∈ selectedGroups sig index budget) :
    Shrinks sig g := by
  obtain ⟨newest, bucket, hg⟩ := mem_selectGroups h
  rcases List.mem_append.mp hg with hg | hg
  · obtain ⟨i, hi⟩ := List.exists_mem_of_ne_nil _ (planRawFrom_group hg).2
    have hmem := (planRawGroups_sources _ _).subset (List.mem_flatMap.mpr ⟨g, hg, hi⟩)
    exact .inl ⟨i, hi, (List.mem_filter.mp hmem).2⟩
  · exact .inr (planCompressedFrom_group hg).2

/-- The first group always fits. -/
theorem selectedGroups_ne_nil (h : planned sig index ≠ []) :
    selectedGroups sig index budget ≠ [] := by
  obtain ⟨g, gs, hplan⟩ := List.exists_cons_of_ne_nil h
  obtain ⟨k, hk⟩ := @selectGroups_eq budget [g] gs (usizeAdd 0 g.entries)
  rw [selectedGroups, ← planned, hplan, selectGroups, if_neg (by simp)]
  rw [List.nil_append, hk]
  simp

theorem selectedGroups_planned {g : OptimizeGroup} (h : g ∈ selectedGroups sig index budget) :
    g ∈ planned sig index := by
  obtain ⟨k, hk⟩ := @selectGroups_eq budget [] (planned sig index) 0
  rw [selectedGroups, ← planned, hk, List.nil_append] at h
  exact List.mem_of_mem_take h

theorem selectedGroups_subperm (budget : Option Nat) :
    (sourcesOf (selectedGroups sig index budget)).Subperm index :=
  ((selectGroups_sources budget _).subperm.trans (planOptimize_subperm index _)).trans
    List.filter_sublist.subperm

/-! ### One call -/

/-- What the blocks of some groups leave in the index: the other entries, and new ones. -/
structure Swapped (e : BlockEngine E R) (groups : List OptimizeGroup) (new : List IndexEntry)
    (e' : BlockEngine E R) : Prop where
  index_eq : e'.index =
    e.index.filter (fun i => i.loc ∉ (sourcesOf groups).map IndexEntry.loc) ++ new
  length_eq : new.length = groups.length
  fresh : ∀ i ∈ new, i.loc ∉ e.store.ids

section NeverFails

variable (hnf : env.NeverFails) {e : BlockEngine E R}

include hnf

theorem replaceBlocks_index (done : List (Rewritten R)) :
    Triple (At e.store.rows e.index) (replaceBlocks env done)
      (fun _ e' => ∃ new, Swapped e (done.map Rewritten.group) new e' ∧
        ∀ i ∈ new, ∃ r ∈ done, i.blockMeta = r.block.blockMeta) fun _ => False := by
  unfold replaceBlocks
  rw [removes_eq]
  refine Triple.bind ((putBlocks_at _).onError ?_) fun locs =>
    Triple.given ?_
  · rintro _ ⟨_, -, hfails, -⟩
    exact hfails hnf
  rintro ⟨hlen, hfresh⟩
  rw [List.length_map] at hlen
  generalize e.store.rows ++ List.zipWith _ _ _ = rows
  refine Triple.bind (Triple.modify (Q := fun _ => At rows (e.index.filter fun i =>
    i.loc ∉ (sourcesOf (done.map Rewritten.group)).map IndexEntry.loc)) ?_) fun _ =>
      Triple.bind (addAll_at _ _) fun _ => storeCallOr_returns hnf ?_
  · rintro e' ⟨hrows, hindex⟩
    refine ⟨hrows, ?_⟩
    change e'.index.filter _ = _
    rw [hindex]
    exact List.filter_congr fun i _ => by
      rw [decide_not, ← List.contains_eq_mem]
  · rintro e' ⟨-, hindex⟩
    refine ⟨_, ⟨hindex, ?_, fun i hi => ?_⟩, fun i hi => ?_⟩
    · simp [indexEntries, hlen]
    · exact hfresh _ ((indexEntries_locs _ locs).subset (List.mem_map_of_mem hi))
    · obtain ⟨b, hb, hmeta⟩ := mem_indexEntries hi
      obtain ⟨r, hr, rfl⟩ := List.mem_map.mp hb
      exact ⟨r, hr, hmeta⟩

/-- A pass puts blocks that are not raw in the place of the groups it takes on. -/
theorem optimizeInner_index (hsig : sig.Compresses) (budget : Option Nat) :
    Triple (· = e) (optimizeInner sig env budget)
      (fun _ e' => ∃ new, Swapped e (selectedGroups sig e.index budget) new e' ∧
        ∀ i ∈ new, sig.plan.isRaw i.blockMeta.codec = false)
      fun _ => ¬MergesDone sig e.store.rows e.index budget := by
  refine Triple.get_bind fun e' he' => ?_
  subst he'
  refine Triple.ite (fun hnone => Triple.pure ?_) fun _ => ?_
  · rintro _ rfl
    rw [selectedGroups, List.isEmpty_iff.mp hnone]
    exact ⟨[], ⟨by simp, rfl, by simp⟩, by simp⟩
  have hrewrite : Triple (Shape e'.store.rows e'.buffer e'.retentionNative) _ _ _ :=
    @rewriteGroups_exact _ _ sig _ _ _ _ hnf (selectedGroups sig e'.index budget)
  have hindex : Triple (fun e : BlockEngine E R => e.index = e'.index) _ _ _ :=
    @Steady.rewriteGroups _ _ sig env _ (Steady.index e'.index) (selectedGroups sig e'.index budget)
  refine Triple.bind ((hrewrite.and hindex).imp ?_ (fun _ _ h => h) ?_) fun done => ?_
  · rintro _ rfl
    exact ⟨⟨rfl, rfl, rfl⟩, rfl⟩
  · rintro _ ⟨⟨-, g, hg, err, herr⟩, -⟩ hall
    obtain ⟨b, hb⟩ := hall g hg
    rw [hb] at herr
    cases herr
  refine Triple.imp (Triple.given (P := At e'.store.rows e'.index)
    (c := done.map Rewritten.group = selectedGroups sig e'.index budget ∧
      ∀ r ∈ done, sig.plan.isRaw r.block.blockMeta.codec = false) ?_) ?_ (fun _ _ h => h)
      fun _ h => h
  · rintro ⟨hgroups, hblocks⟩
    refine Triple.bind ((replaceBlocks_index hnf done).onError fun _ h => h.elim) fun _ =>
      Triple.exists fun new => Triple.given fun hnew => ?_
    rw [hgroups]
    have hsteady : Steady (Swapped e' (selectedGroups sig e'.index budget) new) :=
      fun _ _ _ h => ⟨h.1, h.2, h.3⟩
    refine Triple.bind ((persistCompressionTotals_returns hnf hsteady _ _ _ _).onError
      fun _ h => h.elim) fun _ => Triple.pure fun _ h => ⟨new, h, fun i hi => ?_⟩
    obtain ⟨r, hr, hmeta⟩ := hnew i hi
    rw [hmeta]
    exact hblocks r hr
  · rintro e'' ⟨⟨hshape, hgroups, hblocks⟩, hindex, -⟩
    refine ⟨⟨hshape.rows_eq, hindex⟩, hgroups, fun r hr => ?_⟩
    obtain ⟨g, -, hb⟩ := exists_of_forall₂_right hblocks (List.mem_map_of_mem hr)
    obtain ⟨es, -, hb⟩ := of_bind hb
    exact hsig es _ hb

omit hnf in
theorem rewritten_mapExtra (rows : List (Row R)) (f : Row R → R) (g : OptimizeGroup) :
    rewritten sig (rows.map fun r => { r with extra := f r }) g = rewritten sig rows g := by
  have hread : sourceEntries sig (rows.map fun r => { r with extra := f r }) =
      sourceEntries sig rows := by
    funext source
    rw [sourceEntries, sourceEntries, rowBytes, rowBytes, List.find?_map, Option.map_map]
    rfl
  rw [rewritten, rewritten, mergedEntries, mergedEntries, hread]

/-- Dropping index data leaves the index and the bytes of the blocks alone. -/
theorem maybePurge_index :
    Triple (· = e) (maybePurge sig env)
      (fun _ e' => (e'.index = e.index ∧ e'.store.ids = e.store.ids) ∧
        ∀ g, rewritten sig e'.store.rows g = rewritten sig e.store.rows g) fun _ => False := by
  refine Triple.get_bind fun e' he' => ?_
  subst he'
  cases sig.purge with
  | none =>
      refine Triple.pure ?_
      rintro _ rfl
      exact ⟨⟨rfl, rfl⟩, fun _ => rfl⟩
  | some keep =>
      refine Triple.ite (fun _ => Triple.pure ?_) fun _ => ?_
      · rintro _ rfl
        exact ⟨⟨rfl, rfl⟩, fun _ => rfl⟩
      refine Triple.bind (Triple.modify (Q := fun _ e => e.index = e'.index ∧ e.store = e'.store) ?_)
        fun _ => storeCallOr_returns hnf ?_
      · rintro _ rfl
        exact ⟨rfl, rfl⟩
      · rintro e'' ⟨hindex, hstore⟩
        rw [← hstore]
        exact ⟨⟨hindex, mapExtra_ids _ _⟩, rewritten_mapExtra _ fun r => keep r.extra⟩

omit hnf in
theorem applyRetention_sublist :
    Keeps (fun e => e.index.Sublist index) (applyRetention sig env) := by
  refine Keeps.get_bind fun e => .ite (.pure _) ?_
  cases tsRangeMax sig e with
  | none => exact .pure _
  | some highWater =>
      refine .ite (.pure _) (.bind ?_ fun _ => .bind (.modify fun _ h => h) fun _ => .pure _)
      refine Keeps.get_bind fun e' => .bind (.modify fun _ h => h) fun _ => .ite (.pure _) ?_
      exact .bind (storeCallOr_triple (fun _ h => h) fun _ h => h) fun _ =>
        .bind (.modify fun _ h => List.filter_sublist.trans h) fun _ => .pure _

/-- **One call.** A call with a plan applies a group and lowers the backlog. -/
theorem optimizeBudgeted_progress (hsig : sig.Compresses) (hindexed : Indexed e) {budget : Nat}
    (hbudget : budget ≠ 0) (hdone : MergesDone sig e.store.rows e.index (some budget))
    (hplan : planned sig e.index ≠ []) :
    Progresses sig e ((optimizeBudgeted sig env budget).exec e).2 := by
  obtain ⟨g, hg⟩ := List.exists_mem_of_ne_nil _
    (@selectedGroups_ne_nil _ _ sig e.index (some budget) hplan)
  -- what is left is in the index of the pass
  let Left (e' : BlockEngine E R) : Prop := ∃ index', e'.index.Sublist index' ∧
    Fewer sig index' e.index ∧ ∀ i ∈ g.sources, i.loc ∉ index'.map IndexEntry.loc
  have hleft : Triple (· = e) (optimizeBudgeted sig env budget) (fun _ => Left) Left := by
    unfold optimizeBudgeted
    rw [if_neg hbudget]
    refine Triple.bind ((maybePurge_index hnf).onError fun _ h => h.elim) fun _ => ?_
    refine Triple.bind (Q := fun _ => Left) ?_ fun out => Triple.exists fun index' =>
      Triple.given fun hindex' => ?_
    · rintro e' ⟨⟨hindex, hids⟩, hrows⟩
      refine (optimizeInner_index hnf hsig (some budget)).imp (fun _ h => h) ?_ ?_ e' rfl
      · rintro _ e'' ⟨new, hswap, hnew⟩
        rw [hindex] at hswap
        refine ⟨e''.index, .refl _, ?_, fun i hi => ?_⟩
        · rw [hswap.index_eq, hindex]
          exact replaced_fewer hindexed.distinct (selectedGroups_subperm _)
            (List.ne_nil_of_mem hg) (fun _ h => selectedGroups_shrinks h) hswap.length_eq hnew
        · rw [hswap.index_eq, List.map_append, List.mem_append, not_or]
          have hsource : i ∈ sourcesOf _ := List.mem_flatMap.mpr ⟨g, hg, hi⟩
          refine ⟨fun hmem => ?_, fun hmem => ?_⟩
          · obtain ⟨j, hj, hloc⟩ := List.mem_map.mp hmem
            have hkept := (List.mem_filter.mp hj).2
            rw [hloc, decide_eq_true_iff] at hkept
            exact hkept (List.mem_map_of_mem hsource)
          · obtain ⟨j, hj, hloc⟩ := List.mem_map.mp hmem
            refine hswap.fresh j hj ?_
            rw [hloc, hids]
            exact hindexed.present i ((selectedGroups_subperm _).subset hsource)
      · intro _ hstuck
        refine absurd (fun g hg => ?_) hstuck
        rw [hrows]
        exact hdone g (hindex ▸ hg)
    · have hsteady : Steady fun e' : BlockEngine E R => e'.index.Sublist index' := fun _ _ _ h => h
      have hrest := Keeps.bind (@Steady.backfill _ _ sig env _ hsteady (fun _ _ h => h)
        ((some budget).map fun b => b - usizeAdd out.rawEntries out.mergeEntries)) fun _ =>
          Keeps.bind (@applyRetention_sublist _ _ sig env index') fun _ =>
            Keeps.pure (out.blocksRemoved, out.blocksWritten)
      exact hrest.imp (fun _ h => h) (fun _ _ h => ⟨index', h, hindex'⟩)
        fun _ h => ⟨index', h, hindex'⟩
  obtain ⟨index', hsub, hfewer, hgone⟩ := hleft.exec rfl
  refine ⟨⟨g, selectedGroups_planned hg, hdone g hg, fun i hi hmem => ?_⟩,
    (hfewer.sublist hsub).backlog_lt⟩
  exact hgone i hi ((hsub.map _).subset hmem)

/-! ### All calls -/

variable {saves : Option (Journal.Saves Int (BlockEngine E R))}

omit hnf in
theorem Good.repeated (h : Good saves e) (budget n : Nat) :
    Good saves (repeated sig env budget e n) := by
  induction n with
  | zero => exact h
  | succ n ih => exact (keeps_optimizeBudgeted budget).exec ih

theorem drains_of_good (hsig : sig.Compresses) (hgood : Good saves e) {budget : Nat}
    (hbudget : budget ≠ 0) : Drains sig env budget e := by
  intro hdone
  have hstep (n : Nat) (hplan : planned sig (repeated sig env budget e n).index ≠ []) :
      Progresses sig (repeated sig env budget e n) (repeated sig env budget e (n + 1)) :=
    optimizeBudgeted_progress hnf hsig (hgood.repeated budget n).toIndexed hbudget (hdone n)
      hplan
  refine ⟨hstep, ?_⟩
  -- a backlog that goes down with every call would go down forever
  obtain ⟨n, hn⟩ := WellFounded.not_rel_apply_succ (r := (· < ·)) fun n =>
    backlog sig (repeated sig env budget e n).index
  exact ⟨n, by_contra fun hplan => hn (hstep n hplan).decreases⟩

end NeverFails

/-! ### Logs and spans -/

/-- A session goes on with configurations of its kind. -/
theorem SessionOf.sig_kind {kind : Signal E R → Prop} {s : Session E R}
    (h : SessionOf env kind s) : kind s.sig := by
  induction h with
  | start interval hsig => exact hsig
  | @step s s' op _ hop hstep ih =>
      have hsig : s'.sig = s.sig ∨ ∃ interval, op = .reopen s'.sig interval := by
        cases op <;> grind [Session.step]
      rcases hsig with hsig | ⟨interval, rfl⟩
      · exact hsig ▸ ih
      · exact hop

variable {N : Type} {c : Compressors} {js : SerdeJson N} {indexes : List SpanAttributeIndex}
  {jsSpans : SerdeJson JsonNumber}

theorem IsLogs.compresses (hc : c.Lossless) {sig : Signal LogEntry (List Text)}
    (h : IsLogs c js sig) : sig.Compresses := by
  obtain ⟨cfg, rfl⟩ := h
  intro es b h
  obtain ⟨⟨data, m⟩, henc, rfl⟩ := bind_pure_eq_ok.mp h
  obtain ⟨cols, hst⟩ := encodeBlock_ok henc
  change isRawCodec m.codec = false
  rcases (hst.describes hc).codec_eq with hcodec | ⟨-, hcodec⟩
  · rw [hcodec]
    split_ifs <;> rfl
  · rw [hcodec]
    rfl

theorem IsSpans.compresses {sig : Signal Span (SpanIndex (List BloomRow))}
    (h : IsSpans (spanCodec c indexes jsSpans) sig) : sig.Compresses := by
  obtain ⟨cfg, rfl⟩ := h
  intro es b h
  obtain ⟨⟨data, m⟩, henc, h⟩ := of_bind h
  obtain ⟨blooms, -, h⟩ := of_bind h
  obtain ⟨bounds, -, rfl⟩ := bind_pure_eq_ok.mp h
  obtain ⟨stored, hst⟩ := encodeSpanBlock_ok henc
  change (m.codec == Spans.codecRaw) = false
  rw [hst.meta_eq]
  rfl

/-- **Maintenance drains.** In every session of a log engine or of a span engine, with any
configuration and any positive budget, over a store that never fails: as long as the groups that are
taken on can be read and written, every call with a plan makes progress, and after finitely many
calls the plan is empty. -/
theorem optimize_drains (js : SerdeJson N) (indexes : List SpanAttributeIndex)
    (jsSpans : SerdeJson JsonNumber) (hc : c.Lossless) (hnf : env.NeverFails) {budget : Nat}
    (hbudget : budget ≠ 0) :
    (∀ s, SessionOf env (IsLogs c js) s → Drains s.sig env budget s.engine) ∧
      ∀ s, SessionOf env (IsSpans (spanCodec c indexes jsSpans)) s →
        Drains s.sig env budget s.engine :=
  ⟨fun _ hs => drains_of_good hnf (hs.sig_kind.compresses hc) hs.sound.good hbudget,
    fun _ hs => drains_of_good hnf hs.sig_kind.compresses hs.sound.good hbudget⟩

/-- A table after two entries of different levels were pushed and flushed. -/
def twoRaw : Session LogEntry (List Text) :=
  let sig := logSignal .storing emptyObjectJson .default
  let pushed := ((pushBatch sig .reliable [plainEntry 5 [], { plainEntry 7 [] with level := 3 }]).exec
    (.create sig .empty 0)).2
  ⟨sig, ((flush sig .reliable).exec pushed).2, none⟩

theorem twoRaw_session : SessionOf .reliable (IsLogs .storing emptyObjectJson) twoRaw := by
  have hstart : SessionOf .reliable (IsLogs .storing emptyObjectJson)
      ⟨_, .create (logSignal .storing emptyObjectJson .default) .empty 0, none⟩ := .start 0 ⟨_, rfl⟩
  have hpush := hstart.step (show Op.OpensWith _
    (.pushBatch [plainEntry 5 [], { plainEntry 7 [] with level := 3 }]) from trivial) rfl
  exact hpush.step (show Op.OpensWith _ .flush from trivial) rfl

theorem mergesDone_of_all {rows : List (Row R)}
    (h : (planned sig index).all (fun g => (rewritten sig rows g).toOption.isSome) = true)
    (budget : Option Nat) : MergesDone sig rows index budget := by
  intro g hg
  have hsome := List.all_eq_true.mp h g (selectedGroups_planned hg)
  cases hb : rewritten sig rows g with
  | ok b => exact ⟨b, rfl⟩
  | error err =>
      rw [hb] at hsome
      cases hsome

/-- Without retention a call with an empty plan leaves the index alone. -/
theorem keeps_drained (hplan : planned sig index = []) (budget : Nat) :
    Keeps (fun e => e.index = index ∧ e.retentionNative = 0) (optimizeBudgeted sig env budget) := by
  have hpurge : Keeps (fun e => e.index = index ∧ e.retentionNative = 0) (maybePurge sig env) := by
    refine Keeps.get_bind fun e => ?_
    cases sig.purge with
    | none => exact .pure _
    | some keep =>
        exact .ite (.pure _) (.bind (.modify fun _ h => h) fun _ =>
          storeCallOr_triple (fun _ h => h) fun _ h => h)
  refine .ite (.throw _) (.bind hpurge fun _ => .bind ?_ fun _ => .bind
    (Steady.backfill (fun _ _ _ h => h) (fun _ _ h => h) _) fun _ => .bind ?_ fun _ => .pure _)
  · refine Triple.get_bind fun e he => ?_
    refine Triple.ite (fun _ => Triple.pure fun _ heq => heq ▸ he) fun hsome => absurd ?_ hsome
    rw [← he.1] at hplan
    rw [show planOptimize _ _ _ = [] from hplan]
    rfl
  · refine Triple.get_bind fun e he => ?_
    rw [if_pos he.2]
    exact Triple.pure fun _ heq => heq ▸ he

/-- Two groups, and each call of budget 1 rewrites one of them. -/
theorem optimize_drains_twoRaw :
    SessionOf .reliable (IsLogs .storing emptyObjectJson) twoRaw ∧
      (planned twoRaw.sig twoRaw.engine.index).length = 2 ∧
      (planned twoRaw.sig (repeated twoRaw.sig .reliable 1 twoRaw.engine 1).index).length = 1 ∧
      Progresses twoRaw.sig twoRaw.engine (repeated twoRaw.sig .reliable 1 twoRaw.engine 1) ∧
      ∃ n, planned twoRaw.sig (repeated twoRaw.sig .reliable 1 twoRaw.engine n).index = [] := by
  have hplan : (planned twoRaw.sig twoRaw.engine.index).length = 2 := by decide +kernel
  have hdrains := (optimize_drains emptyObjectJson [] ⟨fun _ => .error "", fun _ => .error ""⟩
    Compressors.storing_lossless StoreEnv.reliable_neverFails one_ne_zero).1 twoRaw twoRaw_session
  have hdone : ∀ n, MergesDone twoRaw.sig (repeated twoRaw.sig .reliable 1 twoRaw.engine n).store.rows
      (repeated twoRaw.sig .reliable 1 twoRaw.engine n).index (some 1)
    | 0 => mergesDone_of_all (by decide +kernel) _
    | 1 => mergesDone_of_all (by decide +kernel) _
    | n + 2 => by
        have hlast : planned twoRaw.sig (repeated twoRaw.sig .reliable 1 twoRaw.engine 2).index =
            [] := List.isEmpty_iff.mp (by decide +kernel)
        have hkept : (repeated twoRaw.sig .reliable 1 twoRaw.engine (n + 2)).index =
            (repeated twoRaw.sig .reliable 1 twoRaw.engine 2).index ∧
              (repeated twoRaw.sig .reliable 1 twoRaw.engine (n + 2)).retentionNative = 0 := by
          induction n with
          | zero => exact ⟨rfl, by decide +kernel⟩
          | succ n ih => exact (keeps_drained hlast 1).exec ih
        intro g hg
        rw [hkept.1] at hg
        exact absurd (selectedGroups_planned hg) (hlast ▸ List.not_mem_nil)
  obtain ⟨hstep, hend⟩ := hdrains hdone
  have hsome : planned twoRaw.sig twoRaw.engine.index ≠ [] := by
    rw [← List.length_pos_iff, hplan]
    decide
  exact ⟨twoRaw_session, hplan, by decide +kernel, hstep 0 hsome, hend⟩

/-- A call with budget zero is refused, so the plan of raw blocks is there forever. -/
theorem optimize_refuses_zero :
    SessionOf .reliable (IsLogs .storing emptyObjectJson) twoRaw ∧
      ∀ n, MergesDone twoRaw.sig (repeated twoRaw.sig .reliable 0 twoRaw.engine n).store.rows
          (repeated twoRaw.sig .reliable 0 twoRaw.engine n).index (some 0) ∧
        planned twoRaw.sig (repeated twoRaw.sig .reliable 0 twoRaw.engine n).index ≠ [] := by
  have hsame (n : Nat) : repeated twoRaw.sig .reliable 0 twoRaw.engine n = twoRaw.engine := by
    induction n with
    | zero => rfl
    | succ n ih =>
        rw [repeated, ih]
        rfl
  refine ⟨twoRaw_session, fun n => ?_⟩
  rw [hsame]
  exact ⟨mergesDone_of_all (by decide +kernel) _, by decide +kernel⟩

end Timeless.Engine
