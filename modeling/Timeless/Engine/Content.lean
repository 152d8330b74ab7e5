import Timeless.Engine.Invariant
import Timeless.Support.Keyed
import Mathlib.Data.List.SplitBy
import Mathlib.Data.Multiset.AddSub

/-!
# Content — maintenance changes where entries are, not which there are

An engine holds the entries of its buffer and those of its stored blocks. `Reading` says what is
to be kept of an entry and what it means that a block was written from some entries; a
configuration honors it if its codec and its index changes do (`Reading.Honors`). Then, as long as
nothing is old enough to be deleted, flushing and maintenance keep the multiset of what is held:

* `Carries m want e`: the buffer and every row are in order and, if `want` names a multiset, this is
  what the engine holds and it has no retention;
* `carries_maintained`: flushing and maintenance keep the content. When they fail the rows are still
  in order; if the store is not to blame, the content is kept as well;
* `Reachable.intact`: over a whole session the rows and the buffer stay in order.
-/

namespace Timeless.Engine

open Support Blocks Program

variable {E R V : Type}

/-- What is kept of entries, which entries may be pushed and which may be stored, and which blocks
were written from which entries. -/
structure Reading (E R V : Type) where
  view : E → V
  Fit : E → Prop
  Ok : E → Prop
  Written : Encoded R → List E → Prop

/-- A configuration that keeps a reading. -/
structure Reading.Honors (m : Reading E R V) (sig : Signal E R) : Prop where
  accept : ∀ e e', m.Fit e → sig.accept e = .ok e' → m.Ok e'
  encodeRun : ∀ es b, (∀ e ∈ es, m.Ok e) → sig.encodeRun es = .ok b → m.Written b es
  encodeGroup : ∀ es b, (∀ e ∈ es, m.Ok e) → sig.encodeGroup es = .ok b → m.Written b es
  decode : ∀ b es out, m.Written b es → sig.decode b.data = .ok out →
    (∀ e ∈ out, m.Ok e) ∧ out.map m.view = es.map m.view
  purge : ∀ keep b es, sig.purge = some keep → m.Written b es →
    m.Written { b with extra := keep b.extra } es
  backfill : ∀ bf b b' es out fill, sig.backfill = some bf → m.Written b es →
    sig.decode b.data = .ok out → bf.fill out = .ok fill → m.Written b' es →
    m.Written { b' with extra := fill b'.extra } es

/-! ### Rows -/

section Rows

variable (m : Reading E R V)

/-- Rows with the entries that they were written from. -/
structure Annotates (ann : List (Row R × List E)) (rows : List (Row R)) : Prop where
  rows_eq : ann.map Prod.fst = rows
  written : ∀ p ∈ ann, m.Written p.1.toEncoded p.2

def content (ann : List (Row R × List E)) : Multiset V :=
  ((ann.flatMap Prod.snd).map m.view : List V)

/-- Rows hold what their entries show. -/
def RowsHold (rows : List (Row R)) (N : Multiset V) : Prop :=
  ∃ ann, Annotates m ann rows ∧ content m ann = N

variable {m}

theorem Annotates.append {ann ann' : List (Row R × List E)} {rows rows' : List (Row R)}
    (h : Annotates m ann rows) (h' : Annotates m ann' rows') :
    Annotates m (ann ++ ann') (rows ++ rows') := by
  refine ⟨by rw [List.map_append, h.rows_eq, h'.rows_eq], fun p hp => ?_⟩
  rcases List.mem_append.mp hp with hp | hp
  · exact h.written p hp
  · exact h'.written p hp

theorem content_append (ann ann' : List (Row R × List E)) :
    content m (ann ++ ann') = content m ann + content m ann' := by
  simp [content]

variable {rows : List (Row R)} {P : BlockEngine E R → Prop} {ann : List (Row R × List E)}

theorem exists_rowsHold_iff :
    (∃ N, RowsHold m rows N) ↔ ∀ r ∈ rows, ∃ es, m.Written r.toEncoded es := by
  constructor
  · rintro ⟨N, ann, hann, -⟩ r hr
    obtain ⟨p, hp, rfl⟩ := List.mem_map.mp (hann.rows_eq ▸ hr)
    exact ⟨p.2, hann.written p hp⟩
  · intro h
    induction rows with
    | nil => exact ⟨_, [], ⟨rfl, by simp⟩, rfl⟩
    | cons r rows ih =>
        obtain ⟨N, ann, hann, -⟩ := ih fun r' hr' => h r' (List.mem_cons_of_mem _ hr')
        obtain ⟨es, hes⟩ := h r List.mem_cons_self
        have hfirst : Annotates m [(r, es)] [r] := ⟨rfl, by simpa using hes⟩
        exact ⟨_, _, hfirst.append hann, rfl⟩

variable {N : Multiset V}

theorem RowsHold.of_subset {rows rows' : List (Row R)} (h : RowsHold m rows N)
    (hsub : ∀ r ∈ rows', r ∈ rows) : ∃ N', RowsHold m rows' N' :=
  exists_rowsHold_iff.mpr fun r hr => exists_rowsHold_iff.mp ⟨N, h⟩ r (hsub r hr)

/-- Other index data that the blocks may as well have been written with. -/
theorem Annotates.mapExtra (h : Annotates m ann rows) {f : Row R → R}
    (hf : ∀ p ∈ ann, m.Written { p.1.toEncoded with extra := f p.1 } p.2) :
    RowsHold m (rows.map fun r => { r with extra := f r }) (content m ann) := by
  refine ⟨ann.map fun p => ({ p.1 with extra := f p.1 }, p.2), ⟨?_, ?_⟩, ?_⟩
  · rw [← h.rows_eq, List.map_map, List.map_map]
    rfl
  · intro p hp
    obtain ⟨q, hq, rfl⟩ := List.mem_map.mp hp
    exact hf q hq
  · simp [content, List.flatMap_map]

variable {blocks : List (Encoded R)}

/-- New rows hold what their blocks were written from. -/
theorem annotates_newRows (s : Store R) (env : StoreEnv) {runs : List (List E)}
    (h : List.Forall₂ m.Written blocks runs) :
    ∃ ann, Annotates m ann (s.newRows env blocks) ∧
      content m ann = (runs.flatten.map m.view : List V) := by
  have hlen := env.length_newIds s.calls s.ids blocks.length
  unfold Store.newRows
  generalize env.newIds s.calls s.ids blocks.length = ids at hlen
  induction h generalizing ids with
  | nil => exact ⟨[], ⟨rfl, by simp⟩, rfl⟩
  | @cons b es blocks runs hb _ ih =>
      obtain _ | ⟨id, ids⟩ := ids
      · simp at hlen
      obtain ⟨ann, hann, hcontent⟩ := ih ids (by simpa using hlen)
      have hfirst : Annotates m [((⟨b, id⟩ : Row R), es)] [⟨b, id⟩] := ⟨rfl, by simpa using hb⟩
      refine ⟨_, hfirst.append hann, ?_⟩
      rw [content_append, hcontent]
      simp [content]

end Rows

/-! ### Engines -/

/-- The buffer and the rows are in order; and if a content is asked for, it is this one and nothing
is deleted for its age. -/
structure Carries (m : Reading E R V) (want : Option (Multiset V)) (e : BlockEngine E R) :
    Prop where
  ok : ∀ x ∈ e.buffer, m.Ok x
  rows : ∃ N, RowsHold m e.store.rows N ∧
    ∀ W ∈ want, N + (e.buffer.map m.view : List V) = W ∧ e.retentionNative = 0

/-- What is still known after a failure: everything if the store never fails, else that the rows are
in order. -/
def Excuse (env : StoreEnv) (want lost : Option (Multiset V)) : Prop :=
  lost = none ∨ lost = want ∧ ∀ call, env.fault call = none

section Operations

variable {m : Reading E R V} {want lost : Option (Multiset V)} {sig : Signal E R} {env : StoreEnv}
  {saves : Option (Journal.Saves Int (BlockEngine E R))}

variable {e : BlockEngine E R}

theorem Carries.forget (h : Carries m want e) : Carries m none e := by
  obtain ⟨N, hN, -⟩ := h.rows
  exact ⟨h.ok, N, hN, by rintro _ ⟨⟩⟩

theorem Carries.congr {e e' : BlockEngine E R} (h : Carries m want e)
    (hrows : e'.store.rows = e.store.rows) (hbuffer : e'.buffer = e.buffer)
    (hret : e'.retentionNative = e.retentionNative) : Carries m want e' := by
  obtain ⟨hok, hrowsHold⟩ := h
  refine ⟨by rwa [hbuffer], ?_⟩
  rwa [hrows, hbuffer, hret]

theorem Carries.steady : Steady (Carries m want) := fun _ _ hrows he => he.congr hrows rfl rfl

theorem Excuse.carries (h : Excuse env want lost) (he : Carries m want e) :
    Carries m lost e := by
  rcases h with rfl | ⟨rfl, -⟩
  · exact he.forget
  · exact he

/-- A store that fails excuses the loss. -/
theorem Excuse.of_fault (h : Excuse env want lost) {call : Nat} {err : String}
    (hfault : env.fault call = some err) : lost = none := by
  rcases h with h | ⟨-, h⟩
  · exact h
  · rw [h call] at hfault
    cases hfault

theorem excuse_none (env : StoreEnv) (want : Option (Multiset V)) : Excuse env want none :=
  .inl rfl

variable {f : Store R → Store R}

/-- A failed call leaves the rows in order. -/
theorem Excuse.storeCallOr (hx : Excuse env want lost) {text : String → String}
    {Q : Unit → BlockEngine E R → Prop} (hP : ∀ e, P e → Carries m none e)
    (hok : ∀ e, P e → Q () (e.onStore f)) :
    Triple P (storeCallOr env text f) Q (Carries m lost) :=
  storeCallOr_cases hok fun e err hfault he => by
    rw [hx.of_fault hfault]
    exact (hP e he).congr rfl rfl rfl

/-- Calls that leave the rows alone. -/
theorem Excuse.keeps (hx : Excuse env want lost) (hsteady : Steady P)
    (hP : ∀ e, P e → Carries m none e) (hf : ∀ s, (f s).rows = s.rows) :
    Triple P (Engine.storeCall env f : EngineM E R Unit) (fun _ => P) (Carries m lost) :=
  hx.storeCallOr hP fun e he => hsteady e f (hf _) he

theorem Excuse.persistIngestRawTotal (hx : Excuse env want lost) (hsteady : Steady P)
    (hP : ∀ e, P e → Carries m none e) (added : Nat) :
    Triple P (Engine.persistIngestRawTotal env added) (fun _ => P) (Carries m lost) :=
  Triple.ite (fun _ => Triple.pure fun _ h => h) fun _ =>
    Triple.bind (hx.keeps hsteady hP (by intro s; rfl)) fun _ =>
      hx.keeps hsteady hP (by intro s; rfl)

theorem Excuse.persistCompressionTotals (hx : Excuse env want lost) (hsteady : Steady P)
    (hP : ∀ e, P e → Carries m none e) (rawIn rawOut mergeIn mergeOut : Nat) :
    Triple P (Engine.persistCompressionTotals env rawIn rawOut mergeIn mergeOut) (fun _ => P)
      (Carries m lost) :=
  Triple.ite (fun _ => Triple.pure fun _ h => h) fun _ =>
    Triple.bind (hx.keeps hsteady hP (by intro s; rfl)) fun _ =>
      hx.keeps hsteady hP (by intro s; rfl)

/-- The parts of an engine that its content depends on. -/
structure Shape (rows : List (Row R)) (buffer : List E) (ret : Int64) (e : BlockEngine E R) :
    Prop where
  rows_eq : e.store.rows = rows
  buffer_eq : e.buffer = buffer
  ret_eq : e.retentionNative = ret

theorem Shape.steady (rows : List (Row R)) (buffer : List E) (ret : Int64) :
    Steady (Shape rows buffer ret) := fun _ _ hrows he => ⟨hrows.trans he.1, he.2, he.3⟩

variable {buffer : List E} {ret : Int64}

theorem Shape.carries (hN : RowsHold m rows N) (hok : ∀ x ∈ buffer, m.Ok x)
    (hwant : ∀ W ∈ want, N + (buffer.map m.view : List V) = W ∧ ret = 0) (e : BlockEngine E R)
    (he : Shape rows buffer ret e) : Carries m want e := by
  obtain ⟨rfl, rfl, rfl⟩ := he
  exact ⟨hok, N, hN, hwant⟩

/-- New rows with their content; the ids are new. -/
theorem Excuse.putBlocks (hx : Excuse env want lost) {runs : List (List E)}
    (hruns : List.Forall₂ m.Written blocks runs) (hN : RowsHold m rows N)
    (hok : ∀ x ∈ buffer, m.Ok x) :
    Triple (Shape rows buffer ret) (Engine.putBlocks env blocks)
      (fun _ e => ∃ new, (RowsHold m new (runs.flatten.map m.view : List V) ∧
        ∀ r ∈ new, r.id ∉ rows.map Row.id) ∧ Shape (rows ++ new) buffer ret e) (Carries m lost) := by
  refine Triple.get_bind fun e he => ?_
  obtain ⟨ann, hann, hcontent⟩ := annotates_newRows e.store env hruns
  have hrows : RowsHold m (e.store.newRows env blocks) (runs.flatten.map m.view : List V) :=
    ⟨ann, hann, hcontent⟩
  obtain ⟨rfl, rfl, rfl⟩ := he
  cases hfault : env.fault e.store.calls with
  | some err =>
      refine Triple.bind (Triple.modify ?_) fun _ => Triple.throw fun _ he' => he'
      rintro e rfl
      rw [hx.of_fault hfault]
      obtain ⟨N', hN'⟩ := hrows.of_subset fun r hr =>
        List.mem_of_mem_take (i := env.written e.store.calls) hr
      obtain ⟨M, hM⟩ := exists_rowsHold_iff.mpr fun r hr => by
        rcases List.mem_append.mp hr with hr | hr
        · exact exists_rowsHold_iff.mp ⟨N, hN⟩ r hr
        · exact exists_rowsHold_iff.mp ⟨N', hN'⟩ r hr
      exact ⟨hok, M, hM, by rintro _ ⟨⟩⟩
  | none =>
      refine Triple.bind (Triple.modify ?_) fun _ => Triple.pure fun _ he' => he'
      rintro e rfl
      refine ⟨e.store.newRows env blocks, ⟨hrows, ?_⟩, ?_, rfl, rfl⟩
      · intro r hr hold
        refine env.fresh_newIds e.store.calls e.store.ids blocks.length r.id ?_ hold
        rw [← e.store.newRows_ids]
        exact List.mem_map_of_mem hr
      · change e.store.rows ++ (e.store.newRows env blocks).take blocks.length = _
        rw [List.take_of_length_le]
        simp [Store.newRows, env.length_newIds]

/-- Adding index entries does not fail. -/
theorem addAll_shape {E' : BlockEngine E R → Prop} (es : List IndexEntry) :
    Triple (Shape rows buffer ret) (addAll es) (fun _ => Shape rows buffer ret) E' :=
  addAll_appends (P := fun _ => Shape rows buffer ret) (fun _ _ _ h => ⟨h.1, h.2, h.3⟩) es []

/-! ### Flush -/

theorem encodeRuns_written (hm : m.Honors sig) {blocks : List (Encoded R × Option UInt8)}
    (hok : ∀ x ∈ buffer, m.Ok x) (h : encodeRuns sig buffer = .ok blocks) :
    ∃ runs, List.Forall₂ m.Written (blocks.map Prod.fst) runs ∧ runs.flatten = buffer := by
  refine ⟨_, ?_, List.flatten_splitBy (fun a b => sig.part a == sig.part b) buffer⟩
  have hmem : ∀ run ∈ buffer.splitBy (fun a b => sig.part a == sig.part b), ∀ x ∈ run, m.Ok x := by
    intro run hrun x hx
    refine hok x ?_
    rw [← List.flatten_splitBy (fun a b => sig.part a == sig.part b) buffer]
    exact List.mem_flatten.mpr ⟨run, hrun, hx⟩
  have hall := mapM_eq_ok.mp h
  clear h
  rw [List.forall₂_map_left_iff]
  refine List.Forall₂.flip ?_
  generalize buffer.splitBy (fun a b => sig.part a == sig.part b) = runs at hmem hall
  induction hall with
  | nil => exact .nil
  | cons hrun _ ih =>
      refine .cons ?_ (ih fun run hrun => hmem run (List.mem_cons_of_mem _ hrun))
      obtain ⟨block, hblock, rfl⟩ := bind_pure_eq_ok.mp hrun
      exact hm.encodeRun _ _ (hmem _ List.mem_cons_self) hblock

theorem carries_flushInner (hm : m.Honors sig) (hx : Excuse env want lost) :
    Triple (Carries m want) (flushInner sig env) (fun _ => Carries m want) (Carries m lost) := by
  refine Triple.get_bind fun e he => Triple.ite (fun _ => ?_) fun _ => ?_
  · exact Triple.pure fun _ heq => heq ▸ he
  obtain ⟨hok, N, hN, hwant⟩ := he
  have hperm : (e.buffer.insertionSort (FlushLe sig)).Perm e.buffer := List.perm_insertionSort _ _
  generalize e.buffer.insertionSort (FlushLe sig) = sorted at hperm
  have hview : ((sorted.map m.view : List V) : Multiset V) = (e.buffer.map m.view : List V) :=
    Multiset.coe_eq_coe.mpr (hperm.map _)
  have hsorted : ∀ x ∈ sorted, m.Ok x := fun x hx' => hok x (hperm.subset hx')
  refine Triple.bind (Triple.modify
    (Q := fun _ => Shape e.store.rows sorted e.retentionNative) ?_) fun _ => ?_
  · rintro _ rfl
    exact ⟨rfl, rfl, rfl⟩
  refine Triple.bind (Triple.lift (Q := fun blocks e' =>
    Shape e.store.rows sorted e.retentionNative e' ∧ encodeRuns sig sorted = .ok blocks)
    (fun _ hblocks _ h => ⟨h, hblocks⟩) fun e' h => ?_) fun blocks => Triple.given fun hblocks => ?_
  · exact hx.carries (Shape.carries hN hsorted (by rwa [hview]) e' h)
  obtain ⟨runs, hruns, rfl⟩ := encodeRuns_written hm hsorted hblocks
  refine Triple.bind (hx.putBlocks hruns hN hsorted) fun locs => Triple.exists fun new => ?_
  refine Triple.imp (Triple.given (P := Shape (e.store.rows ++ new) runs.flatten
    e.retentionNative) fun hnew => ?_) (fun _ h => ⟨h.2, h.1.1⟩) (fun _ _ h => h) fun _ h => h
  obtain ⟨ann, hann, rfl⟩ := hN
  obtain ⟨ann', hann', hcontent⟩ := hnew
  have hrows : RowsHold m (e.store.rows ++ new) (content m ann + (runs.flatten.map m.view : List V)) :=
    ⟨_, hann.append hann', by rw [content_append, hcontent]⟩
  have hnone : ∀ e', Shape (e.store.rows ++ new) runs.flatten e.retentionNative e' →
      Carries m none e' :=
    Shape.carries hrows hsorted (by rintro _ ⟨⟩)
  refine Triple.bind (hx.persistIngestRawTotal (Shape.steady _ _ _) hnone _) fun _ => ?_
  refine Triple.bind (addAll_shape _) fun _ => ?_
  refine Triple.bind (Triple.modify (Q := fun _ => Carries m want) ?_) fun _ =>
    Triple.pure fun _ h => h
  rintro e' ⟨hrows', -, hret⟩
  have hshape : Shape (e.store.rows ++ new) [] e.retentionNative
      (e'.onJournal fun j => j.disturb []) := ⟨hrows', rfl, hret⟩
  refine Shape.carries hrows (by simp) ?_ _ hshape
  rw [hview, List.map_nil, Multiset.coe_nil, Multiset.add_zero]
  exact hwant

/-! ### Retention -/

theorem carries_prune (cutoff : Int64) : Keeps (Carries m none) (prune sig env cutoff) := by
  refine Triple.get_bind fun e he => ?_
  refine Triple.bind (Triple.modify (Q := fun _ => Carries m none) ?_) fun _ => ?_
  · rintro _ rfl
    obtain ⟨N, hN, -⟩ := he.rows
    exact ⟨fun x hx => he.ok x (List.mem_of_mem_filter hx), N, hN, by rintro _ ⟨⟩⟩
  refine Triple.ite (fun _ => Triple.pure fun _ h => h) fun _ => ?_
  refine Keeps.bind ((excuse_none env none).storeCallOr (Q := fun _ => Carries m none)
    (fun _ h => h) fun e' h => ?_) fun _ => .bind (.modify fun e' h => ?_) fun _ => .pure _
  · obtain ⟨N, hN, -⟩ := h.rows
    obtain ⟨N', hN'⟩ := hN.of_subset fun r hr => List.mem_of_mem_filter hr
    exact ⟨h.ok, N', hN', by rintro _ ⟨⟩⟩
  · exact h.congr rfl rfl rfl

/-- Without retention there is nothing to do; with it, no content was asked for. -/
theorem carries_applyRetention (hx : Excuse env want lost) :
    Triple (Carries m want) (applyRetention sig env) (fun _ => Carries m want)
      (Carries m lost) := by
  refine Triple.get_bind fun e he => Triple.ite (fun _ => ?_) fun hret => ?_
  · exact Triple.pure fun _ heq => heq ▸ he
  have hwant : want = none := by
    obtain ⟨N, -, hwant⟩ := he.rows
    cases want with
    | none => rfl
    | some W => exact absurd (hwant W rfl).2 hret
  have hlost : lost = none := by
    rcases hx with h | ⟨h, -⟩
    · exact h
    · exact h.trans hwant
  subst hwant hlost
  refine Triple.pre (P := Carries m none) ?_ fun _ heq => heq ▸ he
  cases tsRangeMax sig e with
  | none => exact Keeps.pure _
  | some highWater =>
      exact Keeps.ite (.pure _) (.bind (carries_prune _) fun _ =>
        .bind (.modify fun e' h => h.congr rfl rfl rfl) fun _ => .pure _)

/-! ### Maintenance -/

/-- The entries of the row with an id. -/
def held (ann : List (Row R × List E)) (loc : Int) : List E :=
  Keyed.under (fun p : Row R × List E => p.1.id) Prod.snd ann loc

section Rewrite

variable {ann : List (Row R × List E)} {rows : List (Row R)} {buffer : List E} {ret : Int64}

theorem find_held (hann : Annotates m ann rows) {s : Store R} (hrows : s.rows = rows) {loc : Int}
    {r : Row R} (h : s.find loc = some r) : m.Written r.toEncoded (held ann loc) := by
  rw [Store.find, hrows, ← hann.rows_eq, List.find?_map] at h
  obtain ⟨p, hp, rfl⟩ := Option.map_eq_some_iff.mp h
  have hheld : held ann loc = p.2 := by
    rw [held, Keyed.under, show ann.find? (fun a => a.1.id = loc) = some p from hp]
    rfl
  rw [hheld]
  exact hann.written p (List.mem_of_find?_eq_some hp)

/-- A block that is read was written from the entries its row holds. -/
theorem readBlock_written (hx : Excuse env want lost) (hann : Annotates m ann rows)
    (hshape : ∀ e, Shape rows buffer ret e → Carries m want e) (loc : Int) :
    Triple (Shape rows buffer ret) (readBlock env loc)
      (fun bytes e => Shape rows buffer ret e ∧
        ∃ b : Encoded R, b.data = bytes ∧ m.Written b (held ann loc)) (Carries m lost) := by
  refine Triple.bind (hx.keeps (Shape.steady _ _ _) (fun e h => (hshape e h).forget)
    (by intro s; rfl)) fun _ => Triple.get_bind fun e he => ?_
  cases hfind : e.store.find loc with
  | none =>
      refine Triple.throw ?_
      rintro e' rfl
      exact hx.carries (hshape _ he)
  | some r =>
      refine Triple.pure ?_
      rintro e' rfl
      exact ⟨he, r.toEncoded, rfl, find_held hann he.rows_eq hfind⟩

theorem readSources_written (hm : m.Honors sig) (hx : Excuse env want lost)
    (hann : Annotates m ann rows) (hshape : ∀ e, Shape rows buffer ret e → Carries m want e)
    (sources : List IndexEntry) :
    Triple (Shape rows buffer ret) (readSources sig env sources)
      (fun out e => Shape rows buffer ret e ∧ (∀ x ∈ out.1, m.Ok x) ∧
        out.1.map m.view = (sources.flatMap fun i => held ann i.loc).map m.view)
      (Carries m lost) := by
  induction sources with
  | nil => exact Triple.pure fun e he => ⟨he, by simp, rfl⟩
  | cons i sources ih =>
      refine Triple.bind (readBlock_written hx hann hshape i.loc) fun bytes => Triple.given ?_
      rintro ⟨b, rfl, hb⟩
      refine Triple.bind (Triple.lift (Q := fun entries e => Shape rows buffer ret e ∧
        sig.decode b.data = .ok entries) (fun _ h _ he => ⟨he, h⟩)
        fun e he => hx.carries (hshape e he)) fun entries => Triple.given fun hdecode => ?_
      obtain ⟨hok, hview⟩ := hm.decode b _ entries hb hdecode
      refine Triple.bind ih fun more => Triple.given fun hmore => Triple.pure fun e he => ?_
      refine ⟨he, fun x hx' => ?_, ?_⟩
      · rcases List.mem_append.mp hx' with hx' | hx'
        · exact hok x hx'
        · exact hmore.1 x hx'
      · rw [List.flatMap_cons, List.map_append, List.map_append, hview, hmore.2]

theorem rewriteGroup_written (hm : m.Honors sig) (hx : Excuse env want lost)
    (hann : Annotates m ann rows) (hshape : ∀ e, Shape rows buffer ret e → Carries m want e)
    (g : OptimizeGroup) :
    Triple (Shape rows buffer ret) (rewriteGroup sig env g)
      (fun r e => Shape rows buffer ret e ∧ r.group = g ∧ ∃ es, m.Written r.block es ∧
        (es.map m.view).Perm ((g.sources.flatMap fun i => held ann i.loc).map m.view))
      (Carries m lost) := by
  refine Triple.bind (readSources_written hm hx hann hshape g.sources) fun out =>
    Triple.given fun hout => ?_
  have hperm := List.perm_insertionSort (fun a b => sig.ts a ≤ sig.ts b) out.1
  refine Triple.bind (Triple.lift (Q := fun block e => Shape rows buffer ret e ∧
    sig.encodeGroup (out.1.insertionSort fun a b => sig.ts a ≤ sig.ts b) = .ok block)
    (fun _ h _ he => ⟨he, h⟩) fun e he => hx.carries (hshape e he)) fun block =>
      Triple.given fun hblock => Triple.pure fun e he => ?_
  have hwritten := hm.encodeGroup _ _ (fun x hx' => hout.1 x (hperm.subset hx')) hblock
  refine ⟨he, rfl, _, hwritten, ?_⟩
  rw [← hout.2]
  exact hperm.map _

theorem rewriteGroups_written (hm : m.Honors sig) (hx : Excuse env want lost)
    (hann : Annotates m ann rows) (hshape : ∀ e, Shape rows buffer ret e → Carries m want e)
    (groups : List OptimizeGroup) :
    Triple (Shape rows buffer ret) (rewriteGroups sig env groups)
      (fun done e => Shape rows buffer ret e ∧ done.map Rewritten.group = groups ∧
        ∃ runs, List.Forall₂ m.Written (done.map Rewritten.block) runs ∧
          (runs.flatten.map m.view).Perm
            (((sourcesOf groups).flatMap fun i => held ann i.loc).map m.view))
      (Carries m lost) := by
  induction groups with
  | nil => exact Triple.pure fun e he => ⟨he, rfl, [], .nil, .refl _⟩
  | cons g groups ih =>
      refine Triple.bind (rewriteGroup_written hm hx hann hshape g) fun r => Triple.given ?_
      rintro ⟨rfl, es, hes, hperm⟩
      refine Triple.bind ih fun done => Triple.given ?_
      rintro ⟨rfl, runs, hruns, hperms⟩
      refine Triple.pure fun e he => ⟨he, rfl, es :: runs, .cons hes hruns, ?_⟩
      rw [sourcesOf_cons, List.flatMap_append, List.flatten_cons, List.map_append, List.map_append]
      exact hperm.append hperms

/-- The rows that stay and those that come hold what the rows held. -/
theorem rowsHold_replaced (hann : Annotates m ann rows) (hdistinct : (rows.map Row.id).Nodup)
    {removes : List Int} (hremoves : removes.Nodup) {new : List (Row R)} {runs : List (List E)}
    (hnew : RowsHold m new (runs.flatten.map m.view : List V))
    (hfresh : ∀ r ∈ new, r.id ∉ removes)
    (hruns : (runs.flatten.map m.view).Perm ((removes.flatMap (held ann)).map m.view)) :
    RowsHold m ((rows ++ new).filter fun r => r.id ∉ removes) (content m ann) := by
  obtain ⟨ann', hann', hcontent⟩ := hnew
  have hkept : Annotates m (ann.filter fun p => p.1.id ∉ removes)
      (rows.filter fun r => r.id ∉ removes) := by
    refine ⟨?_, fun p hp => hann.written p (List.mem_of_mem_filter hp)⟩
    rw [← hann.rows_eq, List.filter_map]
    rfl
  have hall : (new.filter fun r => r.id ∉ removes) = new :=
    List.filter_eq_self.mpr fun r hr => by simpa using hfresh r hr
  rw [List.filter_append, hall]
  refine ⟨_, hkept.append hann', ?_⟩
  rw [content_append, hcontent]
  have hkeys : (ann.map fun p => p.1.id).Nodup := by
    rw [← hann.rows_eq, List.map_map] at hdistinct
    exact hdistinct
  have hperm := Keyed.filter_append_under_perm Prod.snd hkeys hremoves
  refine Multiset.coe_eq_coe.mpr ?_
  refine ((hruns.append_left _).trans ?_)
  rw [← List.map_append]
  exact hperm.map _

theorem carries_replaceBlocks (hx : Excuse env want lost) (hann : Annotates m ann rows)
    (hdistinct : (rows.map Row.id).Nodup) (hok : ∀ x ∈ buffer, m.Ok x)
    (hwant : ∀ W ∈ want, content m ann + (buffer.map m.view : List V) = W ∧ ret = 0)
    {done : List (Rewritten R)} {runs : List (List E)}
    (hruns : List.Forall₂ m.Written (done.map Rewritten.block) runs)
    (hnodup : ((sourcesOf (done.map Rewritten.group)).map IndexEntry.loc).Nodup)
    (hpresent : ∀ i ∈ sourcesOf (done.map Rewritten.group), i.loc ∈ rows.map Row.id)
    (hperm : (runs.flatten.map m.view).Perm
      (((sourcesOf (done.map Rewritten.group)).flatMap fun i => held ann i.loc).map m.view)) :
    Triple (Shape rows buffer ret) (replaceBlocks env done) (fun _ => Carries m want)
      (Carries m lost) := by
  unfold replaceBlocks
  rw [removes_eq]
  refine Triple.bind (hx.putBlocks hruns ⟨ann, hann, rfl⟩ hok) fun locs => Triple.exists fun new => ?_
  refine Triple.imp (Triple.given (P := Shape (rows ++ new) buffer ret) fun hnew => ?_)
    (fun _ h => ⟨h.2, h.1⟩) (fun _ _ h => h) fun _ h => h
  have hrows := rowsHold_replaced hann hdistinct hnodup hnew.1
    (fun r hr hgone => by
      obtain ⟨i, hi, hloc⟩ := List.mem_map.mp hgone
      exact hnew.2 r hr (hloc ▸ hpresent i hi))
    (by rwa [List.flatMap_map])
  have hnone : ∀ e, Shape (rows ++ new) buffer ret e → Carries m none e := fun e he => by
    obtain ⟨ann', hann', -⟩ := hnew.1
    exact Shape.carries ⟨_, hann.append hann', rfl⟩ hok (by rintro _ ⟨⟩) e he
  refine Triple.bind (Triple.modify (Q := fun _ => Shape (rows ++ new) buffer ret)
    fun e h => ⟨h.1, h.2, h.3⟩) fun _ => Triple.bind (addAll_shape _) fun _ => ?_
  refine hx.storeCallOr hnone fun e he => ?_
  refine Shape.carries hrows hok hwant _ ⟨?_, he.2, he.3⟩
  change e.store.rows.filter _ = _
  rw [he.rows_eq]

end Rewrite

/-- Sources are distinct rows of the store. -/
theorem selected_locs (h : Indexed e) (plan : PlanConfig) (budget : Option Nat) :
    ((sourcesOf (selectGroups budget [] 0
      (planOptimize plan e.index (candidatesOf plan e.index))).1).map IndexEntry.loc).Nodup := by
  refine List.Nodup.sublist ((selectGroups_sources budget _).map _) ?_
  obtain ⟨l, hperm, hsub⟩ := @planOptimize_subperm plan e.index (candidatesOf plan e.index)
  refine (hperm.map IndexEntry.loc).nodup_iff.mp ?_
  exact h.distinct.sublist ((hsub.trans List.filter_sublist).map _)

theorem carries_optimizeInner (hm : m.Honors sig) (hx : Excuse env want lost)
    (budget : Option Nat) :
    Triple (fun e => Good saves e ∧ Carries m want e) (optimizeInner sig env budget)
      (fun _ => Carries m want) (Carries m lost) := by
  refine Triple.get_bind fun e he => Triple.ite (fun _ => ?_) fun _ => ?_
  · exact Triple.pure fun _ heq => heq ▸ he.2
  obtain ⟨hgood, hok, _, ⟨ann, hann, rfl⟩, hwant⟩ := he
  have hnodup := selected_locs hgood.toIndexed sig.plan budget
  have hsources := selected_sources sig.plan budget e.index
  generalize selectGroups budget [] 0 (planOptimize sig.plan e.index
    (candidatesOf sig.plan e.index)) = selected at hnodup hsources
  have hshape : ∀ e', Shape e.store.rows e.buffer e.retentionNative e' → Carries m want e' :=
    Shape.carries ⟨ann, hann, rfl⟩ hok hwant
  refine Triple.bind ((rewriteGroups_written hm hx hann hshape selected.1).pre ?_) fun done =>
    Triple.given ?_
  · rintro e' rfl
    exact ⟨rfl, rfl, rfl⟩
  rintro ⟨hdone, runs, hruns, hperm⟩
  refine Triple.bind (Q := fun _ => Carries m want) ?_ fun _ => ?_
  · rw [← hdone] at hnodup hsources hperm
    refine carries_replaceBlocks hx hann e.store.distinct hok hwant hruns hnodup ?_ hperm
    exact fun i hi => hgood.present i (hsources i hi)
  · exact Triple.bind (hx.persistCompressionTotals Carries.steady (fun _ h => h.forget) _ _ _ _)
      fun _ => Triple.pure fun _ h => h

theorem carries_maybePurge (hm : m.Honors sig) (hx : Excuse env want lost) :
    Triple (Carries m want) (maybePurge sig env) (fun _ => Carries m want) (Carries m lost) := by
  refine Triple.get_bind fun e he => ?_
  cases hpurge : sig.purge with
  | none => exact Triple.pure fun _ heq => heq ▸ he
  | some keep =>
      refine Triple.pre (P := Carries m want) ?_ fun _ heq => heq ▸ he
      refine Triple.ite (fun _ => Triple.pure fun _ h => h) fun _ => ?_
      refine Triple.bind (Triple.modify (Q := fun _ => Carries m want)
        fun e h => h.congr rfl rfl rfl) fun _ => ?_
      refine hx.storeCallOr (fun _ h => h.forget) fun e h => ?_
      obtain ⟨hok, _, ⟨ann, hann, rfl⟩, hwant⟩ := h
      exact ⟨hok, _, hann.mapExtra fun p hp => hm.purge keep _ _ hpurge (hann.written p hp), hwant⟩

/-- What is to be filled in suits the entries of each row. -/
theorem fillRows_suits (hm : m.Honors sig) (hx : Excuse env want lost) (hann : Annotates m ann rows)
    (hshape : ∀ e, Shape rows buffer ret e → Carries m want e) {bf : Backfill E R}
    (hbf : sig.backfill = some bf) (todo : List (Row R)) :
    Triple (Shape rows buffer ret) (fillRows sig env bf todo)
      (fun updates e => Shape rows buffer ret e ∧ ∀ u ∈ updates, ∀ b : Encoded R,
        m.Written b (held ann u.1) → m.Written { b with extra := u.2 b.extra } (held ann u.1))
      (Carries m lost) := by
  have hlift {α : Type} (x : Except String α) : Triple (Shape rows buffer ret) (Program.lift x)
      (fun a e => Shape rows buffer ret e ∧ x = .ok a) (Carries m lost) :=
    Triple.lift (fun _ h _ he => ⟨he, h⟩) fun e he => hx.carries (hshape e he)
  induction todo with
  | nil => exact Triple.pure fun e he => ⟨he, by simp⟩
  | cons r todo ih =>
      refine Triple.bind (readBlock_written hx hann hshape r.id) fun bytes => Triple.given ?_
      rintro ⟨b, rfl, hb⟩
      refine Triple.bind (hlift _) fun out => Triple.given fun hout => ?_
      refine Triple.bind (hlift _) fun _ => Triple.given fun _ => ?_
      refine Triple.bind (hlift _) fun fill => Triple.given fun hfill => ?_
      refine Triple.bind ih fun more => Triple.given fun hmore => Triple.pure fun e he => ⟨he, ?_⟩
      intro u hu b' hb'
      rcases List.mem_cons.mp hu with rfl | hu
      · exact hm.backfill bf b b' _ out fill hbf hb hout hfill hb'
      · exact hmore u hu b' hb'

/-- Rows that are filled in hold what they held. -/
theorem rowsHold_filled (hann : Annotates m ann rows) (hdistinct : (rows.map Row.id).Nodup)
    {updates : List (Int × (R → R))}
    (h : ∀ u ∈ updates, ∀ b : Encoded R, m.Written b (held ann u.1) →
      m.Written { b with extra := u.2 b.extra } (held ann u.1)) :
    RowsHold m (rows.map fun r => { r with
      extra := ((updates.find? fun u => u.1 = r.id).map fun u => u.2 r.extra).getD r.extra })
      (content m ann) := by
  refine hann.mapExtra fun p hp => ?_
  have hkeys : (ann.map fun p => p.1.id).Nodup := by
    rw [← hann.rows_eq, List.map_map] at hdistinct
    exact hdistinct
  have hheld : held ann p.1.id = p.2 := Keyed.under_of_mem hkeys hp
  have hwritten := hann.written p hp
  cases hfind : updates.find? fun u => u.1 = p.1.id with
  | none => exact hwritten
  | some u =>
      have hid : u.1 = p.1.id := by simpa using List.find?_some hfind
      have hsuits := h u (List.mem_of_find?_eq_some hfind) p.1.toEncoded
      rw [hid, hheld] at hsuits
      exact hsuits hwritten

theorem carries_backfill (hm : m.Honors sig) (hx : Excuse env want lost) (budget : Option Nat) :
    Triple (Carries m want) (backfillDurationBounds sig env budget) (fun _ => Carries m want)
      (Carries m lost) := by
  unfold backfillDurationBounds
  cases hbf : sig.backfill with
  | none => exact Triple.pure fun _ h => h
  | some bf =>
      refine Triple.bind (hx.keeps Carries.steady (fun _ h => h.forget) (by intro s; rfl))
        fun _ => Triple.get_bind fun e he => Triple.ite (fun _ => ?_) fun _ => ?_
      · exact Triple.pure fun _ heq => heq ▸ he
      obtain ⟨hok, _, ⟨ann, hann, rfl⟩, hwant⟩ := he
      have hshape : ∀ e', Shape e.store.rows e.buffer e.retentionNative e' → Carries m want e' :=
        Shape.carries ⟨ann, hann, rfl⟩ hok hwant
      refine Triple.bind ((fillRows_suits hm hx hann hshape hbf _).pre ?_) fun updates =>
        Triple.given fun hupdates => ?_
      · rintro e' rfl
        exact ⟨rfl, rfl, rfl⟩
      have hrows := rowsHold_filled hann e.store.distinct hupdates
      refine hx.storeCallOr (fun e' h => (hshape e' h).forget) fun e' h => ?_
      refine Shape.carries hrows hok hwant _ ⟨?_, h.2, h.3⟩
      change e'.store.rows.map _ = _
      rw [h.rows_eq]

/-- Flushing and maintenance keep the content. -/
theorem carries_maintained (hm : m.Honors sig) (hx : Excuse env want lost) :
    Maintained sig env saves (Carries m want) (Carries m lost) where
  flushInner := (carries_flushInner hm hx).pre fun _ h => h.2
  maybePurge := (carries_maybePurge hm hx).pre fun _ h => h.2
  optimizeInner := carries_optimizeInner hm hx
  backfill budget := (carries_backfill hm hx budget).pre fun _ h => h.2
  applyRetention := (carries_applyRetention hx).pre fun _ h => h.2
  counted _ _ h := h.congr rfl rfl rfl
  failed _ h := hx.carries h

theorem Carries.push (h : Carries m want e) {es : List E} (hes : ∀ x ∈ es, m.Ok x) :
    Carries m (want.map (· + (es.map m.view : List V))) (e.onJournal fun j => j.push es) := by
  obtain ⟨N, hN, hwant⟩ := h.rows
  refine ⟨fun x hx => ?_, N, hN, fun W' hW' => ?_⟩
  · rcases List.mem_append.mp hx with hx | hx
    · exact h.ok x hx
    · exact hes x hx
  · obtain ⟨W, hW, rfl⟩ := Option.map_eq_some_iff.mp hW'
    obtain ⟨rfl, hret⟩ := hwant W hW
    refine ⟨?_, hret⟩
    change N + ((e.buffer ++ es).map m.view : List V) = _
    rw [List.map_append, ← Multiset.coe_add, Multiset.add_assoc]

/-- What a batch adds: all of it or, if one entry is not admitted, nothing. -/
def admitted (accept : E → Except String E) (view : E → V) (es : List E) : Multiset V :=
  (((es.mapM accept).toOption.getD []).map view : List V)

section Push

variable (hm : m.Honors sig)
  (hx : ∀ f : Multiset V → Multiset V, Excuse env (want.map f) (want.map f))

include hm hx

/-- What is admitted is added to the content, whatever the flush behind it does. -/
theorem carries_push {entry : E} (hentry : m.Fit entry) :
    Triple (fun e => Good saves e ∧ Carries m want e) (push sig env entry)
      (fun _ => Carries m (want.map (· + admitted sig.accept m.view [entry])))
      (Carries m (want.map (· + admitted sig.accept m.view [entry]))) := by
  rw [push, admitted, List.mapM_cons, List.mapM_nil]
  cases haccept : sig.accept entry with
  | error err => exact Triple.throw fun _ h => by simpa [Except.toOption, bind, Except.bind] using h.2
  | ok x =>
      have hok := List.forall_mem_singleton.mpr (hm.accept _ _ hentry haccept)
      change Triple _ (do modify _; autoFlush sig env) _ _
      exact Triple.bind (Q := fun _ e => Good saves e ∧ Carries m (want.map _) e)
        (Triple.modify fun e h => ⟨h.1.push [x], h.2.push hok⟩) fun _ =>
          (carries_maintained hm (hx _)).autoFlush

theorem carries_pushBatch {entries : List E} (hentries : ∀ e ∈ entries, m.Fit e) :
    Triple (fun e => Good saves e ∧ Carries m want e) (pushBatch sig env entries)
      (fun _ => Carries m (want.map (· + admitted sig.accept m.view entries)))
      (Carries m (want.map (· + admitted sig.accept m.view entries))) := by
  rw [pushBatch, admitted]
  cases hxs : entries.mapM sig.accept with
  | error err => exact Triple.throw fun _ h => by simpa [Except.toOption] using h.2
  | ok xs =>
      have hok : ∀ x ∈ xs, m.Ok x := fun x hmem => by
        obtain ⟨entry, hentry, haccept⟩ := exists_of_forall₂_right (mapM_eq_ok.mp hxs) hmem
        exact hm.accept _ _ (hentries entry hentry) haccept
      change Triple _ (do modify _; autoFlush sig env; return xs.length) _ _
      refine Triple.bind (Q := fun _ e => Good saves e ∧ Carries m (want.map _) e)
        (Triple.modify fun e h => ⟨h.1.push xs, h.2.push hok⟩) fun _ => ?_
      exact Triple.bind (carries_maintained hm (hx _)).autoFlush fun _ => Triple.pure fun _ h => h

end Push

end Operations

/-! ### Sessions -/

/-- Operations that bring only entries and configurations that fit. -/
def Op.Fits (m : Reading E R V) : Op E R → Prop
  | .push e => m.Fit e
  | .pushBatch es => ∀ e ∈ es, m.Fit e
  | .reopen sig _ => m.Honors sig
  | _ => True

/-- Configurations and stores that a session may start with. -/
def Reading.Starts (m : Reading E R V) (sig : Signal E R) (store : Store R) : Prop :=
  m.Honors sig ∧ ∀ r ∈ store.rows, ∃ es, m.Written r.toEncoded es

/-- In a session the rows and the buffer are in order, and so are those that may come back. -/
abbrev Intact (m : Reading E R V) : Session E R → Prop :=
  Holds m.Honors (Carries m none)

section Sessions

variable {m : Reading E R V} {env : StoreEnv} {s : Session E R}

theorem create_carries {sig : Signal E R} {store : Store R} (interval : Nat)
    (h : ∀ r ∈ store.rows, ∃ es, m.Written r.toEncoded es) :
    Carries m none (BlockEngine.create sig store interval) := by
  obtain ⟨N, hN⟩ := exists_rowsHold_iff.mpr h
  exact ⟨fun x hx => absurd hx List.not_mem_nil, N, hN, by rintro _ ⟨⟩⟩

/-- Every operation that fits keeps an engine in order. -/
theorem carries_inductive {kind : Signal E R → Prop} {allows : Op E R → Prop}
    (hkind : ∀ sig, kind sig → m.Honors sig) (hallows : ∀ op, allows op → op.Fits m) :
    Inductive env kind allows (Carries m none) where
  same h hrows hsame := by
    obtain ⟨N, hN, -⟩ := h.rows
    refine ⟨fun x hx => h.ok x ?_, N, hrows ▸ hN, by rintro _ ⟨⟩⟩
    exact (congrArg (x ∈ ·) hsame.buffer).mp hx
  reopen interval _ h := by
    obtain ⟨N, hN, -⟩ := h.rows
    exact create_carries interval (exists_rowsHold_iff.mp ⟨N, hN⟩)
  push hsig hop := carries_push (hkind _ hsig) (fun _ => excuse_none env none) (hallows _ hop)
  pushBatch hsig hop :=
    carries_pushBatch (hkind _ hsig) (fun _ => excuse_none env none) (hallows _ hop)
  flush hsig := (carries_maintained (hkind _ hsig) (excuse_none env none)).flush
  optimize budget hsig :=
    (carries_maintained (hkind _ hsig) (excuse_none env none)).optimizeWithBudget budget
  prune cutoff _ := (carries_prune cutoff).pre fun _ h => h.2

/-- Every session that starts in order and goes on by operations that fit stays in order. -/
theorem Reachable.intact (h : Reachable env m.Starts (Op.Fits m) s) : Intact m s :=
  h.holds (carries_inductive (fun _ h => h) fun _ h => h) (fun _ _ h => h)
    fun _ _ interval hstart => ⟨hstart.1, create_carries interval hstart.2⟩

end Sessions

end Timeless.Engine
