import Timeless.Engine.Flush
import Timeless.Engine.Invariant

/-!
# Listing — the index knows the rows

Queries that do not decode a block trust what the index says of it. Each index entry is for a row of
the store, with the metadata of the row and, if the entry has a partition tag, with the partition of
everything the block is decoded to (`Vouches`). Over a store that never fails the index lists all
rows; a failed call may leave rows behind that it does not know.

`Signal.Tags` is what a configuration must bring: its encoders keep the partitions of the entries,
and the tag that is found in a row's index data when the engine is opened again is right. Then every
operation keeps what the index vouches for, also one that fails (`vouched_inductive`).
-/

namespace Timeless.Engine

open Support Blocks Program

variable {E R : Type}

/-- How blocks are read: the decoder, the partition of an entry, the tag in a row's index data, and
the partitions that index data names. -/
structure BlockReader (E R : Type) where
  decode : List UInt8 → Except String (List E)
  part : E → UInt8
  partitionOf : R → Option UInt8
  Names : R → UInt8 → Prop

variable (br : BlockReader E R)

/-- A tag is named by the index data and is the partition of everything that the block is decoded
to. -/
def BlockReader.Tagged (tag : Option UInt8) (b : Encoded R) : Prop :=
  ∀ p, tag = some p → br.Names b.extra p ∧
    ∀ out, br.decode b.data = .ok out → ∀ x ∈ out, br.part x = p

/-- A block of some entries names their partitions and is decoded to them. -/
structure BlockReader.Keeps (es : List E) (b : Encoded R) : Prop where
  nonempty : es ≠ []
  names : ∀ x ∈ es, br.Names b.extra (br.part x)
  parts : ∀ out, br.decode b.data = .ok out → out.map br.part = es.map br.part

/-- A configuration whose blocks are tagged right. -/
structure Signal.Tags (sig : Signal E R) : Prop where
  decode_eq : sig.decode = br.decode
  part_eq : sig.part = br.part
  partitionOf_eq : sig.partitionOf = br.partitionOf
  encodeRun : ∀ es b, sig.encodeRun es = .ok b → br.Keeps es b
  encodeGroup : ∀ es b, sig.encodeGroup es = .ok b → br.Keeps es b
  tagRun : ∀ es b, sig.encodeRun es = .ok b → br.Tagged (br.partitionOf b.extra) b
  tagGroup : ∀ es b, sig.encodeGroup es = .ok b → br.Tagged (br.partitionOf b.extra) b
  purge : ∀ keep r, sig.purge = some keep → br.partitionOf (keep r) = br.partitionOf r ∧
    ∀ p, br.Names r p → br.Names (keep r) p
  backfill : sig.backfill = none

variable (env : StoreEnv)

/-- What the index says of rows is right, and it knows them all if no call of the store fails. -/
structure Vouches (rows : List (Row R)) (index : List IndexEntry) : Prop where
  listed : ∀ i ∈ index, ∃ r ∈ rows, r.id = i.loc ∧ r.blockMeta = i.blockMeta ∧
    br.Tagged i.partition r.toEncoded
  tagged : ∀ r ∈ rows, br.Tagged (br.partitionOf r.extra) r.toEncoded
  all : env.NeverFails → ∀ r ∈ rows, r.id ∈ index.map IndexEntry.loc

/-- The index is right about the store. -/
def Vouched (e : BlockEngine E R) : Prop :=
  Vouches br env e.store.rows e.index

variable {br env} {sig : Signal E R} {rows rows' : List (Row R)} {index index' : List IndexEntry}

/-! ### Rows and index -/

namespace Vouches

theorem append (h : Vouches br env rows index) (h' : Vouches br env rows' index') :
    Vouches br env (rows ++ rows') (index ++ index') := by
  refine ⟨fun i hi => ?_, fun r hr => ?_, fun hnf r hr => ?_⟩
  · rcases List.mem_append.mp hi with hi | hi
    · obtain ⟨r, hr, hrest⟩ := h.listed i hi
      exact ⟨r, List.mem_append_left _ hr, hrest⟩
    · obtain ⟨r, hr, hrest⟩ := h'.listed i hi
      exact ⟨r, List.mem_append_right _ hr, hrest⟩
  · rcases List.mem_append.mp hr with hr | hr
    · exact h.tagged r hr
    · exact h'.tagged r hr
  · rw [List.map_append]
    rcases List.mem_append.mp hr with hr | hr
    · exact List.mem_append_left _ (h.all hnf r hr)
    · exact List.mem_append_right _ (h'.all hnf r hr)

/-- Rows that go together with their index entries. -/
theorem remove (h : Vouches br env rows index) (removes : List Int) :
    Vouches br env (rows.filter fun r => r.id ∉ removes)
      (index.filter fun i => i.loc ∉ removes) := by
  refine ⟨fun i hi => ?_, fun r hr => h.tagged r (List.mem_of_mem_filter hr), fun hnf r hr => ?_⟩
  · obtain ⟨hi, hkept⟩ := List.mem_filter.mp hi
    obtain ⟨r, hr, hid, hrest⟩ := h.listed i hi
    exact ⟨r, List.mem_filter.mpr ⟨hr, by rw [hid]; exact hkept⟩, hid, hrest⟩
  · obtain ⟨hr, hkept⟩ := List.mem_filter.mp hr
    obtain ⟨i, hi, hloc⟩ := List.mem_map.mp (h.all hnf r hr)
    exact List.mem_map.mpr ⟨i, List.mem_filter.mpr ⟨hi, by rw [hloc]; exact hkept⟩, hloc⟩

theorem perm (h : Vouches br env rows index) (hperm : index'.Perm index) :
    Vouches br env rows index' :=
  ⟨fun i hi => h.listed i (hperm.subset hi), h.tagged,
    fun hnf r hr => (hperm.map IndexEntry.loc).symm.subset (h.all hnf r hr)⟩

theorem mapExtra (h : Vouches br env rows index) {keep : R → R}
    (hkeep : ∀ r, br.partitionOf (keep r) = br.partitionOf r ∧
      ∀ p, br.Names r p → br.Names (keep r) p) :
    Vouches br env (rows.map fun r => { r with extra := keep r.extra }) index := by
  have htag : ∀ {tag : Option UInt8} {r : Row R}, br.Tagged tag r.toEncoded →
      br.Tagged tag { r.toEncoded with extra := keep r.extra } := by
    intro tag r h p hp
    obtain ⟨hnames, hparts⟩ := h p hp
    exact ⟨(hkeep _).2 p hnames, hparts⟩
  refine ⟨fun i hi => ?_, fun r hr => ?_, fun hnf r hr => ?_⟩
  · obtain ⟨r, hr, hid, hmeta, hr'⟩ := h.listed i hi
    exact ⟨_, List.mem_map_of_mem hr, hid, hmeta, htag hr'⟩
  · obtain ⟨old, hold, rfl⟩ := List.mem_map.mp hr
    change br.Tagged (br.partitionOf (keep old.extra)) _
    rw [(hkeep _).1]
    exact htag (h.tagged old hold)
  · obtain ⟨old, hold, rfl⟩ := List.mem_map.mp hr
    exact h.all hnf old hold

/-- After a failure there may be rows that the index does not know. -/
theorem grow (h : Vouches br env rows index) (hfails : ¬env.NeverFails) {new : List (Row R)}
    (hnew : ∀ r ∈ new, br.Tagged (br.partitionOf r.extra) r.toEncoded) :
    Vouches br env (rows ++ new) index := by
  have hunknown : Vouches br env new [] :=
    ⟨fun i hi => absurd hi List.not_mem_nil, hnew, fun hnf => absurd hnf hfails⟩
  have hboth := h.append hunknown
  rwa [List.append_nil] at hboth

theorem forget (h : Vouches br env rows index) (hfails : ¬env.NeverFails)
    (hsub : ∀ i ∈ index', i ∈ index) : Vouches br env rows index' :=
  ⟨fun i hi => h.listed i (hsub i hi), h.tagged, fun hnf => absurd hnf hfails⟩

variable {blocks : List (Encoded R × Option UInt8)} {P : BlockEngine E R → Prop}

/-- New rows and their index entries. -/
theorem new (env : StoreEnv) (locs : List Int) (hlen : locs.length = blocks.length)
    (hblocks : ∀ b ∈ blocks, br.Tagged b.2 b.1 ∧ br.Tagged (br.partitionOf b.1.extra) b.1) :
    Vouches br env (List.zipWith (fun b id => ⟨b, id⟩) (blocks.map Prod.fst) locs)
      (indexEntries blocks locs) := by
  induction blocks generalizing locs with
  | nil =>
      refine ⟨fun i hi => ?_, fun r hr => ?_, fun _ r hr => ?_⟩
      · cases hi
      · cases hr
      · cases hr
  | cons b blocks ih =>
      obtain _ | ⟨loc, locs⟩ := locs
      · simp at hlen
      obtain ⟨htag, hextra⟩ := hblocks b List.mem_cons_self
      have hfirst : Vouches br env [(⟨b.1, loc⟩ : Row R)] [⟨b.1.blockMeta, loc, b.2⟩] := by
        refine ⟨fun i hi => ?_, fun r hr => ?_, fun _ r hr => ?_⟩
        · obtain rfl := List.mem_singleton.mp hi
          exact ⟨_, List.mem_singleton.mpr rfl, rfl, rfl, htag⟩
        · obtain rfl := List.mem_singleton.mp hr
          exact hextra
        · obtain rfl := List.mem_singleton.mp hr
          exact List.mem_singleton.mpr rfl
      exact hfirst.append (ih locs (by simpa using hlen)
        fun b' hb' => hblocks b' (List.mem_cons_of_mem _ hb'))

end Vouches

/-- A block of entries of one partition may be tagged with it. -/
theorem BlockReader.Keeps.tagged {es : List E} {b : Encoded R} (h : br.Keeps es b)
    {tag : Option UInt8} (hparts : ∀ p, tag = some p → ∀ x ∈ es, br.part x = p) :
    br.Tagged tag b := by
  intro p hp
  obtain ⟨x, hx⟩ := List.exists_mem_of_ne_nil _ h.nonempty
  refine ⟨hparts p hp x hx ▸ h.names x hx, fun out hout y hy => ?_⟩
  have hmem : br.part y ∈ es.map br.part := h.parts out hout ▸ List.mem_map_of_mem hy
  obtain ⟨z, hz, hzy⟩ := List.mem_map.mp hmem
  rw [← hzy]
  exact hparts p hp z hz

/-! ### Store calls -/

theorem not_neverFails {call : Nat} {err : String} (h : env.fault call = some err) :
    ¬env.NeverFails := by
  intro hnf
  rw [hnf] at h
  cases h

theorem storeCall_fails (hP : Steady P) {f : Store R → Store R} (hf : ∀ s, (f s).rows = s.rows) :
    Triple P (storeCall env f) (fun _ => P) fun e => P e ∧ ¬env.NeverFails :=
  storeCallOr_cases (fun e he => hP e f (hf _) he)
    fun e _ hfault he => ⟨hP e _ rfl he, not_neverFails hfault⟩

theorem persistIngestRawTotal_fails (hP : Steady P) (added : Nat) :
    Triple P (persistIngestRawTotal env added) (fun _ => P)
      fun e => P e ∧ ¬env.NeverFails := by
  refine Triple.ite (fun _ => Triple.pure fun _ h => h) fun _ => ?_
  exact Triple.bind (storeCall_fails hP (by intro s; rfl)) fun _ =>
    storeCall_fails hP (by intro s; rfl)

/-- The rows and the index as they are. -/
def At (rows : List (Row R)) (index : List IndexEntry) (e : BlockEngine E R) : Prop :=
  e.store.rows = rows ∧ e.index = index

theorem At.steady (rows : List (Row R)) (index : List IndexEntry) :
    Steady (At rows index : BlockEngine E R → Prop) :=
  fun _ _ hrows he => ⟨hrows.trans he.1, he.2⟩

theorem At.vouched {e : BlockEngine E R} (he : At rows index e) (h : Vouches br env rows index) :
    Vouched br env e := by
  rw [Vouched, he.1, he.2]
  exact h

theorem mem_of_zipWith {blocks : List (Encoded R)} {locs : List Int} {r : Row R}
    (h : r ∈ List.zipWith (fun b id => ⟨b, id⟩) blocks locs) :
    r.toEncoded ∈ blocks ∧ r.id ∈ locs := by
  rw [← List.map_uncurry_zip_eq_zipWith] at h
  obtain ⟨p, hp, rfl⟩ := List.mem_map.mp h
  exact List.of_mem_zip hp

/-- An insertion that fails may leave some of its blocks behind. -/
theorem putBlocks_at (blocks : List (Encoded R)) :
    Triple (At rows index) (putBlocks env blocks : EngineM E R (List Int))
      (fun locs e => At (rows ++ List.zipWith (fun b id => ⟨b, id⟩) blocks locs) index e ∧
        locs.length = blocks.length ∧ ∀ l ∈ locs, l ∉ rows.map Row.id)
      fun e => ∃ new : List (Row R), (∀ r ∈ new, r.toEncoded ∈ blocks) ∧ ¬env.NeverFails ∧
        At (rows ++ new) index e := by
  refine Triple.get_bind fun e he => ?_
  cases hfault : env.fault e.store.calls with
  | some err =>
      refine Triple.bind (Triple.modify ?_) fun _ => Triple.throw fun _ he' => he'
      rintro e rfl
      refine ⟨(e.store.newRows env blocks).take (env.written e.store.calls), fun r hr => ?_,
        not_neverFails hfault, ?_, he.2⟩
      · exact (mem_of_zipWith (List.mem_of_mem_take hr)).1
      · change e.store.rows ++ _ = _
        rw [he.1]
  | none =>
      refine Triple.bind (Triple.modify (Q := fun _ => At (rows ++ List.zipWith (fun b id => ⟨b, id⟩)
        blocks (env.newIds e.store.calls e.store.ids blocks.length)) index) ?_) fun _ =>
        Triple.pure fun _ h => ⟨h, env.length_newIds _ _ _, fun l hl => ?_⟩
      · rintro e rfl
        refine ⟨?_, he.2⟩
        change e.store.rows ++ (e.store.newRows env blocks).take blocks.length = _
        rw [he.1, List.take_of_length_le]
        · rfl
        · simp [Store.newRows, env.length_newIds]
      · rw [← he.1]
        exact env.fresh_newIds _ _ _ l hl

theorem addAll_at {E' : BlockEngine E R → Prop} (es index : List IndexEntry) :
    Triple (At rows index) (addAll es) (fun _ => At rows (index ++ es)) E' :=
  addAll_appends (fun _ i _ h => ⟨h.1, congrArg (· ++ [i]) h.2⟩) es index

/-! ### Flush -/

/-- All entries of a run have the partition of the first. -/
theorem part_of_mem_run {buffer run : List E} (hrun : run ∈ flushRuns sig buffer) {p : UInt8}
    (hp : run.head?.map sig.part = some p) : ∀ x ∈ run, sig.part x = p := by
  have hchain := List.isChain_of_mem_splitBy hrun
  clear hrun
  induction run with
  | nil => exact fun x hx => absurd hx List.not_mem_nil
  | cons a run ih =>
      obtain rfl : sig.part a = p := by simpa using hp
      intro x hx
      rcases List.mem_cons.mp hx with rfl | hx
      · rfl
      cases run with
      | nil => cases hx
      | cons b run =>
          obtain ⟨hab, hchain⟩ := List.isChain_cons_cons.mp hchain
          refine ih ?_ hchain x hx
          simpa using (eq_of_beq hab).symm

theorem encodeRuns_tagged (hsig : sig.Tags br) {buffer : List E}
    (h : encodeRuns sig (buffer.insertionSort (FlushLe sig)) = .ok blocks) :
    ∀ b ∈ blocks, br.Tagged b.2 b.1 ∧ br.Tagged (br.partitionOf b.1.extra) b.1 := by
  intro b hb
  obtain ⟨run, hrun, hencode⟩ := exists_of_forall₂_right (mapM_eq_ok.mp h) hb
  obtain ⟨block, hblock, rfl⟩ := bind_pure_eq_ok.mp hencode
  refine ⟨(hsig.encodeRun run block hblock).tagged fun p hp => ?_, hsig.tagRun run block hblock⟩
  have := part_of_mem_run hrun hp
  rwa [hsig.part_eq] at this

theorem vouched_flushInner (hsig : sig.Tags br) : Keeps (Vouched br env) (flushInner sig env) := by
  refine Triple.get_bind fun e he => Triple.ite (fun _ => ?_) fun _ => ?_
  · exact Triple.pure fun _ heq => heq ▸ he
  have hvouch : Vouches br env e.store.rows e.index := he
  have hstay : ∀ e', At e.store.rows e.index e' → Vouched br env e' := fun _ h => h.vouched hvouch
  refine Triple.bind (Triple.modify (Q := fun _ => At e.store.rows e.index) ?_) fun _ => ?_
  · rintro _ rfl
    exact ⟨rfl, rfl⟩
  refine Triple.bind ((Triple.lift_result _).onError fun _ h => hstay _ h.1) fun blocks =>
    Triple.given fun hblocks => ?_
  have htags := encodeRuns_tagged hsig hblocks
  have hnew : ∀ new : List (Row R), (∀ r ∈ new, r.toEncoded ∈ blocks.map Prod.fst) →
      ∀ r ∈ new, br.Tagged (br.partitionOf r.extra) r.toEncoded := by
    intro new hnew r hr
    obtain ⟨b, hb, heq⟩ := List.mem_map.mp (hnew r hr)
    exact heq ▸ (htags b hb).2
  refine Triple.bind ((putBlocks_at _).onError ?_) fun locs =>
    Triple.given fun hlocs => ?_
  · rintro e' ⟨new, hblocks, hfails, hat⟩
    exact hat.vouched (hvouch.grow hfails (hnew new hblocks))
  have hadded := Vouches.new env locs (by simpa using hlocs.1) htags
  refine Triple.bind ((persistIngestRawTotal_fails (At.steady _ _) _).onError
    fun e' h => h.1.vouched (hvouch.grow h.2 hadded.tagged)) fun _ => ?_
  refine Triple.bind (addAll_at _ _) fun _ => Triple.bind (Triple.modify
    (Q := fun _ => Vouched br env) ?_) fun _ => Triple.pure fun _ h => h
  rintro e' ⟨hrows, hindex⟩
  exact At.vouched ⟨hrows, hindex⟩ (hvouch.append hadded)

/-! ### Retention -/

variable {saves : Option (Journal.Saves Int (BlockEngine E R))}

theorem vouched_prune (cutoff : Int64) :
    Triple (fun e => Good saves e ∧ Vouched br env e) (prune sig env cutoff)
      (fun _ => Vouched br env) (Vouched br env) := by
  refine Triple.get_bind fun e he => ?_
  obtain ⟨hgood, hvouch⟩ := he
  refine Triple.bind (Triple.modify (Q := fun _ => At e.store.rows e.index) ?_)
    fun _ => Triple.ite (fun _ => ?_) fun _ => ?_
  · rintro _ rfl
    exact ⟨rfl, rfl⟩
  · exact Triple.pure fun e' h => h.vouched hvouch
  generalize hvictims : (e.index.filter fun i => i.tsMax < cutoff).map IndexEntry.loc = victims
  refine Triple.bind (storeCallOr_triple (Q := fun _ =>
    At (e.store.rows.filter fun r => r.id ∉ victims) e.index) ?_ ?_) fun _ => ?_
  · rintro e' ⟨hrows, hindex⟩
    refine ⟨?_, hindex⟩
    change e'.store.rows.filter _ = _
    rw [hrows]
  · exact fun e' h => At.vouched (At.steady _ _ e' _ rfl h) hvouch
  refine Triple.bind (Triple.modify (Q := fun _ => Vouched br env) ?_)
    fun _ => Triple.pure fun _ h => h
  rintro e' ⟨hrows, hindex⟩
  -- an index entry is old exactly if its row is among those that went
  have hold : (e.index.filter fun i => !decide (i.tsMax < cutoff)) =
      e.index.filter fun i => i.loc ∉ victims := by
    refine List.filter_congr fun i hi => ?_
    have hiff : i.loc ∈ victims ↔ i.tsMax < cutoff := by
      rw [← hvictims]
      constructor
      · intro hmem
        obtain ⟨i', hi', hloc⟩ := List.mem_map.mp hmem
        obtain ⟨hi', hold⟩ := List.mem_filter.mp hi'
        rw [List.inj_on_of_nodup_map hgood.distinct hi' hi hloc] at hold
        simpa using hold
      · intro hlt
        exact List.mem_map_of_mem (List.mem_filter.mpr ⟨hi, by simpa using hlt⟩)
    rw [decide_not, decide_eq_decide.mpr hiff]
  change Vouches br env e'.store.rows (e'.index.filter fun i => !decide (i.tsMax < cutoff))
  rw [hrows, hindex, hold]
  exact hvouch.remove victims

theorem vouched_applyRetention :
    Triple (fun e => Good saves e ∧ Vouched br env e) (applyRetention sig env)
      (fun _ => Vouched br env) (Vouched br env) := by
  refine Triple.get_bind_same fun e he => ?_
  refine Triple.ite (fun _ => Triple.pure fun _ h => h.2) fun _ => ?_
  cases tsRangeMax sig e with
  | none => exact Triple.pure fun _ h => h.2
  | some highWater =>
      refine Triple.ite (fun _ => Triple.pure fun _ h => h.2) fun _ => ?_
      exact Triple.bind (vouched_prune _) fun _ =>
        Triple.bind (Triple.modify fun _ h => h) fun _ => Triple.pure fun _ h => h

/-! ### Maintenance -/

/-- Sources of one partition give entries of that partition. -/
theorem readSources_parts (hsig : sig.Tags br) (hvouch : Vouches br env rows index)
    (hdistinct : (rows.map Row.id).Nodup) {sources : List IndexEntry}
    (hsources : ∀ i ∈ sources, i ∈ index) :
    Triple (At rows index) (readSources sig env sources)
      (fun out e => At rows index e ∧
        ∀ p, (∀ i ∈ sources, i.partition = some p) → ∀ x ∈ out.1, br.part x = p)
      (At rows index) := by
  induction sources with
  | nil => exact Triple.pure fun e he => ⟨he, fun p _ x hx => absurd hx List.not_mem_nil⟩
  | cons i sources ih =>
      have hread : Triple (At rows index) (readBlock env i.loc)
          (fun bytes e => At rows index e ∧ ∀ p, i.partition = some p → ∀ out,
            br.decode bytes = .ok out → ∀ x ∈ out, br.part x = p)
          (At rows index : BlockEngine E R → Prop) := by
        refine Triple.bind ((At.steady rows index).storeCall (by intro s; rfl)) fun _ =>
          Triple.get_bind fun e he => ?_
        refine Triple.lift (fun bytes hbytes e' heq => ?_) fun e' heq => heq ▸ he
        subst heq
        refine ⟨he, ?_⟩
        obtain ⟨r, hfind, rfl⟩ := Option.map_eq_some_iff.mp (okOr_eq_ok.mp hbytes)
        rw [Store.find, he.1] at hfind
        obtain ⟨r', hr', hid, -, htag⟩ := hvouch.listed i (hsources i List.mem_cons_self)
        have hloc : r.id = i.loc := by simpa using List.find?_some hfind
        have hmem := List.mem_of_find?_eq_some hfind
        rw [List.inj_on_of_nodup_map hdistinct hr' hmem (hid.trans hloc.symm)] at htag
        exact fun p hp => (htag p hp).2
      refine Triple.bind hread fun bytes => Triple.given fun htag => ?_
      refine Triple.bind (Triple.lift (Q := fun entries e => At rows index e ∧
        br.decode bytes = .ok entries) (fun entries h e he => ⟨he, hsig.decode_eq ▸ h⟩)
        fun e he => he) fun entries => Triple.given fun hdecode => ?_
      refine Triple.bind (ih fun i' hi' => hsources i' (List.mem_cons_of_mem _ hi')) fun more =>
        Triple.given fun hmore => Triple.pure fun e he => ⟨he, fun p hp x hx => ?_⟩
      rcases List.mem_append.mp hx with hx | hx
      · exact htag p (hp i List.mem_cons_self) entries hdecode x hx
      · exact hmore p (fun i' hi' => hp i' (List.mem_cons_of_mem _ hi')) x hx

/-- The blocks that take the place of groups are tagged like the groups. -/
theorem rewriteGroups_tagged (hsig : sig.Tags br) (hvouch : Vouches br env rows index)
    (hdistinct : (rows.map Row.id).Nodup) {groups : List OptimizeGroup}
    (hsources : ∀ i ∈ sourcesOf groups, i ∈ index)
    (hparts : ∀ g ∈ groups, ∀ p, g.partition = some p → ∀ i ∈ g.sources, i.partition = some p) :
    Triple (At rows index) (rewriteGroups sig env groups)
      (fun done e => At rows index e ∧ done.map Rewritten.group = groups ∧
        ∀ r ∈ done, br.Tagged r.group.partition r.block ∧
          br.Tagged (br.partitionOf r.block.extra) r.block)
      (At rows index) := by
  induction groups with
  | nil => exact Triple.pure fun e he => ⟨he, rfl, fun r hr => absurd hr List.not_mem_nil⟩
  | cons g groups ih =>
      have hfirst : Triple (At rows index) (rewriteGroup sig env g)
          (fun r e => At rows index e ∧ r.group = g ∧ br.Tagged r.group.partition r.block ∧
            br.Tagged (br.partitionOf r.block.extra) r.block)
          (At rows index : BlockEngine E R → Prop) := by
        refine Triple.bind (readSources_parts hsig hvouch hdistinct fun i hi =>
          hsources i (List.mem_append_left _ hi)) fun out => Triple.given fun hout => ?_
        have hperm := List.perm_insertionSort (fun a b => sig.ts a ≤ sig.ts b) out.1
        generalize out.1.insertionSort (fun a b => sig.ts a ≤ sig.ts b) = entries at hperm
        refine Triple.bind (Triple.lift (Q := fun block e => At rows index e ∧
          sig.encodeGroup entries = .ok block) (fun _ h _ he => ⟨he, h⟩) fun _ he => he)
          fun block => Triple.given fun hblock => Triple.pure fun e he => ⟨he, rfl, ?_, ?_⟩
        · refine (hsig.encodeGroup _ _ hblock).tagged fun p hp x hx => ?_
          exact hout p (hparts g List.mem_cons_self p hp) x (hperm.subset hx)
        · exact hsig.tagGroup _ _ hblock
      refine Triple.bind hfirst fun r => Triple.given fun hr => ?_
      refine Triple.bind (ih (fun i hi => hsources i (List.mem_append_right _ hi))
        fun g' hg' => hparts g' (List.mem_cons_of_mem _ hg')) fun done => Triple.given fun hdone => ?_
      refine Triple.pure fun e he => ⟨he, by rw [List.map_cons, hr.1, hdone.1], fun r' hr' => ?_⟩
      rcases List.mem_cons.mp hr' with rfl | hr'
      · exact hr.2
      · exact hdone.2 r' hr'

theorem vouched_replaceBlocks (hvouch : Vouches br env rows index) {done : List (Rewritten R)}
    (hsources : ∀ i ∈ sourcesOf (done.map Rewritten.group), i ∈ index)
    (hdone : ∀ r ∈ done, br.Tagged r.group.partition r.block ∧
      br.Tagged (br.partitionOf r.block.extra) r.block) :
    Triple (At rows index) (replaceBlocks env done : EngineM E R Unit) (fun _ => Vouched br env)
      (Vouched br env) := by
  generalize hrem : done.flatMap (fun r => r.group.sources.map IndexEntry.loc) = removes
  have hremoves : ∀ l ∈ removes, l ∈ rows.map Row.id := by
    rw [← hrem]
    intro l hl
    obtain ⟨r, hr, hl⟩ := List.mem_flatMap.mp hl
    obtain ⟨i, hi, rfl⟩ := List.mem_map.mp hl
    obtain ⟨row, hrow, hid, -⟩ := hvouch.listed i
      (hsources i (List.mem_flatMap.mpr ⟨r.group, List.mem_map_of_mem hr, hi⟩))
    exact hid ▸ List.mem_map_of_mem hrow
  unfold replaceBlocks
  rw [hrem]
  refine Triple.bind ((putBlocks_at _).onError ?_) fun locs =>
    Triple.given fun hlocs => ?_
  · rintro e ⟨new, hblocks, hfails, hat⟩
    refine hat.vouched (hvouch.grow hfails fun r hr => ?_)
    obtain ⟨d, hd, heq⟩ := List.mem_map.mp (hblocks r hr)
    exact heq ▸ (hdone d hd).2
  obtain ⟨hlen, hfresh⟩ := hlocs
  have htags : ∀ b ∈ done.map fun r => (r.block, r.group.partition),
      br.Tagged b.2 b.1 ∧ br.Tagged (br.partitionOf b.1.extra) b.1 := by
    simpa using hdone
  have hnew := Vouches.new env locs (by simpa using hlen) htags
  have hblocks : (done.map fun r => (r.block, r.group.partition)).map Prod.fst =
      done.map Rewritten.block := by
    rw [List.map_map]
    rfl
  rw [hblocks] at hnew
  have hids : ∀ r ∈ List.zipWith (fun b id => (⟨b, id⟩ : Row R)) (done.map Rewritten.block) locs,
      r.id ∈ locs := fun r hr => (mem_of_zipWith hr).2
  generalize List.zipWith (fun b id => (⟨b, id⟩ : Row R)) (done.map Rewritten.block) locs = new
    at hnew hids ⊢
  refine Triple.bind (Triple.modify
    (Q := fun _ => At (rows ++ new) (index.filter fun i => i.loc ∉ removes)) ?_)
    fun _ => Triple.bind (addAll_at _ _) fun _ => storeCallOr_cases ?_ ?_
  · rintro e ⟨hrows, hindex⟩
    refine ⟨hrows, ?_⟩
    change (e.index.filter fun i => !removes.contains i.loc) = _
    rw [hindex]
    exact List.filter_congr fun i _ => by simp
  · rintro e ⟨hrows, hindex⟩
    change Vouches br env (e.store.rows.filter fun r => r.id ∉ removes) e.index
    rw [hrows, hindex, List.filter_append]
    refine (hvouch.remove removes).append ?_
    rw [List.filter_eq_self.mpr]
    · exact hnew
    · exact fun r hr => decide_eq_true fun hgone => hfresh _ (hids r hr) (hremoves _ hgone)
  · -- the old rows stay behind
    intro e err hfault hat
    refine At.vouched (At.steady _ _ e _ rfl hat) (Vouches.append ?_ hnew)
    exact hvouch.forget (not_neverFails hfault) fun i hi => List.mem_of_mem_filter hi

theorem vouched_optimizeInner (hsig : sig.Tags br) (budget : Option Nat) :
    Triple (fun e => Good saves e ∧ Vouched br env e) (optimizeInner sig env budget)
      (fun _ => Vouched br env) (Vouched br env) := by
  refine Triple.get_bind fun e he => Triple.ite (fun _ => ?_) fun _ => ?_
  · exact Triple.pure fun _ heq => heq ▸ he.2
  obtain ⟨hgood, hvouch⟩ := he
  have hsources := selected_sources sig.plan budget e.index
  have hparts : ∀ g ∈ (selectGroups budget [] 0 (planOptimize sig.plan e.index
      (candidatesOf sig.plan e.index))).1, ∀ p, g.partition = some p →
        ∀ i ∈ g.sources, i.partition = some p := fun g hg p hp => selectGroups_partition hg hp
  generalize selectGroups budget [] 0 (planOptimize sig.plan e.index
    (candidatesOf sig.plan e.index)) = selected at hsources hparts
  refine Triple.bind ((rewriteGroups_tagged hsig hvouch e.store.distinct hsources hparts).imp ?_
    (fun _ _ h => h) fun _ h => h.vouched hvouch) fun done => Triple.given fun hdone => ?_
  · rintro _ rfl
    exact ⟨rfl, rfl⟩
  refine Triple.bind (vouched_replaceBlocks hvouch ?_ hdone.2) fun _ => ?_
  · rw [hdone.1]
    exact hsources
  refine Triple.bind (Steady.persistCompressionTotals ?_ _ _ _ _) fun _ => Triple.pure fun _ h => h
  intro e' f hrows h
  rw [Vouched, show (e'.onStore f).store.rows = e'.store.rows from hrows]
  exact h

theorem vouched_maybePurge (hsig : sig.Tags br) : Keeps (Vouched br env) (maybePurge sig env) := by
  refine Keeps.get_bind fun e => ?_
  cases hpurge : sig.purge with
  | none => exact Keeps.pure _
  | some keep =>
      refine Keeps.ite (.pure _) (.bind (.modify fun e h => h) fun _ => ?_)
      exact storeCallOr_triple (fun e h => Vouches.mapExtra h fun r => hsig.purge keep r hpurge)
        fun e h => h

/-- Flushing and maintenance keep what the index vouches for. -/
theorem vouched_maintained (hsig : sig.Tags br) :
    Maintained sig env saves (Vouched br env) (Vouched br env) where
  flushInner := (vouched_flushInner hsig).pre fun _ h => h.2
  maybePurge := (vouched_maybePurge hsig).pre fun _ h => h.2
  optimizeInner := vouched_optimizeInner hsig
  backfill budget := by
    rw [backfillDurationBounds, hsig.backfill]
    exact Triple.pure fun _ h => h.2
  applyRetention := vouched_applyRetention
  counted _ _ h := h
  failed _ h := h

/-! ### Sessions -/

/-- Rows that are tagged right are vouched for by the index that an engine makes of them. -/
theorem vouched_create (hsig : sig.Tags br) {store : Store R} (interval : Nat)
    (h : ∀ r ∈ store.rows, br.Tagged (br.partitionOf r.extra) r.toEncoded) :
    Vouched br env (.create sig store interval) := by
  refine ⟨fun i hi => ?_, h, fun _ r hr => ?_⟩
  · obtain ⟨r, hr, rfl⟩ := List.mem_map.mp hi
    refine ⟨r, hr, rfl, rfl, ?_⟩
    change br.Tagged (sig.partitionOf r.extra) r.toEncoded
    rw [hsig.partitionOf_eq]
    exact h r hr
  · change r.id ∈ (store.rows.map _).map IndexEntry.loc
    rw [List.map_map]
    exact List.mem_map_of_mem hr

/-- Every operation keeps what the index vouches for. -/
theorem vouched_inductive {kind : Signal E R → Prop} {allows : Op E R → Prop}
    (hkind : ∀ sig, kind sig → sig.Tags br) : Inductive env kind allows (Vouched br env) where
  same h hrows hsame := by
    rw [Vouched, hrows]
    exact Vouches.perm h hsame.index
  reopen interval hsig h := vouched_create (hkind _ hsig) interval h.tagged
  push hsig _ := Triple.bind (Triple.lift (fun _ _ _ h => h) fun _ h => h.2) fun x =>
    Triple.bind (Triple.modify fun e h => ⟨h.1.push [x], h.2⟩) fun _ =>
      (vouched_maintained (hkind _ hsig)).autoFlush
  pushBatch hsig _ := Triple.bind (Triple.lift (fun _ _ _ h => h) fun _ h => h.2) fun xs =>
    Triple.bind (Triple.modify fun e h => ⟨h.1.push xs, h.2⟩) fun _ =>
      Triple.bind (vouched_maintained (hkind _ hsig)).autoFlush fun _ => Triple.pure fun _ h => h
  flush hsig := (vouched_maintained (hkind _ hsig)).flush
  optimize budget hsig := (vouched_maintained (hkind _ hsig)).optimizeWithBudget budget
  prune cutoff _ := vouched_prune cutoff

end Timeless.Engine
