import Timeless.Blocks.Entry
import Mathlib.Data.List.Sort
import Mathlib.Data.List.Perm.Subperm

/-!
# Plan — which blocks maintenance rewrites together

Logs and traces are kept by two engines of one design: entries are buffered, flushed into raw
blocks that hold one partition each (a level, a status), and rewritten by maintenance. The planner
only reads the index. Raw blocks of a partition are grouped in time order up to a target size;
compressed blocks are grouped by size and merged where that pays.

The engines differ in how a partition is numbered, in what a raw codec is, and in one rule: for
logs a window that has ended is merged whatever its size, and a merge must not span a wide gap.
`PlanConfig` holds these differences.

* `planOptimize_subperm`: every candidate is a source of at most one group;
* `selectGroups_sources`: so it stays under a budget;
* `selectGroups_partition`: a group of a partition takes only blocks of that partition.
-/

namespace Timeless.Engine

open Blocks

/-! ### Saturating arithmetic -/

/-- Saturating addition. -/
def satAdd (a b : Int64) : Int64 := .ofIntClamp (a.toInt + b.toInt)

/-- Saturating subtraction. -/
def satSub (a b : Int64) : Int64 := .ofIntClamp (a.toInt - b.toInt)

/-- Saturating multiplication. -/
def satMul (a b : Int64) : Int64 := .ofIntClamp (a.toInt * b.toInt)

theorem toInt_ofIntClamp (x : Int) :
    (Int64.ofIntClamp x).toInt = max Int64.minValue.toInt (min x Int64.maxValue.toInt) := by
  have hrange : Int64.minValue.toInt ≤ Int64.maxValue.toInt := by decide
  unfold Int64.ofIntClamp
  split_ifs with hlow hhigh
  · rw [Int64.toInt_ofIntLE]
    omega
  · omega
  · omega

theorem satSub_le_satSub {a b a' b' : Int64} (ha : a ≤ a') (hb : b' ≤ b) :
    satSub a b ≤ satSub a' b' := by
  rw [Int64.le_iff_toInt_le] at ha hb ⊢
  rw [satSub, satSub, toInt_ofIntClamp, toInt_ofIntClamp]
  omega

/-- Addition of `usize` and of `u64`. -/
def usizeAdd (a b : Nat) : Nat := min (a + b) (2 ^ 64 - 1)

/-- Saturating multiplication of sizes. -/
def usizeMul (a b : Nat) : Nat := min (a * b) (2 ^ 64 - 1)

/-- Division, rounded up. -/
def divCeil (a b : Nat) : Nat := (a + b - 1) / b

/-! ### The index -/

/-- What the engine keeps in memory of a stored block. -/
structure IndexEntry where
  blockMeta : BlockMeta
  loc : Int
  partition : Option UInt8
  deriving DecidableEq

namespace IndexEntry

/-- The earliest time in the block. -/
def tsMin (e : IndexEntry) : Int64 := e.blockMeta.tsMin

/-- The latest time in the block. -/
def tsMax (e : IndexEntry) : Int64 := e.blockMeta.tsMax

/-- The entries in the block. -/
def count (e : IndexEntry) : Nat := e.blockMeta.entryCount

/-- Time order. -/
def TimeLe (a b : IndexEntry) : Prop :=
  a.tsMin < b.tsMin ∨ a.tsMin = b.tsMin ∧ a.tsMax ≤ b.tsMax

instance : DecidableRel TimeLe := fun a b => by unfold TimeLe; infer_instance

/-- Size order, then time order. -/
def SizeLe (a b : IndexEntry) : Prop :=
  a.count < b.count ∨ a.count = b.count ∧ a.TimeLe b

instance : DecidableRel SizeLe := fun a b => by unfold SizeLe; infer_instance

end IndexEntry

/-- Why a group is rewritten. -/
inductive OptimizeKind where
  | rawCompression
  | compressedMerge
  deriving DecidableEq

/-- Blocks that are rewritten into one. -/
structure OptimizeGroup where
  sources : List IndexEntry
  partition : Option UInt8
  kind : OptimizeKind

/-- The entries of all sources. -/
def OptimizeGroup.entries (g : OptimizeGroup) : Nat :=
  (g.sources.map IndexEntry.count).sum

/-- What the planner is told. -/
structure PlanConfig where
  /-- partitions are numbered below this; all other blocks are one more partition -/
  partitions : Nat
  isRaw : UInt8 → Bool
  mergeTargetEntries : Nat
  mergeMaxTsSpan : Int64
  /-- the limit on the growth of a merged block, for the engine that looks at time windows -/
  spanGrowthLimit : Option Int64

variable (cfg : PlanConfig)

/-- Does the block fit into the time span of a merge? -/
def mergedSpanFits (currentMin currentMax : Int64) (next : BlockMeta) (maxSpan : Int64) : Bool :=
  satSub (max currentMax next.tsMax) (min currentMin next.tsMin) ≤ maxSpan

/-! ### Raw blocks -/

/-- The rest of the grouping, with the group at hand, its entries and its time range. -/
def planRawFrom (partition : Option UInt8) (current : List IndexEntry) (entries : Nat)
    (lo hi : Int64) : List IndexEntry → List OptimizeGroup
  | [] => if current.isEmpty then [] else [⟨current, partition, .rawCompression⟩]
  | e :: es =>
      if current.isEmpty then planRawFrom partition [e] (usizeAdd entries e.count) e.tsMin e.tsMax es
      else if usizeAdd entries e.count ≤ cfg.mergeTargetEntries &&
          mergedSpanFits lo hi e.blockMeta cfg.mergeMaxTsSpan then
        planRawFrom partition (current ++ [e]) (usizeAdd entries e.count) (min lo e.tsMin)
          (max hi e.tsMax) es
      else
        ⟨current, partition, .rawCompression⟩ ::
          planRawFrom partition [e] (usizeAdd 0 e.count) e.tsMin e.tsMax es

/-- Groups of raw blocks, in the order of time. -/
def planRawGroups (entries : List IndexEntry) (partition : Option UInt8) : List OptimizeGroup :=
  planRawFrom cfg partition [] 0 0 0 (entries.insertionSort IndexEntry.TimeLe)

/-! ### Compressed blocks -/

/-- Does the merged block stay close to the time its sources cover? -/
def mergeSpanGrowthOk (sources : List IndexEntry) (limit : Int64) : Bool :=
  let covered := (sources.map fun e => satSub e.tsMax e.tsMin).foldl satAdd 0
  match (sources.map IndexEntry.tsMin).min?, (sources.map IndexEntry.tsMax).max? with
  | some unionMin, some unionMax => satSub unionMax unionMin ≤ satMul covered (max limit 1)
  | _, _ => true

/-- The rules against rewriting the same data again and again. -/
def mergePays (sources : List IndexEntry) : Bool :=
  let entries := (sources.map IndexEntry.count).sum
  let largest := (sources.map IndexEntry.count).max?.getD 0
  !(entries < divCeil cfg.mergeTargetEntries 2 || entries < usizeMul largest 2) &&
    cfg.spanGrowthLimit.all (mergeSpanGrowthOk sources)

/-- A merge of two blocks or more, if its segment is closed or it pays. -/
def pushCompressedGroup (partition : Option UInt8) (closed : Bool) (sources : List IndexEntry) :
    List OptimizeGroup :=
  if sources.length < 2 then []
  else if closed || mergePays cfg sources then [⟨sources, partition, .compressedMerge⟩]
  else []

/-- Fill merges up to the limit on entries. -/
def planSegmentFrom (partition : Option UInt8) (closed : Bool) (current : List IndexEntry)
    (entries : Nat) : List IndexEntry → List OptimizeGroup
  | [] => pushCompressedGroup cfg partition closed current
  | e :: es =>
      let mergeLimit := usizeAdd cfg.mergeTargetEntries (divCeil cfg.mergeTargetEntries 4)
      if !current.isEmpty && mergeLimit < usizeAdd entries e.count then
        pushCompressedGroup cfg partition closed current ++
          planSegmentFrom partition closed [e] (usizeAdd 0 e.count) es
      else planSegmentFrom partition closed (current ++ [e]) (usizeAdd entries e.count) es

/-- Has the window of a segment ended a full span before the newest data? -/
def segmentClosed (storeNewest : Int64) (entries : List IndexEntry) : Bool :=
  cfg.spanGrowthLimit.isSome &&
    (entries.map IndexEntry.tsMax).max?.any fun m => m ≤ satSub storeNewest cfg.mergeMaxTsSpan

/-- Merges within one segment, small blocks first. -/
def planCompressedSegment (partition : Option UInt8) (storeNewest : Int64)
    (entries : List IndexEntry) : List OptimizeGroup :=
  planSegmentFrom cfg partition (segmentClosed cfg storeNewest entries) [] 0
    (entries.insertionSort IndexEntry.SizeLe)

/-- Cut compressed blocks into segments that fit a time span. -/
def planCompressedFrom (partition : Option UInt8) (storeNewest : Int64) (segment : List IndexEntry)
    (lo hi : Int64) : List IndexEntry → List OptimizeGroup
  | [] => planCompressedSegment cfg partition storeNewest segment
  | e :: es =>
      if segment.isEmpty then planCompressedFrom partition storeNewest [e] e.tsMin e.tsMax es
      else if mergedSpanFits lo hi e.blockMeta cfg.mergeMaxTsSpan then
        planCompressedFrom partition storeNewest (segment ++ [e]) (min lo e.tsMin) (max hi e.tsMax) es
      else
        planCompressedSegment cfg partition storeNewest segment ++
          planCompressedFrom partition storeNewest [e] e.tsMin e.tsMax es

/-- Merges of compressed blocks. -/
def planCompressedGroups (entries : List IndexEntry) (partition : Option UInt8)
    (storeNewest : Int64) : List OptimizeGroup :=
  planCompressedFrom cfg partition storeNewest [] 0 0 (entries.insertionSort IndexEntry.TimeLe)

/-! ### The plan -/

/-- Raw groups first; then the oldest, then by partition. -/
def OptimizeGroup.Le (a b : OptimizeGroup) : Prop :=
  let oldest (g : OptimizeGroup) := (g.sources.map IndexEntry.tsMin).min?.getD Int64.maxValue
  let rank (g : OptimizeGroup) := match g.kind with
    | .rawCompression => 0
    | .compressedMerge => 1
  let slot (g : OptimizeGroup) := g.partition.elim 0 fun p => p.toNat + 1
  rank a < rank b ∨ rank a = rank b ∧
    (oldest a < oldest b ∨ oldest a = oldest b ∧ slot a ≤ slot b)

instance : DecidableRel OptimizeGroup.Le := fun a b => by unfold OptimizeGroup.Le; infer_instance

/-- The place of a block's partition. -/
def bucketOf (e : IndexEntry) : Nat :=
  e.partition.elim cfg.partitions UInt8.toNat

/-- The groups of one partition. -/
def planBucket (storeNewest : Int64) (candidates : List IndexEntry) (bucket : Nat) :
    List OptimizeGroup :=
  let partition := if bucket < cfg.partitions then some bucket.toUInt8 else none
  let here := candidates.filter fun e => bucketOf cfg e = bucket
  planRawGroups cfg (here.filter fun e => cfg.isRaw e.blockMeta.codec) partition ++
    planCompressedGroups cfg (here.filter fun e => !cfg.isRaw e.blockMeta.codec) partition
      storeNewest

/-- All groups, raw ones first. -/
def planOptimize (index candidates : List IndexEntry) : List OptimizeGroup :=
  let storeNewest := (index.map IndexEntry.tsMax).max?.getD Int64.minValue
  ((List.range (cfg.partitions + 1)).flatMap (planBucket cfg storeNewest candidates)).insertionSort
    OptimizeGroup.Le

/-- The blocks maintenance looks at. -/
def candidatesOf (index : List IndexEntry) : List IndexEntry :=
  index.filter fun e => cfg.isRaw e.blockMeta.codec || e.count < cfg.mergeTargetEntries

/-- The groups that fit a budget of entries; the first always does. -/
def selectGroups (budget : Option Nat) (selected : List OptimizeGroup) (entries : Nat) :
    List OptimizeGroup → List OptimizeGroup × Bool
  | [] => (selected, false)
  | g :: gs =>
      if !selected.isEmpty && budget.any (· < usizeAdd entries g.entries) then (selected, true)
      else selectGroups budget (selected ++ [g]) (usizeAdd entries g.entries) gs

/-! ### Every block is in at most one group -/

/-- The blocks that groups rewrite. -/
def sourcesOf (groups : List OptimizeGroup) : List IndexEntry :=
  groups.flatMap OptimizeGroup.sources

@[simp] theorem sourcesOf_nil : sourcesOf [] = [] := rfl

@[simp] theorem sourcesOf_cons (g : OptimizeGroup) (gs : List OptimizeGroup) :
    sourcesOf (g :: gs) = g.sources ++ sourcesOf gs := rfl

@[simp] theorem sourcesOf_append (gs hs : List OptimizeGroup) :
    sourcesOf (gs ++ hs) = sourcesOf gs ++ sourcesOf hs := List.flatMap_append

variable {cfg} {partition : Option UInt8}

variable {g : OptimizeGroup} {current es : List IndexEntry} {lo hi newest : Int64}

/-- Raw blocks are all rewritten, in their order. -/
theorem planRawFrom_sources {n : Nat} :
    sourcesOf (planRawFrom cfg partition current n lo hi es) = current ++ es := by
  induction es generalizing current n lo hi with
  | nil =>
      rw [planRawFrom]
      split_ifs with hempty
      · simpa using hempty.symm
      · simp
  | cons e es ih =>
      rw [planRawFrom]
      split_ifs with hempty
      · simp [ih, List.isEmpty_iff.mp hempty]
      · simp [ih]
      · simp [ih]

theorem planRawGroups_sources (entries : List IndexEntry) (partition : Option UInt8) :
    (sourcesOf (planRawGroups cfg entries partition)).Perm entries := by
  rw [planRawGroups, planRawFrom_sources, List.nil_append]
  exact List.perm_insertionSort _ _

theorem pushCompressedGroup_sources (partition : Option UInt8) (closed : Bool)
    (sources : List IndexEntry) :
    (sourcesOf (pushCompressedGroup cfg partition closed sources)).Sublist sources := by
  rw [pushCompressedGroup]
  split_ifs <;> simp

variable {closed : Bool}

theorem planSegmentFrom_sources {n : Nat} :
    (sourcesOf (planSegmentFrom cfg partition closed current n es)).Sublist (current ++ es) := by
  induction es generalizing current n with
  | nil => simpa [planSegmentFrom] using pushCompressedGroup_sources partition closed current
  | cons e es ih =>
      rw [planSegmentFrom]
      split_ifs
      · rw [sourcesOf_append]
        exact (pushCompressedGroup_sources partition closed current).append ih
      · simpa using (ih : (sourcesOf (planSegmentFrom cfg partition closed (current ++ [e]) _ es)).Sublist _)

theorem planCompressedSegment_sources (partition : Option UInt8) (newest : Int64)
    (entries : List IndexEntry) :
    (sourcesOf (planCompressedSegment cfg partition newest entries)).Subperm entries := by
  rw [planCompressedSegment]
  exact planSegmentFrom_sources.subperm.trans (List.perm_insertionSort _ _).subperm

variable {segment index : List IndexEntry}

theorem planCompressedFrom_sources {es : List IndexEntry} :
    (sourcesOf (planCompressedFrom cfg partition newest segment lo hi es)).Subperm
      (segment ++ es) := by
  induction es generalizing segment lo hi with
  | nil => simpa [planCompressedFrom] using planCompressedSegment_sources partition newest segment
  | cons e es ih =>
      rw [planCompressedFrom]
      split_ifs with hempty
      · simpa [List.isEmpty_iff.mp hempty] using
          (ih : (sourcesOf (planCompressedFrom cfg partition newest [e] _ _ es)).Subperm _)
      · simpa using
          (ih : (sourcesOf (planCompressedFrom cfg partition newest (segment ++ [e]) _ _ es)).Subperm _)
      · rw [sourcesOf_append]
        exact (planCompressedSegment_sources partition newest segment).append ih

theorem planBucket_sources (newest : Int64) (candidates : List IndexEntry) (bucket : Nat) :
    (sourcesOf (planBucket cfg newest candidates bucket)).Subperm
      (candidates.filter fun e => bucketOf cfg e = bucket) := by
  rw [planBucket, sourcesOf_append]
  refine ((planRawGroups_sources _ _).subperm.append
    (planCompressedFrom_sources.trans ?_)).trans (List.filter_append_perm _ _).subperm
  rw [List.nil_append]
  exact (List.perm_insertionSort _ _).subperm

/-- A list is made of its parts. -/
theorem flatMap_filter_perm {α : Type} (l : List α) (part : α → Nat) (n : Nat) :
    ((List.range n).flatMap fun k => l.filter fun x => part x = k).Perm
      (l.filter fun x => part x < n) := by
  induction n with
  | zero => simp
  | succ n ih =>
      rw [List.range_succ, List.flatMap_append, List.flatMap_singleton]
      refine (ih.append_right _).trans ?_
      have hsplit := List.filter_append_perm (fun x => decide (part x < n))
        (l.filter fun x => part x < n + 1)
      rw [List.filter_filter, List.filter_filter] at hsplit
      refine .trans (.of_eq ?_) hsplit
      congr 1 <;>
      · refine List.filter_congr fun x _ => ?_
        rw [Bool.eq_iff_iff]
        simp only [decide_eq_true_eq, Bool.and_eq_true, Bool.not_eq_true', decide_eq_false_iff_not]
        omega

/-- Pieces of the parts of a list, taken over all parts, are a piece of the list. -/
theorem flatMap_subperm {α : Type} {l : List α} {part : α → Nat} {pieces : Nat → List α}
    (h : ∀ n, (pieces n).Subperm (l.filter fun x => part x = n)) (n : Nat) :
    ((List.range n).flatMap pieces).Subperm (l.filter fun x => part x < n) := by
  refine List.Subperm.trans ?_ (flatMap_filter_perm l part n).subperm
  induction List.range n with
  | nil => simp
  | cons k ks ih => exact (h k).append ih

/-- Every candidate is a source of at most one group. -/
theorem planOptimize_subperm (index candidates : List IndexEntry) :
    (sourcesOf (planOptimize cfg index candidates)).Subperm candidates := by
  rw [planOptimize]
  refine ((List.perm_insertionSort _ _).flatMap_right _).subperm.trans ?_
  rw [List.flatMap_assoc]
  exact (flatMap_subperm (planBucket_sources _ candidates) _).trans List.filter_sublist.subperm

variable {budget : Option Nat}

theorem selectGroups_eq {selected gs : List OptimizeGroup} {n : Nat} :
    ∃ k, (selectGroups budget selected n gs).1 = selected ++ gs.take k := by
  induction gs generalizing selected n with
  | nil => exact ⟨0, by simp [selectGroups]⟩
  | cons g gs ih =>
      rw [selectGroups]
      split_ifs
      · exact ⟨0, by simp⟩
      · obtain ⟨k, hk⟩ := @ih (selected ++ [g]) (usizeAdd n g.entries)
        exact ⟨k + 1, by simp [hk]⟩

/-- A budget leaves out groups of the plan, and adds none. -/
theorem selectGroups_sources (budget : Option Nat) (gs : List OptimizeGroup) :
    (sourcesOf (selectGroups budget [] 0 gs).1).Sublist (sourcesOf gs) := by
  obtain ⟨k, hk⟩ := @selectGroups_eq budget [] gs 0
  rw [hk, List.nil_append]
  conv_rhs => rw [← List.take_append_drop k gs, sourcesOf_append]
  exact List.sublist_append_left _ _

/-! ### Groups are of one partition, and never empty -/

theorem planRawFrom_group {n : Nat} (h : g ∈ planRawFrom cfg partition current n lo hi es) :
    g.partition = partition ∧ g.sources ≠ [] := by
  induction es generalizing current n lo hi with
  | nil =>
      rw [planRawFrom] at h
      split_ifs at h with hempty
      · cases h
      · rw [List.mem_singleton.mp h]
        exact ⟨rfl, mt List.isEmpty_iff.mpr hempty⟩
  | cons e es ih =>
      rw [planRawFrom] at h
      split_ifs at h with hempty
      · exact ih h
      · exact ih h
      · rcases List.mem_cons.mp h with rfl | h
        · exact ⟨rfl, mt List.isEmpty_iff.mpr hempty⟩
        · exact ih h

theorem pushCompressedGroup_group {sources : List IndexEntry}
    (h : g ∈ pushCompressedGroup cfg partition closed sources) :
    g.partition = partition ∧ 2 ≤ g.sources.length := by
  rw [pushCompressedGroup] at h
  split_ifs at h with hshort
  · cases h
  · rw [List.mem_singleton.mp h]
    exact ⟨rfl, not_lt.mp hshort⟩
  · cases h

theorem planSegmentFrom_group {n : Nat} (h : g ∈ planSegmentFrom cfg partition closed current n es) :
    g.partition = partition ∧ 2 ≤ g.sources.length := by
  induction es generalizing current n with
  | nil => exact pushCompressedGroup_group h
  | cons e es ih =>
      rw [planSegmentFrom] at h
      split_ifs at h
      · rcases List.mem_append.mp h with h | h
        · exact pushCompressedGroup_group h
        · exact ih h
      · exact ih h

theorem planCompressedFrom_group {es : List IndexEntry}
    (h : g ∈ planCompressedFrom cfg partition newest segment lo hi es) :
    g.partition = partition ∧ 2 ≤ g.sources.length := by
  induction es generalizing segment lo hi with
  | nil => exact planSegmentFrom_group h
  | cons e es ih =>
      rw [planCompressedFrom] at h
      split_ifs at h
      · exact ih h
      · exact ih h
      · rcases List.mem_append.mp h with h | h
        · exact planSegmentFrom_group h
        · exact ih h

variable {candidates : List IndexEntry}

theorem planBucket_group {bucket : Nat} (h : g ∈ planBucket cfg newest candidates bucket) :
    g.partition = (if bucket < cfg.partitions then some bucket.toUInt8 else none) ∧
      g.sources ≠ [] := by
  rcases List.mem_append.mp h with h | h
  · exact planRawFrom_group h
  · obtain ⟨hpartition, hlen⟩ := planCompressedFrom_group h
    exact ⟨hpartition, List.ne_nil_of_length_pos (by omega)⟩

/-- A group of a bucket takes blocks of that bucket, under its number. -/
theorem planBucket_partition {bucket : Nat} (h : g ∈ planBucket cfg newest candidates bucket)
    {p : UInt8} (hp : g.partition = some p) :
    ∀ i ∈ g.sources, i.partition = some p := by
  have hnumber := (planBucket_group h).1
  intro i hi
  have hbucket : bucketOf cfg i = bucket := by
    have hmem := (planBucket_sources newest candidates bucket).subset
      (List.mem_flatMap.mpr ⟨g, h, hi⟩)
    simpa using (List.mem_filter.mp hmem).2
  rw [hp] at hnumber
  split_ifs at hnumber with hlt
  obtain rfl := Option.some.inj hnumber
  unfold bucketOf at hbucket
  cases hpart : i.partition with
  | none =>
      rw [hpart, Option.elim_none] at hbucket
      omega
  | some q =>
      rw [hpart, Option.elim_some] at hbucket
      rw [← hbucket]
      simp

theorem mem_selectGroups (h : g ∈ (selectGroups budget [] 0 (planOptimize cfg index candidates)).1) :
    ∃ newest bucket, g ∈ planBucket cfg newest candidates bucket := by
  obtain ⟨k, hk⟩ := @selectGroups_eq budget [] (planOptimize cfg index candidates) 0
  rw [hk, List.nil_append] at h
  obtain ⟨bucket, -, hg⟩ := List.mem_flatMap.mp
    ((List.perm_insertionSort _ _).subset (List.mem_of_mem_take h))
  exact ⟨_, bucket, hg⟩

/-- A group never mixes levels. -/
theorem selectGroups_partition
    (h : g ∈ (selectGroups budget [] 0 (planOptimize cfg index candidates)).1) {p : UInt8}
    (hp : g.partition = some p) : ∀ i ∈ g.sources, i.partition = some p := by
  obtain ⟨newest, bucket, hg⟩ := mem_selectGroups h
  exact planBucket_partition hg hp

end Timeless.Engine
