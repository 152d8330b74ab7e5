import Timeless.Engine.Plan
import Timeless.Blocks.Block

/-!
# Grouping — plans are disjoint, pure and bounded

What a plan may do to the stored blocks is read off its groups. A block that stood in two groups would
be written twice, a raw block in none would never be compressed, and a group over two partitions would
write a block of neither. The planner goes through sorted blocks and carries along what the group at
hand holds (`Counted`) and how wide it is in time (`Spanned`); a group is closed when the next block
would take it over a limit.

* `planOptimize_valid`: every plan is a `ValidPlan`, clause for clause, whatever the blocks' time
  ranges and sizes are.

A group of one block is bounded by nothing: it holds what the block holds.
-/

namespace Timeless.Engine

open Blocks

/-! ### What a plan has to satisfy -/

/-- A number of entries as `usize` holds it. -/
def saturated (n : Nat) : Nat := min n (2 ^ 64 - 1)

/-- No block ends more than a span after another begins. -/
def SpanWithin (span : Int64) (sources : List IndexEntry) : Prop :=
  ∀ a ∈ sources, ∀ b ∈ sources, satSub a.tsMax b.tsMin ≤ span

/-- The entries a group of several blocks may hold: the target, and a quarter more for blocks that are
compressed already. -/
def entryLimit (cfg : PlanConfig) : OptimizeKind → Nat
  | .rawCompression => cfg.mergeTargetEntries
  | .compressedMerge => usizeAdd cfg.mergeTargetEntries (divCeil cfg.mergeTargetEntries 4)

/-- **Valid plans.** -/
structure ValidPlan (cfg : PlanConfig) (candidates : List IndexEntry) (groups : List OptimizeGroup) :
    Prop where
  atMostOnce : (sourcesOf groups).Subperm candidates
  rawOnce : (sourcesOf (groups.filter fun g => g.kind = .rawCompression)).Perm
    (candidates.filter fun e => cfg.isRaw e.blockMeta.codec)
  ofPartition : ∀ g ∈ groups, ∀ e ∈ g.sources, e.partition = g.partition
  ofKind : ∀ g ∈ groups, ∀ e ∈ g.sources,
    (cfg.isRaw e.blockMeta.codec = true ↔ g.kind = .rawCompression)
  span : ∀ g ∈ groups, 2 ≤ g.sources.length → SpanWithin cfg.mergeMaxTsSpan g.sources
  entries : ∀ g ∈ groups, 2 ≤ g.sources.length → saturated g.entries ≤ entryLimit cfg g.kind

/-! ### The group at hand -/

variable {cfg : PlanConfig} {partition : Option UInt8}

theorem saturated_add (m n : Nat) : usizeAdd (saturated m) n = saturated (m + n) := by
  unfold usizeAdd saturated
  omega

/-- A number of entries is that of the blocks at hand, and several blocks are within a limit. -/
structure Counted (limit : Nat) (current : List IndexEntry) (n : Nat) : Prop where
  entries : n = saturated (current.map IndexEntry.count).sum
  fits : 2 ≤ current.length → n ≤ limit

/-- Two times enclose the blocks at hand, and several blocks are within a span. -/
structure Spanned (span : Int64) (current : List IndexEntry) (lo hi : Int64) : Prop where
  lower : ∀ e ∈ current, lo ≤ e.tsMin
  upper : ∀ e ∈ current, e.tsMax ≤ hi
  fits : 2 ≤ current.length → satSub hi lo ≤ span

theorem Counted.nil (limit : Nat) : Counted limit [] 0 :=
  ⟨rfl, by simp⟩

theorem Counted.one (limit : Nat) (e : IndexEntry) : Counted limit [e] (usizeAdd 0 e.count) :=
  ⟨by simp [usizeAdd, saturated], by simp⟩

variable {g : OptimizeGroup} {current : List IndexEntry} {n : Nat} {e : IndexEntry}
  {span lo hi newest : Int64} {es : List IndexEntry}

theorem Counted.add {limit : Nat} (h : Counted limit current n)
    (hfits : current ≠ [] → usizeAdd n e.count ≤ limit) :
    Counted limit (current ++ [e]) (usizeAdd n e.count) := by
  refine ⟨?_, fun hlen => hfits fun hnil => ?_⟩
  · rw [h.entries, saturated_add, List.map_append, List.sum_append, List.map_singleton,
      List.sum_singleton]
  · rw [hnil] at hlen
    simp at hlen

theorem Spanned.nil (span lo hi : Int64) : Spanned span [] lo hi :=
  ⟨by simp, by simp, by simp⟩

theorem Spanned.one (span : Int64) (e : IndexEntry) : Spanned span [e] e.tsMin e.tsMax :=
  ⟨by simp, by simp, by simp⟩

theorem Spanned.add (h : Spanned span current lo hi)
    (hfits : mergedSpanFits lo hi e.blockMeta span = true) :
    Spanned span (current ++ [e]) (min lo e.tsMin) (max hi e.tsMax) := by
  refine ⟨fun i hi => ?_, fun i hi => ?_, fun _ => of_decide_eq_true hfits⟩
  · rcases List.mem_append.mp hi with hi | hi
    · exact Int64.le_trans (min_le64 _ _).1 (h.lower i hi)
    · rw [List.mem_singleton.mp hi]
      exact (min_le64 _ _).2
  · rcases List.mem_append.mp hi with hi | hi
    · exact Int64.le_trans (h.upper i hi) (le_max64 _ _).1
    · rw [List.mem_singleton.mp hi]
      exact (le_max64 _ _).2

theorem Spanned.within (h : Spanned span current lo hi) (hlen : 2 ≤ current.length) :
    SpanWithin span current :=
  fun a ha b hb => Int64.le_trans (satSub_le_satSub (h.upper a ha) (h.lower b hb)) (h.fits hlen)

theorem SpanWithin.subset {l l' : List IndexEntry} (h : SpanWithin span l) (hsub : l' ⊆ l) :
    SpanWithin span l' :=
  fun a ha b hb => h a (hsub ha) b (hsub hb)

/-- A group of a kind that is within the limits, if it has several blocks. -/
structure Bounded (cfg : PlanConfig) (kind : OptimizeKind) (g : OptimizeGroup) : Prop where
  kind_eq : g.kind = kind
  entries : 2 ≤ g.sources.length → saturated g.entries ≤ entryLimit cfg kind
  span : 2 ≤ g.sources.length → SpanWithin cfg.mergeMaxTsSpan g.sources

/-! ### Groups are bounded -/

theorem bounded_of_counted {kind : OptimizeKind} (hcount : Counted (entryLimit cfg kind) current n)
    (hspan : 2 ≤ current.length → SpanWithin cfg.mergeMaxTsSpan current) :
    Bounded cfg kind ⟨current, partition, kind⟩ :=
  ⟨rfl, fun hlen => hcount.entries ▸ hcount.fits hlen, hspan⟩

variable {current segment candidates : List IndexEntry}

theorem planRawFrom_bounded (hcount : Counted (entryLimit cfg .rawCompression) current n)
    (hspan : Spanned cfg.mergeMaxTsSpan current lo hi)
    (h : g ∈ planRawFrom cfg partition current n lo hi es) : Bounded cfg .rawCompression g := by
  induction es generalizing current n lo hi with
  | nil =>
      rw [planRawFrom] at h
      split_ifs at h
      · cases h
      · rw [List.mem_singleton.mp h]
        exact bounded_of_counted hcount hspan.within
  | cons e es ih =>
      rw [planRawFrom] at h
      split_ifs at h with hempty hfits
      · have hzero : n = 0 := by
          rw [hcount.entries, List.isEmpty_iff.mp hempty]
          rfl
        rw [hzero] at h
        exact ih (.one _ e) (.one _ e) h
      · obtain ⟨hentries, hrange⟩ := Bool.and_eq_true_iff.mp hfits
        exact ih (hcount.add fun _ => of_decide_eq_true hentries) (hspan.add hrange) h
      · rcases List.mem_cons.mp h with rfl | h
        · exact bounded_of_counted hcount hspan.within
        · exact ih (.one _ e) (.one _ e) h

theorem pushCompressedGroup_bounded {closed : Bool}
    (hcount : Counted (entryLimit cfg .compressedMerge) current n)
    (hspan : 2 ≤ current.length → SpanWithin cfg.mergeMaxTsSpan current)
    (h : g ∈ pushCompressedGroup cfg partition closed current) :
    Bounded cfg .compressedMerge g := by
  rw [pushCompressedGroup] at h
  split_ifs at h
  · cases h
  · rw [List.mem_singleton.mp h]
    exact bounded_of_counted hcount hspan
  · cases h

/-- A segment is within the span as a whole, so each of its groups is. -/
theorem planSegmentFrom_bounded {closed : Bool}
    (hcount : Counted (entryLimit cfg .compressedMerge) current n)
    (hspan : 2 ≤ (current ++ es).length → SpanWithin cfg.mergeMaxTsSpan (current ++ es))
    (h : g ∈ planSegmentFrom cfg partition closed current n es) :
    Bounded cfg .compressedMerge g := by
  have hpart {part : List IndexEntry} (hsub : part.Sublist (current ++ es)) (hlen : 2 ≤ part.length) :
      SpanWithin cfg.mergeMaxTsSpan part :=
    (hspan (hlen.trans hsub.length_le)).subset hsub.subset
  induction es generalizing current n with
  | nil => exact pushCompressedGroup_bounded hcount (hpart (by simp)) h
  | cons e es ih =>
      rw [planSegmentFrom] at h
      split_ifs at h with hfull
      · rcases List.mem_append.mp h with h | h
        · exact pushCompressedGroup_bounded hcount (hpart (by simp)) h
        · exact ih (.one _ e) (hpart (by simp)) h fun hsub => hpart (hsub.trans (by simp))
      · have hroom : current ≠ [] →
            usizeAdd n e.count ≤ entryLimit cfg .compressedMerge := by
          intro hne
          rw [Bool.and_eq_true, not_and] at hfull
          exact not_lt.mp fun hover => hfull (by simpa using hne) (decide_eq_true hover)
        refine ih (hcount.add hroom) ?_ h ?_
        · rw [List.append_assoc]
          exact hspan
        · rw [List.append_assoc]
          exact hpart

theorem planCompressedSegment_bounded (hspan : Spanned cfg.mergeMaxTsSpan segment lo hi)
    (h : g ∈ planCompressedSegment cfg partition newest segment) :
    Bounded cfg .compressedMerge g := by
  have hsorted := List.perm_insertionSort IndexEntry.SizeLe segment
  refine planSegmentFrom_bounded (.nil _) (fun hlen => ?_) h
  rw [List.nil_append] at hlen ⊢
  exact (hspan.within (hsorted.length_eq ▸ hlen)).subset hsorted.subset

theorem planCompressedFrom_bounded (hspan : Spanned cfg.mergeMaxTsSpan segment lo hi)
    (h : g ∈ planCompressedFrom cfg partition newest segment lo hi es) :
    Bounded cfg .compressedMerge g := by
  induction es generalizing segment lo hi with
  | nil => exact planCompressedSegment_bounded hspan h
  | cons e es ih =>
      rw [planCompressedFrom] at h
      split_ifs at h with hempty hfits
      · exact ih (.one _ e) h
      · exact ih (hspan.add hfits) h
      · rcases List.mem_append.mp h with h | h
        · exact planCompressedSegment_bounded hspan h
        · exact ih (.one _ e) h

/-! ### Groups of one bucket -/

/-- The partition of a bucket is that of its blocks, if their partitions are numbers of buckets. -/
theorem partition_of_bucketOf {bucket : Nat}
    (hplaced : ∀ p, e.partition = some p → p.toNat < cfg.partitions)
    (hbucket : bucketOf cfg e = bucket) :
    e.partition = if bucket < cfg.partitions then some bucket.toUInt8 else none := by
  subst hbucket
  unfold bucketOf
  cases hp : e.partition with
  | none => simp
  | some p => simp [hplaced p hp]

/-- The raw groups and the merges of a bucket. -/
theorem mem_planBucket {bucket : Nat} (h : g ∈ planBucket cfg newest candidates bucket) :
    ∃ kind, Bounded cfg kind g ∧ ∀ e ∈ g.sources, e ∈ candidates ∧ bucketOf cfg e = bucket ∧
      (cfg.isRaw e.blockMeta.codec = true ↔ kind = .rawCompression) := by
  rcases List.mem_append.mp h with h | h
  · refine ⟨.rawCompression, planRawFrom_bounded (.nil _) (.nil _ _ _) h, fun e he => ?_⟩
    have hmem := (planRawGroups_sources _ _).subset (List.mem_flatMap.mpr ⟨g, h, he⟩)
    simp only [List.mem_filter, decide_eq_true_eq] at hmem
    exact ⟨hmem.1.1, hmem.1.2, iff_of_true hmem.2 rfl⟩
  · refine ⟨.compressedMerge, planCompressedFrom_bounded (.nil _ _ _) h, fun e he => ?_⟩
    have hmem := planCompressedFrom_sources.subset (List.mem_flatMap.mpr ⟨g, h, he⟩)
    rw [List.nil_append, List.mem_insertionSort] at hmem
    simp only [List.mem_filter, decide_eq_true_eq, Bool.not_eq_true'] at hmem
    exact ⟨hmem.1.1, hmem.1.2, iff_of_false (by simp [hmem.2]) (by simp)⟩

/-- The raw groups of a bucket take all its raw blocks. -/
theorem planBucket_raw (newest : Int64) (candidates : List IndexEntry) (bucket : Nat) :
    (sourcesOf ((planBucket cfg newest candidates bucket).filter fun g =>
      g.kind = .rawCompression)).Perm
      ((candidates.filter fun e => cfg.isRaw e.blockMeta.codec).filter fun e =>
        bucketOf cfg e = bucket) := by
  have hraw (entries : List IndexEntry) (partition : Option UInt8) :
      (planRawGroups cfg entries partition).filter (fun g => g.kind = .rawCompression) =
        planRawGroups cfg entries partition :=
    List.filter_eq_self.mpr fun g hg =>
      decide_eq_true (planRawFrom_bounded (.nil _) (.nil _ _ _) hg).kind_eq
  have hmerges (entries : List IndexEntry) (partition : Option UInt8) :
      (planCompressedGroups cfg entries partition newest).filter
        (fun g => g.kind = .rawCompression) = [] :=
    List.filter_eq_nil_iff.mpr fun g hg => by
      simp [(planCompressedFrom_bounded (.nil _ _ _) hg).kind_eq]
  rw [planBucket, List.filter_append, hraw, hmerges, List.append_nil, List.filter_comm]
  exact planRawGroups_sources _ _

theorem mem_planOptimize {index : List IndexEntry} (h : g ∈ planOptimize cfg index candidates) :
    ∃ newest bucket, g ∈ planBucket cfg newest candidates bucket := by
  obtain ⟨bucket, -, hg⟩ := List.mem_flatMap.mp ((List.perm_insertionSort _ _).subset h)
  exact ⟨_, bucket, hg⟩

/-- **Plans are valid.** Whatever is indexed and whatever the configuration, of candidates whose
partitions are none or numbers of partitions. -/
theorem planOptimize_valid (cfg : PlanConfig) (index candidates : List IndexEntry)
    (hplaced : ∀ e ∈ candidates, ∀ p, e.partition = some p → p.toNat < cfg.partitions) :
    ValidPlan cfg candidates (planOptimize cfg index candidates) := by
  refine ⟨planOptimize_subperm index candidates, ?_, fun g hg e he => ?_, fun g hg e he => ?_,
    fun g hg => ?_, fun g hg => ?_⟩
  · have hbuckets : (candidates.filter fun e => cfg.isRaw e.blockMeta.codec).filter
        (fun e => bucketOf cfg e < cfg.partitions + 1) =
          candidates.filter fun e => cfg.isRaw e.blockMeta.codec := by
      refine List.filter_eq_self.mpr fun e he => decide_eq_true ?_
      unfold bucketOf
      cases hp : e.partition with
      | none => exact Nat.lt_succ_self _
      | some p => exact Nat.lt_succ_of_lt (hplaced e (List.mem_filter.mp he).1 p hp)
    rw [planOptimize]
    refine (((List.perm_insertionSort _ _).filter _).flatMap_right _).trans ?_
    rw [List.filter_flatMap, List.flatMap_assoc, ← hbuckets]
    refine .trans ?_ (flatMap_filter_perm _ _ _)
    exact List.Perm.flatMap_left _ fun bucket _ => planBucket_raw _ candidates bucket
  · obtain ⟨newest, bucket, hg⟩ := mem_planOptimize hg
    obtain ⟨kind, -, hsources⟩ := mem_planBucket hg
    obtain ⟨hmem, hbucket, -⟩ := hsources e he
    rw [(planBucket_group hg).1]
    exact partition_of_bucketOf (hplaced e hmem) hbucket
  · obtain ⟨newest, bucket, hg⟩ := mem_planOptimize hg
    obtain ⟨kind, hbounded, hsources⟩ := mem_planBucket hg
    rw [hbounded.kind_eq]
    exact (hsources e he).2.2
  · obtain ⟨newest, bucket, hg⟩ := mem_planOptimize hg
    obtain ⟨kind, hbounded, -⟩ := mem_planBucket hg
    exact hbounded.span
  · obtain ⟨newest, bucket, hg⟩ := mem_planOptimize hg
    obtain ⟨kind, hbounded, -⟩ := mem_planBucket hg
    rw [hbounded.kind_eq]
    exact hbounded.entries

/-- Two raw blocks of one partition, at the two ends of time. -/
def farApart : List IndexEntry :=
  [⟨⟨Int64.minValue, Int64.minValue, 10, 1⟩, 1, some 2⟩,
    ⟨⟨Int64.maxValue, Int64.maxValue, 10, 1⟩, 2, some 2⟩]

theorem planOptimize_valid_farApart :
    ValidPlan ⟨4, (· == 1), 8192, 3600, some 4⟩ farApart
      (planOptimize ⟨4, (· == 1), 8192, 3600, some 4⟩ farApart farApart) :=
  planOptimize_valid _ farApart farApart (by decide +kernel)

end Timeless.Engine
