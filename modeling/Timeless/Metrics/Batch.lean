import Timeless.Metrics.Kernels

/-!
# Batch — range queries of many series at once

The batched queries look the chunks of all series up together, read the payloads in one go and hand
them out series by series; then they sort the points of each series with an unstable sort. They are
to return for each series what the query of that series returns.

* `queryRangeBatchById_ok`, `queryRangeBatchById_error`: what a batch returns, and when it fails;
* `batch_reads_iff`: for every way to sort that the standard library allows, a batch agrees with the
  queries of its series exactly if no series is asked for twice beyond the series that are looked up
  one by one, and if equal timestamps mean equal samples.
-/

namespace Timeless.Metrics

open Support

/-! ### The batched queries -/

/-- The points of the next chunks, and the payloads that are left. -/
def decodeNext (c : ChunkCodecs) (tStart tEnd : Int) :
    List ChunkMeta → List ChunkBytes → Except String (List Point × List ChunkBytes)
  | [], payloads => .ok ([], payloads)
  | _ :: _, [] => .error "batch chunk payload order underflow"
  | m :: chunks, bytes :: payloads => do
      let points ← decodeChunkData c m bytes tStart tEnd
      let rest ← decodeNext c tStart tEnd chunks payloads
      return (points ++ rest.1, rest.2)

/-- The sorted points of one series after the other. -/
def decodeSeries (c : ChunkCodecs) (sort : List Point → List Point) (tStart tEnd : Int) :
    List (Int × List ChunkMeta) → List ChunkBytes → Except String (List (Int × List Point))
  | [], _ => .ok []
  | series :: rest, payloads => do
      let next ← decodeNext c tStart tEnd series.2 payloads
      let answers ← decodeSeries c sort tStart tEnd rest next.2
      return (series.1, sort next.1) :: answers

/-- The points of many series in a range. -/
def queryRangeBatchById (c : ChunkCodecs) (sort : List Point → List Point) (rows : List ChunkRow)
    (seriesIds : List Int) (tStart tEnd : Int) : Except String (List (Int × List Point)) :=
  if tEnd < tStart then .ok (seriesIds.map fun id => (id, []))
  else do
    let found := chunkMetasBatchCarrying rows seriesIds tStart tEnd
    let locs := found.1.flatten.map ChunkMeta.rowid
    let bytes ← readChunksCarried rows locs found.2
    rejectIf (bytes.length ≠ locs.length)
      s!"batch chunk read returned {bytes.length} payloads for {locs.length} locations"
    decodeSeries c sort tStart tEnd (seriesIds.zip found.1) bytes

def queryGridLastBatchById (c : ChunkCodecs) (sort : List Point → List Point)
    (rows : List ChunkRow) (seriesIds : List Int) (start stop step lookback : Int) :
    Except String (List (Int × Option (List Point))) := do
  let n ← validateGridLast start stop step lookback
  if n = 0 then return seriesIds.map fun id => (id, some [])
  else
    let samples ← queryRangeBatchById c sort rows seriesIds (saturating (start - lookback)) stop
    return samples.map fun series =>
      (series.1, gridLastWalk series.2 start stop step lookback)

/-- A batch returns for each id, in the order of the ids, what the query of that id returns. -/
def EachAnswered {α : Type} (seriesIds : List Int) (single : Int → Except String α)
    (batch : Except String (List (Int × α))) : Prop :=
  match batch with
  | .ok answers =>
      List.Forall₂ (fun id answer => answer.1 = id ∧ single id = .ok answer.2) seriesIds answers
  | .error e => ∀ id ∈ seriesIds, single id = .error e

/-! ### What a batch returns -/

section Batch

variable {c : ChunkCodecs} (t : ReadTable c) {sort : List Point → List Point}

theorem decodeNext_eq {found : List ChunkRow} (hmem : ∀ row ∈ found, row ∈ t.rows)
    (tStart tEnd : Int) (rest : List ChunkBytes) :
    decodeNext c tStart tEnd (found.map ChunkRow.chunkMeta) (found.map ChunkRow.bytes ++ rest) =
      .ok (found.flatMap fun row => (row.points c).filter fun p => tStart ≤ p.1 ∧ p.1 ≤ tEnd,
        rest) := by
  induction found with
  | nil => rfl
  | cons row found ih =>
      rw [List.forall_mem_cons] at hmem
      rw [List.map_cons, List.map_cons, List.cons_append, decodeNext,
        (t.readable row hmem.1).decodeChunkData, ok_bind, ih hmem.2]
      rfl

theorem decodeSeries_eq (seriesIds : List Int) (tStart tEnd : Int) :
    decodeSeries c sort tStart tEnd
      (seriesIds.zip (seriesIds.map fun id =>
        (chunkRowsOne t.rows id tStart tEnd).map ChunkRow.chunkMeta))
      ((seriesIds.flatMap fun id => chunkRowsOne t.rows id tStart tEnd).map ChunkRow.bytes) =
      .ok (seriesIds.map fun id => (id, sort (seriesPoints c t.rows id tStart tEnd))) := by
  induction seriesIds with
  | nil => rfl
  | cons id ids ih =>
      rw [List.map_cons, List.zip_cons_cons, List.flatMap_cons, List.map_append, decodeSeries,
        decodeNext_eq t fun row hrow => (mem_chunkRowsOne.mp hrow).1, ok_bind, ih]
      rfl

variable (rows : List ChunkRow)

/-- Beyond the series that are looked up one by one, no series with a chunk in the range is asked
for twice. -/
def AskedOnce (seriesIds : List Int) (tStart tEnd : Int) : Prop :=
  probeSeriesAtMost < (distinctIds seriesIds).length →
    seriesIds.Pairwise fun i j => i = j → chunkRowsOne rows i tStart tEnd = []

instance (rows : List ChunkRow) (seriesIds : List Int) (tStart tEnd : Int) :
    Decidable (AskedOnce rows seriesIds tStart tEnd) :=
  inferInstanceAs (Decidable (_ → _))

theorem readChunksCarried_nil (rowids : List Int) :
    readChunksCarried rows rowids [] = readChunks rows rowids := by
  unfold readChunksCarried
  cases rowids.mapM fun rowid => ([].find? fun e => e.1 = rowid).map Prod.snd with
  | none => rfl
  | some payloads => exact if_pos rfl

/-- The rows of the series of a batch. -/
abbrev batchRows (seriesIds : List Int) (tStart tEnd : Int) :
    List ChunkRow :=
  seriesIds.flatMap fun id => chunkRowsOne rows id tStart tEnd

variable {seriesIds : List Int} {tStart tEnd : Int}

theorem readChunksCarried_batch (honce : AskedOnce t.rows seriesIds tStart tEnd) :
    readChunksCarried t.rows ((batchRows t.rows seriesIds tStart tEnd).map ChunkRow.rowid)
      ((carriedRows t.rows seriesIds tStart tEnd).map fun row => (row.rowid, row.bytes)) =
      .ok ((batchRows t.rows seriesIds tStart tEnd).map ChunkRow.bytes) := by
  by_cases hfew : (distinctIds seriesIds).length ≤ probeSeriesAtMost
  · exact readChunksCarried_few t hfew tStart tEnd
  · have hmany := not_le.mp hfew
    rw [carriedRows, if_pos hmany, List.map_nil, readChunksCarried_nil]
    refine readChunks_ok t (fun row hrow => ?_) ?_
    · obtain ⟨id, -, hrow⟩ := List.mem_flatMap.mp hrow
      exact (mem_chunkRowsOne.mp hrow).1
    · exact (nodup_rowids_iff t (fun id row hrow =>
        (mem_chunkRowsOne.mp hrow).imp_right And.left) (fun id => nodup_chunkRowsOne t id _ _)
        seriesIds).mpr (honce hmany)

theorem flatten_matching (seriesIds : List Int) (tStart tEnd : Int) :
    ((seriesIds.map fun id => (chunkRowsOne rows id tStart tEnd).map ChunkRow.chunkMeta).flatten).map
      ChunkMeta.rowid = (batchRows rows seriesIds tStart tEnd).map ChunkRow.rowid := by
  rw [← List.flatMap_def, ← List.map_flatMap, List.map_map]
  rfl

/-- A batch that reads no payload twice answers for every series. -/
theorem queryRangeBatchById_ok (hle : tStart ≤ tEnd)
    (honce : AskedOnce t.rows seriesIds tStart tEnd) :
    queryRangeBatchById c sort t.rows seriesIds tStart tEnd =
      .ok (seriesIds.map fun id => (id, sort (seriesPoints c t.rows id tStart tEnd))) := by
  rw [queryRangeBatchById, if_neg (not_lt.mpr hle), chunkMetasBatchCarrying_eq]
  dsimp only
  rw [flatten_matching, readChunksCarried_batch t honce, ok_bind, rejectIf_neg (by simp), ok_bind,
    decodeSeries_eq]

/-- A row that is read a second time fails the whole batch. -/
theorem queryRangeBatchById_error (hle : tStart ≤ tEnd)
    (htwice : ¬AskedOnce t.rows seriesIds tStart tEnd) :
    ∃ e, queryRangeBatchById c sort t.rows seriesIds tStart tEnd = .error e := by
  obtain ⟨hmany, hpair⟩ := Classical.not_imp.mp htwice
  obtain ⟨e, he⟩ := readChunks_error t.rows (mt (nodup_rowids_iff t (fun id row hrow =>
    (mem_chunkRowsOne.mp hrow).imp_right And.left) (fun id => nodup_chunkRowsOne t id tStart tEnd)
    seriesIds).mp hpair)
  refine ⟨e, ?_⟩
  rw [queryRangeBatchById, if_neg (not_lt.mpr hle), chunkMetasBatchCarrying_eq]
  dsimp only
  rw [flatten_matching, carriedRows, if_pos hmany, List.map_nil, readChunksCarried_nil, he]
  rfl

/-! ### Agreement -/

theorem eachAnswered_map {α : Type} {single : Int → Except String α} {f : Int → α} :
    EachAnswered seriesIds single (.ok (seriesIds.map fun id => (id, f id))) ↔
      ∀ id ∈ seriesIds, single id = .ok (f id) := by
  rw [EachAnswered, List.forall₂_map_right_iff, List.forall₂_same]
  exact forall₂_congr fun id _ => and_iff_right rfl

theorem not_eachAnswered_error {α : Type} {single : Int → Except String α} {e : String} {id : Int}
    (hid : id ∈ seriesIds) {a : α} (hsingle : single id = .ok a) :
    ¬EachAnswered seriesIds single (.error e) := by
  intro h
  have := h id hid
  rw [hsingle] at this
  cases this

/-- A batch that asks for a series twice is not empty. -/
theorem exists_mem_of_not_askedOnce {rows : List ChunkRow}
    (h : ¬AskedOnce rows seriesIds tStart tEnd) : ∃ id, id ∈ seriesIds := by
  obtain ⟨-, hpair⟩ := Classical.not_imp.mp h
  cases seriesIds with
  | nil => exact absurd List.Pairwise.nil hpair
  | cons id ids => exact ⟨id, List.mem_cons_self⟩

theorem point_ext (p q : Point) (hts : p.1 = q.1) (hval : (p.2.toNat : Int) = q.2.toNat) : p = q :=
  Prod.ext hts (UInt64.toNat_inj.mp (Int.ofNat_inj.mp hval))

theorem range_answered_iff (seriesIds : List Int) (tStart tEnd : Int) :
    (∀ sort, UnstableSort Prod.fst sort →
      EachAnswered seriesIds (fun id => queryRangeById c t.rows id tStart tEnd)
        (queryRangeBatchById c sort t.rows seriesIds tStart tEnd)) ↔
      (tStart ≤ tEnd → AskedOnce t.rows seriesIds tStart tEnd ∧
        ∀ id ∈ seriesIds, Determined Prod.fst (seriesPoints c t.rows id tStart tEnd)) := by
  by_cases hle : tStart ≤ tEnd
  · rw [forall_prop_of_true hle]
    by_cases honce : AskedOnce t.rows seriesIds tStart tEnd
    · rw [and_iff_right honce]
      constructor
      · intro h id hid
        refine (agree_iff_determined (fun p q => point_ext p q)).mp fun sort hsort => ?_
        have hanswer := h sort hsort
        rw [queryRangeBatchById_ok t hle honce, eachAnswered_map] at hanswer
        have := hanswer id hid
        rw [queryRangeById_eq] at this
        exact (Except.ok.inj this).symm
      · intro h sort hsort
        rw [queryRangeBatchById_ok t hle honce, eachAnswered_map]
        intro id hid
        rw [queryRangeById_eq, hsort.eq_of_determined (h id hid)]
    · constructor
      · intro h
        obtain ⟨e, he⟩ : ∃ e, queryRangeBatchById c (stableSort Prod.fst) t.rows seriesIds tStart
            tEnd = .error e := queryRangeBatchById_error t hle honce
        obtain ⟨id, hid⟩ := exists_mem_of_not_askedOnce honce
        have := h _ unstableSort_stableSort
        rw [he] at this
        exact absurd this (not_eachAnswered_error hid (queryRangeById_eq t id tStart tEnd))
      · exact fun h => absurd h.1 honce
  · -- a range that ends before it begins
    refine iff_of_true (fun sort _ => ?_) fun h => absurd h hle
    rw [queryRangeBatchById, if_pos (not_le.mp hle), eachAnswered_map]
    intro id _
    rw [queryRangeById_eq, seriesPoints_of_lt t id (not_le.mp hle)]
    rfl

/-! ### Agreement on a grid -/

/-- The samples of the window of a grid point. -/
def inWindow (lookback time : Int) (p : Point) : Bool :=
  time - lookback < p.1 ∧ p.1 ≤ time

theorem gridLast_eq (samples : List Point) (lookback time : Int) :
    gridLast samples lookback time =
      ((samples.filter (inWindow lookback time)).getLast?).map Prod.snd :=
  rfl

theorem mem_gridRows {f : Int → Option F64} {times : List Int} {p : Point} :
    p ∈ gridRows f times ↔ p.1 ∈ times ∧ f p.1 = some p.2 := by
  rw [gridRows, List.mem_flatMap]
  constructor
  · rintro ⟨time, htime, hp⟩
    obtain ⟨v, hv, rfl⟩ := Option.map_eq_some_iff.mp (Option.mem_toList.mp hp)
    exact ⟨htime, hv⟩
  · rintro ⟨htime, hv⟩
    exact ⟨p.1, htime, Option.mem_toList.mpr (Option.map_eq_some_iff.mpr ⟨p.2, hv, rfl⟩)⟩

/-- The rows of a grid determine the values at its points. -/
theorem gridRows_inj {f g : Int → Option F64} {times : List Int}
    (h : gridRows f times = gridRows g times) : ∀ time ∈ times, f time = g time := by
  intro time htime
  refine Option.ext fun v => ?_
  have hf : (time, v) ∈ gridRows f times ↔ time ∈ times ∧ f time = some v := mem_gridRows
  have hg : (time, v) ∈ gridRows g times ↔ time ∈ times ∧ g time = some v := mem_gridRows
  rw [h] at hf
  exact ⟨fun hv => (hg.mp (hf.mpr ⟨htime, hv⟩)).2, fun hv => (hf.mp (hg.mpr ⟨htime, hv⟩)).2⟩

/-- Every sort gives the same newest sample of a window exactly if it is determined. -/
theorem gridLast_agree_iff {l : List Point} {lookback time : Int} :
    (∀ sort, UnstableSort Prod.fst sort →
      gridLast (sort l) lookback time = gridLast (stableSort Prod.fst l) lookback time) ↔
      NewestDetermined Prod.fst (inWindow lookback time) l := by
  rw [← newest_agree_iff fun p q => point_ext p q]
  refine forall₂_congr fun sort hsort => ?_
  rw [gridLast_eq, gridLast_eq]
  refine ⟨fun h => ?_, fun h => by rw [h]⟩
  cases hlast : ((stableSort Prod.fst l).filter (inWindow lookback time)).getLast? with
  | none =>
      rw [hlast, Option.map_none] at h
      exact Option.map_eq_none_iff.mp h
  | some q =>
      rw [hlast, Option.map_some] at h
      obtain ⟨p, hp, hval⟩ := Option.map_eq_some_iff.mp h
      obtain ⟨hql, hqin, hqmax⟩ := getLast?_filter_sort unstableSort_stableSort hlast
      obtain ⟨hpl, hpin, hpmax⟩ := getLast?_filter_sort hsort hp
      rw [hp, Prod.ext (le_antisymm (hqmax p hpl hpin) (hpmax q hql hqin)) hval]

theorem validateGridLast_range {start stop step lookback n : Int} (hstart : InI64 start)
    (hn : validateGridLast start stop step lookback = .ok n) (hzero : n ≠ 0) :
    0 < step ∧ start ≤ stop ∧ saturating (start - lookback) ≤ stop := by
  obtain ⟨hlookback, hlen⟩ := validateGridLast_eq_ok hn
  have hle := gridLen_ne_zero hlen hzero
  exact ⟨(gridLen_eq_ok hlen).1, hle, (le_saturating hstart (by omega)).trans hle⟩

section Grid

variable {start stop step lookback n : Int} (hstart : InI64 start) (hstop : InI64 stop)
  (hn : validateGridLast start stop step lookback = .ok n) (hzero : n ≠ 0)

include hstart hstop hn hzero

theorem queryGridLastById_stable (id : Int) :
    queryGridLastById c t.rows id start stop step lookback =
      .ok (some (gridRows (gridLast (stableSort Prod.fst
        (seriesPoints c t.rows id (saturating (start - lookback)) stop)) lookback)
        (gridTimes start stop step))) := by
  obtain ⟨hstep, hle, -⟩ := validateGridLast_range hstart hn hzero
  rw [queryGridLastById, hn, ok_bind, if_neg hzero, queryRangeById_eq, ok_bind,
    gridLastWalk_eq (sorted_stableSort Prod.fst _) lookback hstart hstop hstep hle]
  rfl

theorem queryGridLastBatchById_ok (hsort : UnstableSort Prod.fst sort)
    (honce : AskedOnce t.rows seriesIds (saturating (start - lookback)) stop) :
    queryGridLastBatchById c sort t.rows seriesIds start stop step lookback =
      .ok (seriesIds.map fun id => (id, some (gridRows (gridLast (sort
        (seriesPoints c t.rows id (saturating (start - lookback)) stop)) lookback)
        (gridTimes start stop step)))) := by
  obtain ⟨hstep, hle, hrange⟩ := validateGridLast_range hstart hn hzero
  rw [queryGridLastBatchById, hn, ok_bind, if_neg hzero, queryRangeBatchById_ok t hrange honce,
    ok_bind, List.map_map]
  refine congrArg Except.ok (List.map_congr_left fun id _ => Prod.ext rfl ?_)
  exact gridLastWalk_eq (hsort.sorted _) lookback hstart hstop hstep hle

theorem gridLast_answered_of_nonzero (seriesIds : List Int) :
    (∀ sort, UnstableSort Prod.fst sort →
      EachAnswered seriesIds (fun id => queryGridLastById c t.rows id start stop step lookback)
        (queryGridLastBatchById c sort t.rows seriesIds start stop step lookback)) ↔
      AskedOnce t.rows seriesIds (saturating (start - lookback)) stop ∧
        ∀ id ∈ seriesIds, ∀ time ∈ gridTimes start stop step,
          NewestDetermined Prod.fst (inWindow lookback time)
            (seriesPoints c t.rows id (saturating (start - lookback)) stop) := by
  have hsingle := queryGridLastById_stable t hstart hstop hn hzero
  by_cases honce : AskedOnce t.rows seriesIds (saturating (start - lookback)) stop
  · rw [and_iff_right honce]
    constructor
    · intro h id hid time htime
      refine gridLast_agree_iff.mp fun sort hsort => ?_
      have hanswer := h sort hsort
      rw [queryGridLastBatchById_ok t hstart hstop hn hzero hsort honce, eachAnswered_map]
        at hanswer
      have hrows := (hsingle id).symm.trans (hanswer id hid)
      exact (gridRows_inj (Option.some.inj (Except.ok.inj hrows)) time htime).symm
    · intro h sort hsort
      rw [queryGridLastBatchById_ok t hstart hstop hn hzero hsort honce, eachAnswered_map]
      intro id hid
      refine (hsingle id).trans ?_
      rw [gridRows_congr fun time htime => gridLast_agree_iff.mpr (h id hid time htime) sort hsort]
  · constructor
    · intro h
      obtain ⟨-, -, hrange⟩ := validateGridLast_range hstart hn hzero
      obtain ⟨e, he⟩ : ∃ e, queryRangeBatchById c (stableSort Prod.fst) t.rows seriesIds
          (saturating (start - lookback)) stop = .error e :=
        queryRangeBatchById_error t hrange honce
      obtain ⟨id, hid⟩ := exists_mem_of_not_askedOnce honce
      have hanswer := h _ unstableSort_stableSort
      rw [queryGridLastBatchById, hn, ok_bind, if_neg hzero, he] at hanswer
      exact absurd hanswer (not_eachAnswered_error hid (hsingle id))
    · exact fun h => absurd h.1 honce

end Grid

theorem gridLast_answered_iff (seriesIds : List Int) {start stop : Int} (step lookback : Int)
    (hstart : InI64 start) (hstop : InI64 stop) :
    (∀ sort, UnstableSort Prod.fst sort →
      EachAnswered seriesIds (fun id => queryGridLastById c t.rows id start stop step lookback)
        (queryGridLastBatchById c sort t.rows seriesIds start stop step lookback)) ↔
      ∀ n, validateGridLast start stop step lookback = .ok n → n ≠ 0 →
        AskedOnce t.rows seriesIds (saturating (start - lookback)) stop ∧
        ∀ id ∈ seriesIds, ∀ time ∈ gridTimes start stop step,
          NewestDetermined Prod.fst (inWindow lookback time)
            (seriesPoints c t.rows id (saturating (start - lookback)) stop) := by
  cases hn : validateGridLast start stop step lookback with
  | error e =>
      -- both refuse the grid, with the same words
      refine iff_of_true (fun sort _ => ?_) (fun n h => by cases h)
      rw [queryGridLastBatchById, hn]
      intro id _
      change queryGridLastById c t.rows id start stop step lookback = _
      rw [queryGridLastById, hn]
      rfl
  | ok n =>
      by_cases hzero : n = 0
      · refine iff_of_true (fun sort _ => ?_) ?_
        · rw [queryGridLastBatchById, hn, ok_bind, if_pos hzero]
          refine eachAnswered_map.mpr fun id _ => ?_
          rw [queryGridLastById, hn, ok_bind, if_pos hzero]
          rfl
        · rintro m ⟨⟩ hm
          exact absurd hzero hm
      · rw [gridLast_answered_of_nonzero t hstart hstop hn hzero seriesIds]
        constructor
        · rintro h m ⟨⟩ -
          exact h
        · exact fun h => h n rfl hzero

end Batch

/-- **Batched reads.** Whatever the order of equal keys in which the standard library sorts, a batch
returns for each series what its own query returns, exactly if the payloads of no series have to be
read twice and the timestamps of a series determine its samples: all in the range for a range query,
the newest in each window for a grid query. -/
theorem batch_reads_iff {c : ChunkCodecs} (t : ChunkTable c) (seriesIds : List Int)
    (tStart tEnd : Int) {start stop : Int} (step lookback : Int) (hstart : InI64 start)
    (hstop : InI64 stop) :
    ((∀ sort, UnstableSort Prod.fst sort →
      EachAnswered seriesIds (fun id => queryRangeById c t.rows id tStart tEnd)
        (queryRangeBatchById c sort t.rows seriesIds tStart tEnd)) ↔
      (tStart ≤ tEnd → AskedOnce t.rows seriesIds tStart tEnd ∧
        ∀ id ∈ seriesIds, Determined Prod.fst (seriesPoints c t.rows id tStart tEnd))) ∧
    ((∀ sort, UnstableSort Prod.fst sort →
      EachAnswered seriesIds (fun id => queryGridLastById c t.rows id start stop step lookback)
        (queryGridLastBatchById c sort t.rows seriesIds start stop step lookback)) ↔
      ∀ n, validateGridLast start stop step lookback = .ok n → n ≠ 0 →
        AskedOnce t.rows seriesIds (saturating (start - lookback)) stop ∧
        ∀ id ∈ seriesIds, ∀ time ∈ gridTimes start stop step,
          NewestDetermined Prod.fst (inWindow lookback time)
            (seriesPoints c t.rows id (saturating (start - lookback)) stop)) :=
  ⟨range_answered_iff t.toReadTable seriesIds tStart tEnd,
    gridLast_answered_iff t.toReadTable seriesIds step lookback hstart hstop⟩

/-- A series without repeated timestamps, asked for twice. -/
theorem batch_reads_iff_last :
    (∀ sort, UnstableSort Prod.fst sort →
      EachAnswered [4, 4] (fun id => queryRangeById .storing lastTable.rows id 0 i64Max)
        (queryRangeBatchById .storing sort lastTable.rows [4, 4] 0 i64Max)) ∧
    ∀ sort, UnstableSort Prod.fst sort →
      EachAnswered [4, 4]
        (fun id => queryGridLastById .storing lastTable.rows id (i64Max - 20) i64Max 15 10)
        (queryGridLastBatchById .storing sort lastTable.rows [4, 4] (i64Max - 20) i64Max 15 10) := by
  obtain ⟨hrange, hgrid⟩ := batch_reads_iff lastTable [4, 4] 0 i64Max 15 10
    (show InI64 (i64Max - 20) by decide) (show InI64 i64Max by decide)
  refine ⟨hrange.mpr fun _ => ⟨by decide +kernel, ?_⟩, hgrid.mpr fun n hn _ => ⟨by decide +kernel, ?_⟩⟩
  · unfold Determined
    decide +kernel
  · refine fun id hid time _ => Determined.newest ?_ _
    revert id
    unfold Determined
    decide +kernel

/-- Twenty points of a chunk, two at each time. -/
def tiePoints (chunk : Nat) : List Point :=
  (List.range 20).map fun i => (Int.ofNat (i / 2), UInt64.ofNat (100 * chunk + i))

/-- Two chunks of one series with the same timestamps. -/
def tieTable : ChunkTable ChunkCodecs.storing where
  rows := [rawChunk 1 4 (tiePoints 1) (some 118), rawChunk 2 4 (tiePoints 2) (some 218)]
  sound row hrow := by
    rcases List.mem_pair.mp hrow with rfl | rfl
    · refine (rawChunk_sound _ 1 4 (by decide) (by decide) (by decide) ?_).1
      rintro v ⟨⟩
      decide
    · refine (rawChunk_sound _ 2 4 (by decide) (by decide) (by decide) ?_).1
      rintro v ⟨⟩
      decide
  ids := by decide

/-- The points of both chunks by time, those of a time in the order of some places. -/
def tiesInOrder (places : List Nat) : List Point :=
  (List.range 10).flatMap fun t => places.map fun place => (Int.ofNat t, UInt64.ofNat (2 * t + place))

/-- More series than are looked up one by one, one of them twice. -/
def manyIds : List Int :=
  4 :: (List.range 257).map Int.ofNat

/-- A sort may put the later points first; and beyond the series that are looked up one by one, a
series that is asked for twice fails the batch. -/
theorem batch_reads_differ :
    (queryRangeById .storing tieTable.rows 4 0 100 = .ok (tiesInOrder [100, 101, 200, 201]) ∧
      ∃ sort, UnstableSort Prod.fst sort ∧
        queryRangeBatchById .storing sort tieTable.rows [4] 0 100 =
          .ok [(4, tiesInOrder [201, 200, 101, 100])]) ∧
    4 ∈ manyIds ∧
      ∀ sort, ∃ e, queryRangeBatchById .storing sort tieTable.rows manyIds 0 100 = .error e := by
  refine ⟨⟨by decide +kernel, _, unstableSort_sortThen fun p => -(p.2.toNat : Int),
    by decide +kernel⟩, List.mem_cons_self, fun sort =>
    queryRangeBatchById_error tieTable.toReadTable (by decide)
    fun honce => ?_⟩
  have hdistinct : ((List.range 257).map Int.ofNat).Nodup :=
    List.nodup_range.map fun _ _ => Int.ofNat_inj.mp
  have hmany : probeSeriesAtMost < (distinctIds manyIds).length := by
    have hsub := List.subperm_of_subset hdistinct fun id hid =>
      mem_distinctIds.mpr (List.mem_cons_of_mem 4 hid)
    exact lt_of_lt_of_le (by rw [List.length_map, List.length_range]; decide) hsub.length_le
  have hagain : (4 : Int) ∈ (List.range 257).map Int.ofNat :=
    List.mem_map.mpr ⟨4, List.mem_range.mpr (by decide), rfl⟩
  have hnone := (List.pairwise_cons.mp (honce hmany)).1 4 hagain rfl
  exact absurd hnone (by decide +kernel)

end Timeless.Metrics
