import Timeless.Metrics.Reads

/-!
# Kernels — grid queries of one series

`query_grid_last_by_id` and `query_window_op_by_id` check their grid, read the samples that the first
window can reach, and walk over them. The range that is read begins a window before the grid, or at
the least timestamp there is.

* `kernels_eq_definition`: the walks, and the queries over the whole series, return at each point of
  the grid what the definition of the kernel says; the grid is the arithmetic progression, each point
  once and in range.
-/

namespace Timeless.Metrics

open Support

/-- The grid-last query of one series; the rows are none if the walk does not end. -/
def queryGridLastById (c : ChunkCodecs) (rows : List ChunkRow)
    (seriesId start stop step lookback : Int) : Except String (Option (List Point)) := do
  let n ← validateGridLast start stop step lookback
  if n = 0 then return some []
  else
    let samples ← queryRangeById c rows seriesId (saturating (start - lookback)) stop
    return gridLastWalk samples start stop step lookback

/-- The parameter of an operation is in its documented range. -/
def checkWindowOp (ops : WindowFloats) : WindowOp → Except String Unit
  | .percentile q =>
      rejectIf (!(ops.lt (ops.ofNat 0) q && ops.ge (ops.ofNat 100) q))
        s!"percentile must be in (0, 100], got {ops.display q}"
  | .trimmedMean q =>
      rejectIf (!(ops.ge q (ops.ofNat 0) && ops.lt q (ops.ofNat 50)))
        s!"trim fraction must be in [0, 50), got {ops.display q}"
  | _ => .ok ()

/-- The window query of one series; the rows are none if the walk does not end. -/
def queryWindowOpById (ops : WindowFloats) (c : ChunkCodecs) (rows : List ChunkRow)
    (seriesId start stop step window : Int) (op : WindowOp) :
    Except String (Option (List Point)) := do
  checkWindowOp ops op
  let n ← validateWindow start stop step window
  if n = 0 then return some []
  else
    let samples ← queryRangeById c rows seriesId (saturating (start - window)) stop
    return windowOpWalk ops samples start stop step window op

/-- All samples of a series, in the order of a range query. -/
def allSamples (c : ChunkCodecs) (rows : List ChunkRow) (seriesId : Int) : List Point :=
  stableSort Prod.fst (seriesPoints c rows seriesId i64Min i64Max)

variable {step n : Int}

theorem validateGridLast_eq_ok {start stop lookback : Int}
    (h : validateGridLast start stop step lookback = .ok n) :
    0 ≤ lookback ∧ gridLen start stop step = .ok n := by
  unfold validateGridLast at h
  split_ifs at h with hneg
  exact ⟨not_lt.mp hneg, h⟩

theorem validateWindow_eq_ok {start stop window : Int}
    (h : validateWindow start stop step window = .ok n) :
    0 < window ∧ gridLen start stop step = .ok n := by
  unfold validateWindow at h
  split_ifs at h with hneg
  exact ⟨not_le.mp hneg, h⟩

theorem i64Min_le_saturating (x : Int) : i64Min ≤ saturating x :=
  le_max_left _ _

theorem le_saturating {x y : Int} (hy : InI64 y) (h : x ≤ y) : saturating x ≤ y := by
  unfold saturating
  obtain ⟨hlo, hhi⟩ := hy
  omega

section Queries

variable {c : ChunkCodecs} (t : ReadTable c) {start stop : Int}

/-- The samples of a window in the range that is read are those of the series. -/
theorem samplesIn_range (seriesId : Int) {reach after upto : Int} (hstop : InI64 stop)
    (hafter : start - reach ≤ after) (hupto : upto ≤ stop) :
    samplesIn (stableSort Prod.fst
      (seriesPoints c t.rows seriesId (saturating (start - reach)) stop)) after upto =
      samplesIn (allSamples c t.rows seriesId) after upto := by
  rw [seriesPoints_narrow t (i64Min_le_saturating _) hstop.2, ← filter_stableSort, samplesIn,
    samplesIn, List.filter_filter, allSamples]
  refine List.filter_congr fun p hp => ?_
  have hin := ((mem_seriesPoints t).mp (mem_stableSort.mp hp)).2
  rw [← Bool.decide_and, decide_eq_decide]
  constructor
  · exact And.left
  · rintro ⟨hlo, hhi⟩
    exact ⟨⟨hlo, hhi⟩, le_saturating hin (by omega), hhi.trans hupto⟩

/-- The rows of a grid depend on the value at its points only. -/
theorem gridRows_congr {f g : Int → Option F64} {times : List Int} (h : ∀ t ∈ times, f t = g t) :
    gridRows f times = gridRows g times :=
  List.flatMap_congr fun t ht => by rw [h t ht]

theorem queryGridLastById_eq (seriesId : Int) {lookback : Int} (hstart : InI64 start)
    (hstop : InI64 stop) (hn : validateGridLast start stop step lookback = .ok n) :
    queryGridLastById c t.rows seriesId start stop step lookback =
      .ok (some (gridRows (gridLast (allSamples c t.rows seriesId) lookback)
        (gridTimes start stop step))) := by
  obtain ⟨-, hlen⟩ := validateGridLast_eq_ok hn
  obtain ⟨hstep, hcount, -⟩ := gridLen_eq_ok hlen
  rw [queryGridLastById, hn, ok_bind]
  split_ifs with hzero
  · rw [List.eq_nil_of_length_eq_zero (by omega : (gridTimes start stop step).length = 0)]
    rfl
  · rw [queryRangeById_eq, ok_bind, gridLastWalk_eq (sorted_stableSort Prod.fst _) lookback hstart
      hstop hstep (gridLen_ne_zero hlen hzero)]
    refine congrArg (fun rows => Except.ok (some rows)) (gridRows_congr fun time htime => ?_)
    obtain ⟨k, rfl, hle⟩ := (mem_gridTimes hstep).mp htime
    have hk : 0 ≤ (k : Int) * step := Int.mul_nonneg (Int.natCast_nonneg k) hstep.le
    rw [gridLast, gridLast, samplesIn_range t seriesId hstop (by omega) hle]

theorem queryWindowOpById_eq (ops : WindowFloats) (seriesId : Int) {window : Int} {op : WindowOp}
    (hstart : InI64 start) (hstop : InI64 stop) (hop : checkWindowOp ops op = .ok ())
    (hn : validateWindow start stop step window = .ok n) :
    queryWindowOpById ops c t.rows seriesId start stop step window op =
      .ok (some (gridRows (windowOpAt ops (allSamples c t.rows seriesId) window op)
        (gridTimes start stop step))) := by
  obtain ⟨hwindow, hlen⟩ := validateWindow_eq_ok hn
  obtain ⟨hstep, hcount, -⟩ := gridLen_eq_ok hlen
  rw [queryWindowOpById, hop, ok_bind, hn, ok_bind]
  split_ifs with hzero
  · rw [List.eq_nil_of_length_eq_zero (by omega : (gridTimes start stop step).length = 0)]
    rfl
  · rw [queryRangeById_eq, ok_bind, windowOpWalk_eq ops (sorted_stableSort Prod.fst _) op hstart
      hstop hstep (gridLen_ne_zero hlen hzero) hwindow.le]
    refine congrArg (fun rows => Except.ok (some rows)) (gridRows_congr fun time htime => ?_)
    obtain ⟨k, rfl, hle⟩ := (mem_gridTimes hstep).mp htime
    have hk : 0 ≤ (k : Int) * step := Int.mul_nonneg (Int.natCast_nonneg k) hstep.le
    rw [windowOpAt, windowOpAt, samplesIn_range t seriesId hstop (by omega) hle]

end Queries

/-- **The grid kernels.** For a grid of 64-bit integers that is accepted, its points are those of the
progression up to its end, each once and in range; both walks end and return at each point what the
samples of its window give; and the queries do so over the whole series. -/
theorem kernels_eq_definition {c : ChunkCodecs} (t : ChunkTable c) {start stop : Int}
    (ops : WindowFloats) (seriesId step : Int) (hstart : InI64 start) (hstop : InI64 stop) :
    (∀ n, gridLen start stop step = .ok n →
      (∀ time, time ∈ gridTimes start stop step ↔
        ∃ k : Nat, time = start + k * step ∧ time ≤ stop) ∧
      (gridTimes start stop step).Pairwise (· < ·) ∧
      (∀ time ∈ gridTimes start stop step, InI64 time) ∧
      n = (gridTimes start stop step).length) ∧
    (∀ samples : List Point, samples.Pairwise (fun p q => p.1 ≤ q.1) → ∀ lookback n,
      validateGridLast start stop step lookback = .ok n → n ≠ 0 →
        gridLastWalk samples start stop step lookback =
          some (gridRows (gridLast samples lookback) (gridTimes start stop step))) ∧
    (∀ samples : List Point, samples.Pairwise (fun p q => p.1 ≤ q.1) → ∀ window op n,
      validateWindow start stop step window = .ok n → n ≠ 0 →
        windowOpWalk ops samples start stop step window op =
          some (gridRows (windowOpAt ops samples window op) (gridTimes start stop step))) ∧
    (∀ lookback n, validateGridLast start stop step lookback = .ok n →
      queryGridLastById c t.rows seriesId start stop step lookback =
        .ok (some (gridRows (gridLast (allSamples c t.rows seriesId) lookback)
          (gridTimes start stop step)))) ∧
    (∀ window op n, checkWindowOp ops op = .ok () →
      validateWindow start stop step window = .ok n →
        queryWindowOpById ops c t.rows seriesId start stop step window op =
          .ok (some (gridRows (windowOpAt ops (allSamples c t.rows seriesId) window op)
            (gridTimes start stop step)))) := by
  refine ⟨fun n hn => ?_, fun samples hsorted lookback n hn hne => ?_,
    fun samples hsorted window op n hn hne => ?_,
    fun lookback n hn => queryGridLastById_eq t.toReadTable seriesId hstart hstop hn,
    fun window op n hop hn =>
      queryWindowOpById_eq t.toReadTable ops seriesId hstart hstop hop hn⟩
  · obtain ⟨hstep, hcount, -⟩ := gridLen_eq_ok hn
    refine ⟨fun time => mem_gridTimes hstep, gridTimes_ascending start stop hstep,
      fun time htime => ?_, hcount⟩
    obtain ⟨k, rfl, hle⟩ := (mem_gridTimes hstep).mp htime
    have hk : 0 ≤ (k : Int) * step := Int.mul_nonneg (Int.natCast_nonneg k) hstep.le
    exact ⟨hstart.1.trans (by omega), hle.trans hstop.2⟩
  · obtain ⟨-, hlen⟩ := validateGridLast_eq_ok hn
    exact gridLastWalk_eq hsorted lookback hstart hstop (gridLen_eq_ok hlen).1
      (gridLen_ne_zero hlen hne)
  · obtain ⟨hwindow, hlen⟩ := validateWindow_eq_ok hn
    exact windowOpWalk_eq ops hsorted op hstart hstop (gridLen_eq_ok hlen).1
      (gridLen_ne_zero hlen hne) hwindow.le

/-- A series at the end of time. -/
def lastSamples : List Point :=
  [(i64Max - 20, 5), (i64Max - 6, 7)]

def lastTable : ChunkTable ChunkCodecs.storing where
  rows := [rawChunk 1 4 lastSamples (some 7)]
  sound row hrow := by
    obtain rfl := List.mem_singleton.mp hrow
    refine (rawChunk_sound _ 1 4 (by decide) (by decide) (by decide) ?_).1
    rintro v ⟨⟩
    decide
  ids := List.nodup_singleton _

/-- The step behind the last point of this grid is out of range. -/
theorem kernels_eq_definition_last :
    gridLastWalk lastSamples (i64Max - 20) i64Max 15 10 =
        some [(i64Max - 20, 5), (i64Max - 5, 7)] ∧
      windowOpWalk .words lastSamples (i64Max - 20) i64Max 15 15 .delta =
        some [(i64Max - 20, 0), (i64Max - 5, 0)] ∧
      queryGridLastById .storing lastTable.rows 4 (i64Max - 20) i64Max 15 10 =
        .ok (some (gridRows (gridLast (allSamples .storing lastTable.rows 4) 10)
          (gridTimes (i64Max - 20) i64Max 15))) := by
  obtain ⟨-, hlast, hwindow, hquery, -⟩ := kernels_eq_definition lastTable .words 4 15
    (show InI64 (i64Max - 20) by decide) (show InI64 i64Max by decide)
  exact ⟨(hlast _ (by decide) 10 2 (by decide) (by decide)).trans (by decide),
    (hwindow _ (by decide) 15 .delta 2 (by decide) (by decide)).trans (by decide),
    hquery 10 2 (by decide)⟩

end Timeless.Metrics
