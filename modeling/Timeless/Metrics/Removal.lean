import Timeless.Support.Outcome

/-!
# Removal — series without data

After retention has pruned chunks, the engine removes the series that are left with no raw chunk, no
rollup chunk and no buffered point. It asks the store for three lists. A list of rollups or of series
that cannot be read fails the removal; a list of raw chunks that cannot be read is taken for an empty
one.

* `removeSeries_iff`: only series without data are removed, and a failed read is reported, exactly if
  the list of raw chunks is read or another list fails;
* `removeSeries_loses_series`: otherwise a series is removed whose points are in the store.
-/

namespace Timeless.Metrics

open Support

/-- What the removal reads: the catalog, the series of every raw chunk and of every rollup chunk, and
the points that wait in a buffer. -/
structure SeriesTable where
  catalog : List Int64
  chunks : List Int64
  rollups : List Int64
  partitions : List (Int64 × List (Int64 × UInt64))
deriving DecidableEq

/-- The store's lists that cannot be read, with its error. -/
structure ReadFaults where
  chunks : Option String := none
  rollups : Option String := none
  series : Option String := none

/-- A list of the store. -/
def listed (fault : Option String) (ids : List Int64) : Except String (List Int64) :=
  match fault with
  | some error => .error error
  | none => .ok ids

/-- `unwrap_or_default`. -/
def chunkSeriesIds (faults : ReadFaults) (t : SeriesTable) : List Int64 :=
  match listed faults.chunks t.chunks with
  | .ok ids => ids
  | .error _ => []

def removeSeriesWithoutData (faults : ReadFaults) (t : SeriesTable) :
    Except String Nat × SeriesTable :=
  match listed faults.rollups t.rollups with
  | .error error => (.error s!"failed to list rollup series: {error}", t)
  | .ok rollups =>
      let buffered := (t.partitions.filter fun entry => entry.2 ≠ []).map Prod.fst
      let live := chunkSeriesIds faults t ++ rollups ++ buffered
      match listed faults.series t.catalog with
      | .error error => (.error s!"failed to list series: {error}", t)
      | .ok ids =>
          let doomed := ids.filter (· ∉ live)
          if doomed.isEmpty then (.ok 0, t)
          else (.ok doomed.length, { t with
            catalog := t.catalog.filter (· ∉ doomed)
            partitions := t.partitions.filter fun entry => entry.1 ∉ doomed })

/-- A series with a raw chunk, a rollup chunk or a buffered point. -/
def SeriesTable.HasData (t : SeriesTable) (id : Int64) : Prop :=
  id ∈ t.chunks ∨ id ∈ t.rollups ∨ ∃ points, (id, points) ∈ t.partitions ∧ points ≠ []

/-- Only series without data are removed; if a list cannot be read, nothing is, and the failure is
reported. -/
structure SafeRemoval (faults : ReadFaults) (t : SeriesTable) : Prop where
  dataless : ∀ id ∈ t.catalog, id ∉ (removeSeriesWithoutData faults t).2.catalog → ¬t.HasData id
  reported : faults.chunks ≠ none ∨ faults.rollups ≠ none ∨ faults.series ≠ none →
    (∃ error, (removeSeriesWithoutData faults t).1 = .error error) ∧
      (removeSeriesWithoutData faults t).2 = t

variable {faults : ReadFaults}

/-- A removal that reads both other lists returns a number. -/
theorem removeSeries_returns (hrollups : faults.rollups = none) (hseries : faults.series = none)
    (t : SeriesTable) :
    ∃ n, (removeSeriesWithoutData faults t).1 = .ok n := by
  simp only [removeSeriesWithoutData, hrollups, hseries, listed]
  split_ifs
  · exact ⟨0, rfl⟩
  · exact ⟨_, rfl⟩

/-- With all lists read, what is removed has no data. -/
theorem removeSeries_dataless (hchunks : faults.chunks = none) (hrollups : faults.rollups = none)
    (hseries : faults.series = none) {t : SeriesTable} {id : Int64} (hmem : id ∈ t.catalog)
    (hgone : id ∉ (removeSeriesWithoutData faults t).2.catalog) :
    ¬t.HasData id := by
  simp only [removeSeriesWithoutData, chunkSeriesIds, hchunks, hrollups, hseries, listed] at hgone
  split_ifs at hgone
  · exact absurd hmem hgone
  · have hdoomed := fun h => hgone (List.mem_filter.mpr ⟨hmem, decide_eq_true h⟩)
    have hlive := of_decide_eq_true (List.mem_filter.mp (not_not.mp hdoomed)).2
    simp only [List.mem_append, not_or] at hlive
    rintro (h | h | ⟨points, h, hne⟩)
    · exact hlive.1.1 h
    · exact hlive.1.2 h
    · exact hlive.2 (List.mem_map.mpr ⟨(id, points), List.mem_filter.mpr ⟨h, by simpa using hne⟩, rfl⟩)

/-- A failed list that is not that of raw chunks is reported, and nothing is removed. -/
theorem removeSeries_reported (h : faults.rollups ≠ none ∨ faults.series ≠ none) (t : SeriesTable) :
    (∃ error, (removeSeriesWithoutData faults t).1 = .error error) ∧
      (removeSeriesWithoutData faults t).2 = t := by
  cases hrollups : faults.rollups with
  | some error => simp [removeSeriesWithoutData, hrollups, listed]
  | none =>
      obtain ⟨error, hseries⟩ := Option.ne_none_iff_exists'.mp (h.resolve_left (· hrollups))
      simp [removeSeriesWithoutData, hrollups, hseries, listed]

/-- **Removal is safe** exactly if the list of raw chunks is read, or another list fails. -/
theorem removeSeries_iff (faults : ReadFaults) (t : SeriesTable) :
    SafeRemoval faults t ↔
      (faults.chunks = none ∨ faults.rollups ≠ none ∨ faults.series ≠ none) := by
  constructor
  · intro h
    by_contra hcon
    simp only [not_or, not_not] at hcon
    obtain ⟨hchunks, hrollups, hseries⟩ := hcon
    obtain ⟨error, herror⟩ := (h.reported (.inl hchunks)).1
    obtain ⟨n, hn⟩ := removeSeries_returns hrollups hseries t
    rw [herror] at hn
    cases hn
  · intro h
    by_cases hother : faults.rollups ≠ none ∨ faults.series ≠ none
    · have hreported := removeSeries_reported hother t
      refine ⟨fun id hmem hgone => ?_, fun _ => hreported⟩
      rw [hreported.2] at hgone
      exact absurd hmem hgone
    · have hchunks := h.resolve_right hother
      simp only [not_or, not_not] at hother
      refine ⟨fun id => removeSeries_dataless hchunks hother.1 hother.2, fun hfault => ?_⟩
      simp [hchunks, hother] at hfault

/-! ### A series that is lost -/

/-- A point is buffered for a series, which is created with it. -/
def SeriesTable.insertPoint (t : SeriesTable) (id ts : Int64) (value : UInt64) : SeriesTable :=
  { t with
    catalog := if id ∈ t.catalog then t.catalog else t.catalog ++ [id]
    partitions := match t.partitions.lookup id with
      | none => t.partitions ++ [(id, [(ts, value)])]
      | some _ => t.partitions.map fun entry =>
          if entry.1 = id then (id, entry.2 ++ [(ts, value)]) else entry }

/-- Buffered points become raw chunks, one for each series, and the buffers stay, empty. -/
def SeriesTable.flush (t : SeriesTable) : SeriesTable :=
  { t with
    chunks := t.chunks ++ (t.partitions.filter fun entry => entry.2 ≠ []).map Prod.fst
    partitions := t.partitions.map fun entry => (entry.1, []) }

/-- A point is inserted and flushed; then the list of raw chunks cannot be read. -/
theorem removeSeries_loses_series :
    let t := ((⟨[], [], [], []⟩ : SeriesTable).insertPoint 1 0 0).flush
    t = ⟨[1], [1], [], [(1, [])]⟩ ∧
      removeSeriesWithoutData { chunks := some "database is locked" } t =
        (.ok 1, ⟨[], [1], [], []⟩) := by
  decide +kernel

end Timeless.Metrics
