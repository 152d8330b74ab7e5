import Mathlib.Data.List.Nodup
import Mathlib.Logic.Function.Basic
import Timeless.Metrics.Chunk
import Timeless.Support.Keyed

/-!
# Reads — range queries over the chunks table

A range query looks up the chunks of its series that overlap the range, reads their payloads and
decodes them. For few series the payloads come with the chunks; for many the chunks are joined first
and their payloads are read in a second statement, from which each row can be taken once.

* `chunksByPosition_eq`: the chunks that were looked up are distributed over the places of their
  series, repetitions included;
* `readChunks_ok`, `readChunks_error`: the second statement answers exactly if no row is asked for
  twice;
* `queryRangeById_eq`: a range query of one series returns its points in the range, sorted stably.
-/

namespace Timeless.Metrics

open Support

/-! ### The table -/

abbrev ChunkRow.rowid (row : ChunkRow) : Int :=
  row.chunkMeta.rowid

/-- The raw chunks, each of which can be read, under distinct row ids. -/
structure ReadTable (c : ChunkCodecs) where
  rows : List ChunkRow
  readable : ∀ row ∈ rows, row.Readable c
  ids : (rows.map ChunkRow.rowid).Nodup

/-- The raw chunks, each of which is sound, under distinct row ids. -/
structure ChunkTable (c : ChunkCodecs) extends ReadTable c where
  sound : ∀ row ∈ rows, row.Sound c
  readable := fun row hrow => (sound row hrow).toReadable

/-- A chunk without its payload. -/
structure StoredChunk where
  seriesId : Int
  chunkMeta : ChunkMeta

def ChunkRow.stored (row : ChunkRow) : StoredChunk :=
  ⟨row.seriesId, row.chunkMeta⟩

/-- The row overlaps the range. -/
def ChunkRow.Overlaps (row : ChunkRow) (tStart tEnd : Int) : Prop :=
  row.chunkMeta.minTs ≤ tEnd ∧ tStart ≤ row.chunkMeta.maxTs

instance (row : ChunkRow) (tStart tEnd : Int) : Decidable (row.Overlaps tStart tEnd) :=
  inferInstanceAs (Decidable (_ ∧ _))

/-- By the least timestamp, then by the row id. -/
def ChunkRow.Before (a b : ChunkRow) : Prop :=
  a.chunkMeta.minTs < b.chunkMeta.minTs ∨
    a.chunkMeta.minTs = b.chunkMeta.minTs ∧ a.rowid ≤ b.rowid

instance : DecidableRel ChunkRow.Before := fun _ _ => inferInstanceAs (Decidable (_ ∨ _))

/-- By the series, then by the least timestamp and the row id. -/
def ChunkRow.BeforeIn (a b : ChunkRow) : Prop :=
  a.seriesId < b.seriesId ∨ a.seriesId = b.seriesId ∧ a.Before b

instance : DecidableRel ChunkRow.BeforeIn := fun _ _ => inferInstanceAs (Decidable (_ ∨ _))

variable (rows : List ChunkRow)

/-- The statement for one series. -/
def chunkRowsOne (seriesId tStart tEnd : Int) : List ChunkRow :=
  (rows.filter fun row => row.seriesId = seriesId ∧ row.Overlaps tStart tEnd).insertionSort
    ChunkRow.Before

/-- The statement for many series. -/
def chunkRowsMany (seriesIds : List Int) (tStart tEnd : Int) :
    List ChunkRow :=
  (rows.filter fun row => row.seriesId ∈ seriesIds ∧ row.Overlaps tStart tEnd).insertionSort
    ChunkRow.BeforeIn

/-- How many series are looked up one by one. -/
def probeSeriesAtMost : Nat := 256

def chunkMetasFor (seriesIds : List Int) (tStart tEnd : Int) :
    List StoredChunk :=
  if seriesIds.length ≤ probeSeriesAtMost then
    seriesIds.flatMap fun id => (chunkRowsOne rows id tStart tEnd).map ChunkRow.stored
  else (chunkRowsMany rows seriesIds tStart tEnd).map ChunkRow.stored

/-- The chunks with their payloads, if they are looked up one by one. -/
def chunkRowsFor (seriesIds : List Int) (tStart tEnd : Int) :
    Option (List (StoredChunk × ChunkBytes)) :=
  if probeSeriesAtMost < seriesIds.length then none
  else some <| seriesIds.flatMap fun id =>
    (chunkRowsOne rows id tStart tEnd).map fun row => (row.stored, row.bytes)

/-- Take the rows out of the map of what was read. -/
def takeChunks (byId : Int → Option ChunkBytes) : List Int → Except String (List ChunkBytes)
  | [] => .ok []
  | rowid :: rowids =>
      match byId rowid with
      | none => .error s!"chunk row {rowid} disappeared during batch read"
      | some bytes => do
          let rest ← takeChunks (Function.update byId rowid none) rowids
          return bytes :: rest

/-- The payload of a row. -/
def bytesOf (rowid : Int) : Option ChunkBytes :=
  (rows.find? fun row => row.rowid = rowid).map ChunkRow.bytes

/-- The payloads of the given rows. -/
def readChunks (rowids : List Int) : Except String (List ChunkBytes) :=
  takeChunks (bytesOf (rows.filter fun row => row.rowid ∈ rowids)) rowids

/-! ### Looking chunks up -/

def addChunk (bySeries : Int → Option (List ChunkMeta)) (chunk : StoredChunk) :
    Int → Option (List ChunkMeta) :=
  Function.update bySeries chunk.seriesId
    (some ((bySeries chunk.seriesId).getD [] ++ [chunk.chunkMeta]))

/-- The chunks of each series. -/
def groupChunks (chunks : List StoredChunk) : Int → Option (List ChunkMeta) :=
  chunks.foldl addChunk fun _ => none

def addUse (remaining : Int → Nat) (id : Int) : Int → Nat :=
  Function.update remaining id (remaining id + 1)

/-- How often each id is used. -/
def countIds (seriesIds : List Int) : Int → Nat :=
  seriesIds.foldl addUse fun _ => 0

/-- The last use of an id takes its list, the earlier ones copy it. -/
def takeByPosition (bySeries : Int → Option (List ChunkMeta)) (remaining : Int → Nat) :
    List Int → List (List ChunkMeta)
  | [] => []
  | id :: ids =>
      let left := remaining id - 1
      let remaining := Function.update remaining id left
      (bySeries id).getD [] ::
        if left = 0 then takeByPosition (Function.update bySeries id none) remaining ids
        else takeByPosition bySeries remaining ids

def chunksByPosition (seriesIds : List Int) (chunks : List StoredChunk) : List (List ChunkMeta) :=
  takeByPosition (groupChunks chunks) (countIds seriesIds) seriesIds

/-- The ids without repetitions. -/
def distinctIds (seriesIds : List Int) : List Int :=
  (seriesIds.insertionSort (· ≤ ·)).dedup

def chunkMetasBatch (seriesIds : List Int) (tStart tEnd : Int) :
    List (List ChunkMeta) :=
  chunksByPosition seriesIds (chunkMetasFor rows (distinctIds seriesIds) tStart tEnd)

/-- The chunks at the place of each series, and the payloads that came with them by row. -/
def chunkMetasBatchCarrying (seriesIds : List Int) (tStart tEnd : Int) :
    List (List ChunkMeta) × List (Int × ChunkBytes) :=
  match chunkRowsFor rows (distinctIds seriesIds) tStart tEnd with
  | some found =>
      (chunksByPosition seriesIds (found.map Prod.fst),
        found.map fun chunk => (chunk.1.chunkMeta.rowid, chunk.2))
  | none => (chunkMetasBatch rows seriesIds tStart tEnd, [])

/-- The payloads of the given rows: the carried ones if every one was carried. -/
def readChunksCarried (rowids : List Int) (carried : List (Int × ChunkBytes)) :
    Except String (List ChunkBytes) :=
  match rowids.mapM fun rowid => (carried.find? fun e => e.1 = rowid).map Prod.snd with
  | some payloads => if carried = [] then readChunks rows rowids else .ok payloads
  | none => readChunks rows rowids

/-! ### One series -/

/-- The points of one series in a range. -/
def queryRangeById (c : ChunkCodecs) (rows : List ChunkRow) (seriesId tStart tEnd : Int) :
    Except String (List Point) := do
  let found := chunkMetasBatchCarrying rows [seriesId] tStart tEnd
  let matching := found.1.getLast?.getD []
  let locs := matching.map ChunkMeta.rowid
  let bytes ← readChunksCarried rows locs found.2
  rejectIf (bytes.length ≠ locs.length)
    s!"chunk read returned {bytes.length} payloads for {locs.length} locations"
  let decoded ← (matching.zip bytes).mapM fun e => decodeChunkData c e.1 e.2 tStart tEnd
  return stableSort Prod.fst decoded.flatten

/-! ### Distributing chunks -/

theorem groupChunks_eq (chunks : List StoredChunk) (id : Int) :
    (groupChunks chunks id).getD [] =
      (chunks.filter fun chunk => chunk.seriesId = id).map StoredChunk.chunkMeta := by
  suffices h : ∀ bySeries, ((chunks.foldl addChunk bySeries) id).getD [] =
      (bySeries id).getD [] ++
        (chunks.filter fun chunk => chunk.seriesId = id).map StoredChunk.chunkMeta from
    h fun _ => none
  induction chunks with
  | nil => simp
  | cons chunk chunks ih =>
      intro bySeries
      rw [List.foldl_cons, ih, addChunk]
      by_cases hid : chunk.seriesId = id
      · subst hid
        simp
      · rw [Function.update_of_ne (Ne.symm hid)]
        simp [hid]

theorem countIds_eq (seriesIds : List Int) (id : Int) :
    countIds seriesIds id = seriesIds.count id := by
  suffices h : ∀ remaining, (seriesIds.foldl addUse remaining) id =
      remaining id + seriesIds.count id from
    (h fun _ => 0).trans (Nat.zero_add _)
  induction seriesIds with
  | nil => simp
  | cons a ids ih =>
      intro remaining
      rw [List.foldl_cons, ih, addUse]
      by_cases hid : a = id
      · subst hid
        rw [Function.update_self, List.count_cons_self]
        omega
      · rw [Function.update_of_ne (Ne.symm hid), List.count_cons_of_ne hid]

/-- The lists of the ids ahead are still there, as long as the counts are right. -/
theorem takeByPosition_eq {f : Int → List ChunkMeta} {bySeries : Int → Option (List ChunkMeta)}
    {remaining : Int → Nat} {ids : List Int} (hlists : ∀ id ∈ ids, (bySeries id).getD [] = f id)
    (hcounts : ∀ id, remaining id = ids.count id) :
    takeByPosition bySeries remaining ids = ids.map f := by
  induction ids generalizing bySeries remaining with
  | nil => rfl
  | cons id ids ih =>
      rw [List.forall_mem_cons] at hlists
      have hleft : remaining id - 1 = ids.count id := by
        rw [hcounts, List.count_cons_self, Nat.add_sub_cancel]
      have hcounts' : ∀ i, Function.update remaining id (remaining id - 1) i = ids.count i := by
        intro i
        by_cases hi : i = id
        · rw [hi, Function.update_self, hleft]
        · rw [Function.update_of_ne hi, hcounts, List.count_cons_of_ne (Ne.symm hi)]
      rw [takeByPosition, List.map_cons, hlists.1]
      refine congrArg _ ?_
      split_ifs with hzero
      · -- this was the last use
        have hlast : id ∉ ids := List.count_eq_zero.mp (hleft.symm.trans hzero)
        refine ih (fun i hi => ?_) hcounts'
        rw [Function.update_of_ne (ne_of_mem_of_not_mem hi hlast), hlists.2 i hi]
      · exact ih hlists.2 hcounts'

/-- Every place gets the chunks of its series. -/
theorem chunksByPosition_eq (seriesIds : List Int) (chunks : List StoredChunk) :
    chunksByPosition seriesIds chunks = seriesIds.map fun id =>
      (chunks.filter fun chunk => chunk.seriesId = id).map StoredChunk.chunkMeta :=
  takeByPosition_eq (fun id _ => groupChunks_eq chunks id) fun id => countIds_eq seriesIds id

/-! ### Reading payloads -/

variable {seriesIds : List Int} {byId : Int → Option ChunkBytes} {rowids : List Int}

theorem takeChunks_ok {f : Int → ChunkBytes} (hrows : ∀ rowid ∈ rowids, byId rowid = some (f rowid))
    (hnodup : rowids.Nodup) :
    takeChunks byId rowids = .ok (rowids.map f) := by
  induction rowids generalizing byId with
  | nil => rfl
  | cons rowid rowids ih =>
      rw [List.forall_mem_cons] at hrows
      obtain ⟨hfirst, hnodup⟩ := List.nodup_cons.mp hnodup
      have hrest : takeChunks (Function.update byId rowid none) rowids = .ok (rowids.map f) := by
        refine ih (fun r hr => ?_) hnodup
        rw [Function.update_of_ne (ne_of_mem_of_not_mem hr hfirst), hrows.2 r hr]
      rw [takeChunks, hrows.1]
      simp only [hrest, ok_bind, List.map_cons]
      rfl

/-- A row that was taken before is not there any more. -/
theorem takeChunks_gone {rowid : Int} (hmem : rowid ∈ rowids) (hgone : byId rowid = none) :
    ∃ e, takeChunks byId rowids = .error e := by
  induction rowids generalizing byId with
  | nil => cases hmem
  | cons r rowids ih =>
      rw [takeChunks]
      cases hr : byId r with
      | none => exact ⟨_, rfl⟩
      | some bytes =>
          have hne : rowid ≠ r := by
            rintro rfl
            rw [hgone] at hr
            cases hr
          have hstill : Function.update byId r none rowid = none := by
            rw [Function.update_of_ne hne, hgone]
          obtain ⟨e, he⟩ := ih ((List.mem_cons.mp hmem).resolve_left hne) hstill
          exact ⟨e, by simp only [he]; rfl⟩

theorem takeChunks_error (hdup : ¬rowids.Nodup) : ∃ e, takeChunks byId rowids = .error e := by
  induction rowids generalizing byId with
  | nil => exact absurd List.nodup_nil hdup
  | cons r rowids ih =>
      rw [takeChunks]
      cases byId r with
      | none => exact ⟨_, rfl⟩
      | some bytes =>
          obtain ⟨e, he⟩ : ∃ e, takeChunks (Function.update byId r none) rowids = .error e := by
            by_cases hmem : r ∈ rowids
            · exact takeChunks_gone hmem (Function.update_self _ _ _)
            · exact ih fun hnodup => hdup (List.nodup_cons.mpr ⟨hmem, hnodup⟩)
          exact ⟨e, by simp only [he]; rfl⟩

theorem eq_of_rowid {rows : List ChunkRow} (hids : (rows.map ChunkRow.rowid).Nodup)
    {a b : ChunkRow} (ha : a ∈ rows) (hb : b ∈ rows)
    (h : a.rowid = b.rowid) : a = b :=
  List.inj_on_of_nodup_map hids ha hb h

variable {row : ChunkRow}

theorem bytesOf_of_mem {rows : List ChunkRow} (hids : (rows.map ChunkRow.rowid).Nodup)
    (hrow : row ∈ rows) :
    bytesOf rows row.rowid = some row.bytes := by
  rw [bytesOf]
  cases hfind : rows.find? fun r => r.rowid = row.rowid with
  | none => exact absurd (decide_eq_true rfl) (List.find?_eq_none.mp hfind row hrow)
  | some r =>
      have hid : r.rowid = row.rowid := by simpa using List.find?_some hfind
      rw [eq_of_rowid hids (List.mem_of_find?_eq_some hfind) hrow hid, Option.map_some]

section Table

variable {c : ChunkCodecs} (t : ReadTable c)

/-- Rows that are asked for once are read. -/
theorem readChunks_ok {found : List ChunkRow} (hmem : ∀ row ∈ found, row ∈ t.rows)
    (hnodup : (found.map ChunkRow.rowid).Nodup) :
    readChunks t.rows (found.map ChunkRow.rowid) =
      .ok (found.map ChunkRow.bytes) := by
  have hbytes : ∀ row ∈ found, bytesOf (t.rows.filter fun row =>
      row.rowid ∈ found.map ChunkRow.rowid) row.rowid =
      some row.bytes := by
    intro row hrow
    refine bytesOf_of_mem (t.ids.sublist (List.filter_sublist.map _))
      (List.mem_filter.mpr ⟨hmem row hrow, decide_eq_true ?_⟩)
    exact List.mem_map_of_mem hrow
  rw [readChunks, takeChunks_ok (f := fun rowid => ((bytesOf (t.rows.filter fun row =>
    row.rowid ∈ found.map ChunkRow.rowid) rowid).getD ⟨[], []⟩)) _ hnodup,
    List.map_map]
  · refine congrArg _ (List.map_congr_left fun row hrow => ?_)
    rw [Function.comp_apply, hbytes row hrow, Option.getD_some]
  · intro rowid hrowid
    obtain ⟨row, hrow, rfl⟩ := List.mem_map.mp hrowid
    rw [hbytes row hrow, Option.getD_some]

/-- The rows of several series are distinct exactly if no series that has one is repeated. -/
theorem nodup_rowids_iff {f : Int → List ChunkRow}
    (hrows : ∀ id, ∀ row ∈ f id, row ∈ t.rows ∧ row.seriesId = id)
    (hnodup : ∀ id, ((f id).map ChunkRow.rowid).Nodup) (seriesIds : List Int) :
    ((seriesIds.flatMap f).map ChunkRow.rowid).Nodup ↔
      seriesIds.Pairwise fun i j => i = j → f i = [] := by
  rw [List.map_flatMap, List.nodup_flatMap]
  constructor
  · rintro ⟨-, hdisjoint⟩
    refine hdisjoint.imp fun {i j} hij heq => ?_
    subst heq
    rw [List.eq_nil_iff_forall_not_mem]
    exact fun row hrow => hij (List.mem_map_of_mem hrow) (List.mem_map_of_mem hrow)
  · intro hpair
    refine ⟨fun id _ => hnodup id, hpair.imp fun {i j} hij rowid hi hj => ?_⟩
    obtain ⟨a, ha, rfl⟩ := List.mem_map.mp hi
    obtain ⟨b, hb, hid⟩ := List.mem_map.mp hj
    obtain ⟨haT, hai⟩ := hrows i a ha
    obtain ⟨hbT, hbj⟩ := hrows j b hb
    obtain rfl := eq_of_rowid t.ids hbT haT hid
    rw [hij (hai.symm.trans hbj)] at ha
    cases ha

/-- A chunk asked for twice is an error. -/
theorem readChunks_error (h : ¬rowids.Nodup) :
    ∃ e, readChunks rows rowids = .error e :=
  takeChunks_error h

theorem mapM_some {α β : Type} {f : α → Option β} {g : α → β} {l : List α}
    (h : ∀ a ∈ l, f a = some (g a)) : l.mapM f = some (l.map g) := by
  induction l with
  | nil => rfl
  | cons a l ih =>
      rw [List.forall_mem_cons] at h
      rw [List.mapM_cons, h.1, ih h.2]
      rfl

/-- Payloads that were carried need not be read. -/
theorem readChunksCarried_ok {found carried : List ChunkRow}
    (hmem : ∀ row ∈ carried, row ∈ t.rows) (hfound : ∀ row ∈ found, row ∈ carried) :
    readChunksCarried t.rows (found.map ChunkRow.rowid)
      (carried.map fun row => (row.rowid, row.bytes)) =
      .ok (found.map ChunkRow.bytes) := by
  have hfind : ∀ row ∈ found, ((carried.map fun row => (row.rowid, row.bytes)).find? fun e =>
      e.1 = row.rowid).map Prod.snd = some row.bytes := by
    intro row hrow
    cases hfind : (carried.map fun row => (row.rowid, row.bytes)).find? fun e =>
        e.1 = row.rowid with
    | none =>
        have hnone := List.find?_eq_none.mp hfind _ (List.mem_map_of_mem (hfound row hrow))
        exact absurd (decide_eq_true rfl) hnone
    | some e =>
        have hid : e.1 = row.rowid := by simpa using List.find?_some hfind
        obtain ⟨r, hr, rfl⟩ := List.mem_map.mp (List.mem_of_find?_eq_some hfind)
        rw [eq_of_rowid t.ids (hmem r hr) (hmem row (hfound row hrow)) hid, Option.map_some]
  have hall : (found.map ChunkRow.rowid).mapM (fun rowid => ((carried.map fun row =>
      (row.rowid, row.bytes)).find? fun e => e.1 = rowid).map Prod.snd) =
      some (found.map ChunkRow.bytes) := by
    rw [List.mapM_map]
    exact mapM_some hfind
  rw [readChunksCarried, hall]
  dsimp only
  split_ifs with hempty
  · -- nothing was carried because there is nothing to read
    have hnone : found = [] := by
      rw [List.eq_nil_iff_forall_not_mem]
      intro row hrow
      rw [List.map_eq_nil_iff.mp hempty] at hfound
      exact List.not_mem_nil (hfound row hrow)
    rw [hnone]
    rfl
  · rfl

/-! ### Looking up -/

variable {seriesId tStart tEnd id : Int}

theorem mem_chunkRowsOne {rows : List ChunkRow} :
    row ∈ chunkRowsOne rows seriesId tStart tEnd ↔
      row ∈ rows ∧ row.seriesId = seriesId ∧ row.Overlaps tStart tEnd := by
  rw [chunkRowsOne, List.mem_insertionSort, List.mem_filter, decide_eq_true_eq]

instance : Std.Total ChunkRow.Before :=
  ⟨fun a b => by unfold ChunkRow.Before; omega⟩

instance : IsTrans ChunkRow ChunkRow.Before :=
  ⟨fun a b d hab hbd => by unfold ChunkRow.Before at *; omega⟩

theorem sorted_chunkRowsOne (seriesId tStart tEnd : Int) :
    (chunkRowsOne rows seriesId tStart tEnd).Pairwise ChunkRow.Before :=
  List.pairwise_insertionSort _ _

theorem sorted_chunkRowsMany (seriesIds : List Int) (tStart tEnd : Int) :
    (chunkRowsMany rows seriesIds tStart tEnd).Pairwise ChunkRow.BeforeIn := by
  have htotal : Std.Total ChunkRow.BeforeIn :=
    ⟨fun a b => by unfold ChunkRow.BeforeIn ChunkRow.Before; omega⟩
  have htrans : IsTrans ChunkRow ChunkRow.BeforeIn :=
    ⟨fun a b d hab hbd => by unfold ChunkRow.BeforeIn ChunkRow.Before at *; omega⟩
  exact List.pairwise_insertionSort _ _

theorem nodup_chunkRowsOne (seriesId tStart tEnd : Int) :
    ((chunkRowsOne t.rows seriesId tStart tEnd).map ChunkRow.rowid).Nodup :=
  ((List.perm_insertionSort _ _).map _).nodup_iff.mpr
    (t.ids.sublist (List.filter_sublist.map _))

/-- The chunks of one series among those of many. -/
theorem filter_chunkRowsMany (hid : id ∈ seriesIds) (tStart tEnd : Int) :
    (chunkRowsMany t.rows seriesIds tStart tEnd).filter (fun row => row.seriesId = id) =
      chunkRowsOne t.rows id tStart tEnd := by
  have hmany : ((chunkRowsMany t.rows seriesIds tStart tEnd).filter fun row =>
      row.seriesId = id).Pairwise ChunkRow.Before := by
    refine ((sorted_chunkRowsMany t.rows seriesIds tStart tEnd).filter _).imp_of_mem ?_
    intro a b ha hb hab
    have ha := of_decide_eq_true (List.mem_filter.mp ha).2
    have hb := of_decide_eq_true (List.mem_filter.mp hb).2
    exact hab.elim (fun h => absurd (ha.trans hb.symm) h.ne) And.right
  have hperm : ((chunkRowsMany t.rows seriesIds tStart tEnd).filter fun row =>
      row.seriesId = id).Perm (chunkRowsOne t.rows id tStart tEnd) := by
    refine ((List.perm_insertionSort _ _).filter _).trans
      (List.Perm.trans ?_ (List.perm_insertionSort _ _).symm)
    rw [List.filter_filter]
    refine List.Perm.of_eq (List.filter_congr fun row _ => ?_)
    rw [← Bool.decide_and, decide_eq_decide]
    constructor
    · rintro ⟨hrow, -, hoverlaps⟩
      exact ⟨hrow, hoverlaps⟩
    · rintro ⟨hrow, hoverlaps⟩
      exact ⟨hrow, hrow ▸ hid, hoverlaps⟩
  refine List.Perm.eq_of_pairwise ?_ hmany (sorted_chunkRowsOne _ _ _ _) hperm
  intro a b ha hb hab hba
  refine eq_of_rowid t.ids (mem_chunkRowsOne.mp (hperm.mem_iff.mp ha)).1
    (mem_chunkRowsOne.mp hb).1 ?_
  unfold ChunkRow.Before at hab hba
  omega

theorem flatMap_of_nodup {α β : Type} {f : α → List β} {l : List α} (hl : l.Nodup) {a : α}
    (ha : a ∈ l) (hother : ∀ b ∈ l, b ≠ a → f b = []) : l.flatMap f = f a := by
  induction l with
  | nil => cases ha
  | cons b l ih =>
      obtain ⟨hb, hl⟩ := List.nodup_cons.mp hl
      rw [List.flatMap_cons]
      rcases List.mem_cons.mp ha with rfl | ha
      · have hrest : l.flatMap f = [] := by
          rw [List.flatMap_eq_nil_iff]
          exact fun d hd => hother d (List.mem_cons_of_mem _ hd) (ne_of_mem_of_not_mem hd hb)
        rw [hrest, List.append_nil]
      · rw [hother b List.mem_cons_self (ne_of_mem_of_not_mem ha hb).symm, List.nil_append,
          ih hl ha fun d hd => hother d (List.mem_cons_of_mem _ hd)]

/-- The chunks of one series among those that are looked up one by one. -/
theorem filter_flatMap_chunkRowsOne (hnodup : seriesIds.Nodup) (hid : id ∈ seriesIds)
    (tStart tEnd : Int) :
    (seriesIds.flatMap fun id => chunkRowsOne rows id tStart tEnd).filter
      (fun row => row.seriesId = id) = chunkRowsOne rows id tStart tEnd := by
  rw [List.filter_flatMap, flatMap_of_nodup hnodup hid]
  · exact List.filter_eq_self.mpr fun row hrow => decide_eq_true (mem_chunkRowsOne.mp hrow).2.1
  · intro other _ hne
    refine List.filter_eq_nil_iff.mpr fun row hrow => ?_
    rw [decide_eq_true_eq, (mem_chunkRowsOne.mp hrow).2.1]
    exact hne

theorem nodup_distinctIds (seriesIds : List Int) : (distinctIds seriesIds).Nodup :=
  List.nodup_dedup _

theorem mem_distinctIds :
    id ∈ distinctIds seriesIds ↔ id ∈ seriesIds := by
  rw [distinctIds, List.mem_dedup, List.mem_insertionSort]

theorem filter_stored (id : Int) :
    ((rows.map ChunkRow.stored).filter fun chunk => chunk.seriesId = id).map
      StoredChunk.chunkMeta = (rows.filter fun row => row.seriesId = id).map ChunkRow.chunkMeta := by
  rw [List.filter_map, List.map_map]
  rfl

/-- **Looking up.** Every place gets the chunks of its series that overlap the range. -/
theorem chunkMetasBatch_eq (seriesIds : List Int) (tStart tEnd : Int) :
    chunkMetasBatch t.rows seriesIds tStart tEnd = seriesIds.map fun id =>
      (chunkRowsOne t.rows id tStart tEnd).map ChunkRow.chunkMeta := by
  rw [chunkMetasBatch, chunksByPosition_eq]
  refine List.map_congr_left fun id hid => ?_
  have hmem := mem_distinctIds.mpr hid
  unfold chunkMetasFor
  split_ifs
  · rw [← List.map_flatMap, filter_stored,
      filter_flatMap_chunkRowsOne _ (nodup_distinctIds _) hmem]
  · rw [filter_stored, filter_chunkRowsMany t hmem]

/-- The rows whose payloads are carried. -/
def carriedRows (seriesIds : List Int) (tStart tEnd : Int) :
    List ChunkRow :=
  if probeSeriesAtMost < (distinctIds seriesIds).length then []
  else (distinctIds seriesIds).flatMap fun id => chunkRowsOne rows id tStart tEnd

theorem chunkMetasBatchCarrying_eq (seriesIds : List Int) (tStart tEnd : Int) :
    chunkMetasBatchCarrying t.rows seriesIds tStart tEnd =
      (seriesIds.map fun id => (chunkRowsOne t.rows id tStart tEnd).map ChunkRow.chunkMeta,
        (carriedRows t.rows seriesIds tStart tEnd).map fun row => (row.rowid, row.bytes)) := by
  unfold chunkMetasBatchCarrying chunkRowsFor carriedRows
  split_ifs with hmany
  · rw [chunkMetasBatch_eq]
    rfl
  · rw [← List.map_flatMap]
    dsimp only
    refine Prod.ext ?_ ?_
    · dsimp only
      rw [chunksByPosition_eq, List.map_map]
      refine List.map_congr_left fun id hid => ?_
      refine (filter_stored _ id).trans ?_
      rw [filter_flatMap_chunkRowsOne _ (nodup_distinctIds _) (mem_distinctIds.mpr hid)]
    · dsimp only
      rw [List.map_map]
      rfl

/-! ### The points of a series -/

/-- The points of a series in a range, in the order of its chunks. -/
def seriesPoints (c : ChunkCodecs) (rows : List ChunkRow) (seriesId tStart tEnd : Int) :
    List Point :=
  (chunkRowsOne rows seriesId tStart tEnd).flatMap fun row =>
    (row.points c).filter fun p => tStart ≤ p.1 ∧ p.1 ≤ tEnd

theorem mem_carriedRows (h : row ∈ carriedRows t.rows seriesIds tStart tEnd) :
    row ∈ t.rows := by
  unfold carriedRows at h
  split_ifs at h
  · cases h
  · obtain ⟨id, -, hrow⟩ := List.mem_flatMap.mp h
    exact (mem_chunkRowsOne.mp hrow).1

/-- The payloads of the chunks of few series are read, however often a series is asked for. -/
theorem readChunksCarried_few (hfew : (distinctIds seriesIds).length ≤ probeSeriesAtMost)
    (tStart tEnd : Int) :
    readChunksCarried t.rows
      ((seriesIds.flatMap fun id => chunkRowsOne t.rows id tStart tEnd).map ChunkRow.rowid)
      ((carriedRows t.rows seriesIds tStart tEnd).map fun row => (row.rowid, row.bytes)) =
      .ok ((seriesIds.flatMap fun id => chunkRowsOne t.rows id tStart tEnd).map
        ChunkRow.bytes) := by
  refine readChunksCarried_ok t (fun row => mem_carriedRows t) fun row hrow => ?_
  obtain ⟨id, hid, hrow⟩ := List.mem_flatMap.mp hrow
  rw [carriedRows, if_neg (not_lt.mpr hfew)]
  exact List.mem_flatMap.mpr ⟨id, mem_distinctIds.mpr hid, hrow⟩

theorem mapM_decodeChunkData {found : List ChunkRow} (hmem : ∀ row ∈ found, row ∈ t.rows)
    (tStart tEnd : Int) :
    ((found.map ChunkRow.chunkMeta).zip (found.map ChunkRow.bytes)).mapM (fun e =>
      decodeChunkData c e.1 e.2 tStart tEnd) =
      .ok (found.map fun row => (row.points c).filter fun p => tStart ≤ p.1 ∧ p.1 ≤ tEnd) := by
  rw [List.zip_map', List.mapM_map]
  exact mapM_eq_ok.mpr (List.forall₂_map_right_iff.mpr (List.forall₂_same.mpr fun row hrow =>
    (t.readable row (hmem row hrow)).decodeChunkData tStart tEnd))

/-- **A range query.** The points of the series in the range, sorted stably by time. -/
theorem queryRangeById_eq (seriesId tStart tEnd : Int) :
    queryRangeById c t.rows seriesId tStart tEnd =
      .ok (stableSort Prod.fst (seriesPoints c t.rows seriesId tStart tEnd)) := by
  have hfew : (distinctIds [seriesId]).length ≤ probeSeriesAtMost :=
    show 1 ≤ probeSeriesAtMost by decide
  have hread := readChunksCarried_few t hfew tStart tEnd
  rw [List.flatMap_singleton] at hread
  rw [queryRangeById, chunkMetasBatchCarrying_eq]
  have hmatching : ([seriesId].map fun id =>
      (chunkRowsOne t.rows id tStart tEnd).map ChunkRow.chunkMeta).getLast?.getD [] =
      (chunkRowsOne t.rows seriesId tStart tEnd).map ChunkRow.chunkMeta := rfl
  dsimp only
  rw [hmatching, List.map_map]
  change (readChunksCarried t.rows ((chunkRowsOne t.rows seriesId tStart tEnd).map ChunkRow.rowid) _
    >>= _) = _
  rw [hread, ok_bind, rejectIf_neg (by simp), ok_bind,
    mapM_decodeChunkData t fun row hrow => (mem_chunkRowsOne.mp hrow).1, ok_bind, seriesPoints,
    List.flatMap_def]
  rfl

theorem mem_seriesPoints {p : Point} :
    p ∈ seriesPoints c t.rows seriesId tStart tEnd ↔
      (∃ row ∈ t.rows, row.seriesId = seriesId ∧ p ∈ row.points c) ∧ tStart ≤ p.1 ∧ p.1 ≤ tEnd := by
  rw [seriesPoints, List.mem_flatMap]
  constructor
  · rintro ⟨row, hrow, hp⟩
    obtain ⟨hrow, hid, -⟩ := mem_chunkRowsOne.mp hrow
    obtain ⟨hp, hrange⟩ := List.mem_filter.mp hp
    exact ⟨⟨row, hrow, hid, hp⟩, of_decide_eq_true hrange⟩
  · rintro ⟨⟨row, hrow, hid, hp⟩, hrange⟩
    refine ⟨row, mem_chunkRowsOne.mpr ⟨hrow, hid, ?_⟩, List.mem_filter.mpr ⟨hp, decide_eq_true hrange⟩⟩
    obtain ⟨hmin, hmax⟩ := (t.readable row hrow).bounds hp
    exact ⟨hmin.trans hrange.2, hrange.1.trans hmax⟩

/-- No points are in a range that ends before it begins. -/
theorem seriesPoints_of_lt (seriesId : Int) (h : tEnd < tStart) :
    seriesPoints c t.rows seriesId tStart tEnd = [] := by
  rw [List.eq_nil_iff_forall_not_mem]
  intro p hp
  have := ((mem_seriesPoints t).mp hp).2
  omega

/-- The points in a range are among those in a wider one, in the same order. -/
theorem seriesPoints_narrow {tStart' tEnd' : Int} (hstart : tStart' ≤ tStart) (hend : tEnd ≤ tEnd') :
    seriesPoints c t.rows seriesId tStart tEnd =
      (seriesPoints c t.rows seriesId tStart' tEnd').filter fun p => tStart ≤ p.1 ∧ p.1 ≤ tEnd := by
  have hrows : chunkRowsOne t.rows seriesId tStart tEnd =
      (chunkRowsOne t.rows seriesId tStart' tEnd').filter fun row => row.Overlaps tStart tEnd := by
    rw [chunkRowsOne, chunkRowsOne, filter_insertionSort, List.filter_filter]
    refine congrArg _ (List.filter_congr fun row _ => ?_)
    rw [← Bool.decide_and, decide_eq_decide]
    unfold ChunkRow.Overlaps
    constructor
    · rintro ⟨hid, hmin, hmax⟩
      exact ⟨⟨hmin, hmax⟩, hid, hmin.trans hend, hstart.trans hmax⟩
    · rintro ⟨hoverlaps, hid, -⟩
      exact ⟨hid, hoverlaps⟩
  have hnone : ∀ row ∈ chunkRowsOne t.rows seriesId tStart' tEnd',
      decide (row.Overlaps tStart tEnd) = false →
        ((row.points c).filter fun p => tStart ≤ p.1 ∧ p.1 ≤ tEnd) = [] := by
    intro row hrow hapart
    refine List.filter_eq_nil_iff.mpr fun p hp hin => of_decide_eq_false hapart ?_
    obtain ⟨hlo, hhi⟩ := of_decide_eq_true hin
    obtain ⟨hmin, hmax⟩ := (t.readable row (mem_chunkRowsOne.mp hrow).1).bounds hp
    exact ⟨hmin.trans hhi, hlo.trans hmax⟩
  rw [seriesPoints, seriesPoints, hrows, List.filter_flatMap,
    Keyed.flatMap_filter_of_nil hnone]
  refine List.flatMap_congr fun row _ => ?_
  rw [List.filter_filter]
  refine List.filter_congr fun p _ => ?_
  rw [← Bool.decide_and, decide_eq_decide]
  omega

end Table

end Timeless.Metrics
