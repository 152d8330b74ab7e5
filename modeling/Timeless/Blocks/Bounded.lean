import Timeless.Blocks.Levels
import Timeless.Blocks.Order
import Timeless.Support.Selection

/-!
# Bounded — the first rows of an ordered query

An ordered query may ask for its first `n` rows only. Then matching rows go through a heap that
keeps the best `n`, the blocks are visited in the order of their time bounds, and the visit ends as
soon as a block begins after the worst row of a full heap. Rows that compare equal keep the order of
the unbounded query by their place: the number of the block and the row in it, the buffer last.

* `scanBlocks_eq`: stopping early changes nothing, because the bounds of a block are those of its
  rows;
* `queryBounded_eq_take`: the bounded query gives the first `n` rows of the unbounded one.
-/

namespace Timeless.Blocks

open Support Codec Engine
open Std (TransCmp OrientedCmp ReflCmp)

/-! ### Orders -/

inductive LogQueryOrder where
  | asc
  | desc

def tsCmp : LogQueryOrder → Int64 → Int64 → Ordering
  | .asc, a, b => compare a.toInt b.toInt
  | .desc, a, b => compare b.toInt a.toInt

/-- The order of the rows of a query. -/
def rankCmp (order : LogQueryOrder) (a b : LogEntry) : Ordering :=
  (tsCmp order a.ts b.ts).then (canonicalEntryCmp a b)

/-- A row with its place: the block it is from and where in the block it is. -/
structure BoundedEntry where
  entry : LogEntry
  source : Nat
  row : Nat

def sequenceCmp (a b : BoundedEntry) : Ordering :=
  (compare a.source b.source).then (compare a.row b.row)

def boundedCmp (order : LogQueryOrder) (a b : BoundedEntry) : Ordering :=
  (rankCmp order a.entry b.entry).then (sequenceCmp a b)

/-- The order in which blocks are visited. -/
def scanCmp (order : LogQueryOrder) (a b : Row (List Text) × Nat) : Ordering :=
  (match order with
    | .asc => tsCmp .asc a.1.blockMeta.tsMin b.1.blockMeta.tsMin
    | .desc => tsCmp .desc a.1.blockMeta.tsMax b.1.blockMeta.tsMax).then (compare a.2 b.2)

/-! ### Queries -/

section

variable (c : Compressors) {N : Type} (js : SerdeJson N) (lowercase : Text → Text)

/-- The matching entries of one block with their places in it. -/
def blockRows (q : LogQuery) (bytes : List UInt8) : Except String (List (Nat × LogEntry)) :=
  match q.messageContains.filter fun needle => !needle.isEmpty with
  | some needle =>
      if blockMessageFeasible c bytes needle = .ok false then .ok []
      else do
        let found ← decodeBlockFiltered c js lowercase bytes needle
        return found.rows.filter fun p => entryMatches lowercase q p.2
  | none => do
      let entries ← decodeBlock c js bytes
      return (entries.zipIdx.map Prod.swap).filter fun p => entryMatches lowercase q p.2

/-- All matching rows in an order. -/
def queryOrdered (order : LogQueryOrder) (indexKeys : List Text)
    (e : BlockEngine LogEntry (List Text)) (q : LogQuery) : Except String (List LogEntry) := do
  let blocks ← candidateBlocks indexKeys e.store.rows q
  let found ← blocks.mapM fun r => blockMatches c js lowercase q r.data
  return (found.flatten ++ e.buffer.filter (entryMatches lowercase q)).insertionSort
    (CmpLe (rankCmp order))

def blockItems (source : Nat) (rows : List (Nat × LogEntry)) : List BoundedEntry :=
  rows.map fun p => ⟨p.2, source, p.1⟩

def bufferItems (source : Nat) (entries : List LogEntry) : List BoundedEntry :=
  entries.zipIdx.map fun p => ⟨p.1, source, p.2⟩

def beginsAfter (order : LogQueryOrder) (m : BlockMeta) (worst : BoundedEntry) : Bool :=
  match order with
  | .asc => decide (worst.entry.ts < m.tsMin)
  | .desc => decide (m.tsMax < worst.entry.ts)

/-- No row of the block, nor of one that is visited after it, gets into the heap. -/
def cannotDisplace (order : LogQueryOrder) (capacity : Nat) (heap : List BoundedEntry)
    (m : BlockMeta) : Bool :=
  capacity == 0 || heap.length == capacity && heap.getLast?.any (beginsAfter order m)

def scanBlocks (order : LogQueryOrder) (capacity : Nat) (q : LogQuery) :
    List (Row (List Text) × Nat) → List BoundedEntry → Except String (List BoundedEntry)
  | [], heap => .ok heap
  | (r, sequence) :: blocks, heap =>
      if cannotDisplace order capacity heap r.blockMeta then .ok heap
      else do
        let rows ← blockRows c js lowercase q r.data
        scanBlocks order capacity q blocks
          ((blockItems sequence rows).foldl (retain (boundedCmp order) capacity) heap)

/-- The first `capacity` rows in an order. -/
def queryBounded (order : LogQueryOrder) (capacity : Nat) (indexKeys : List Text)
    (e : BlockEngine LogEntry (List Text)) (q : LogQuery) : Except String (List LogEntry) := do
  let blocks ← candidateBlocks indexKeys e.store.rows q
  let buffered := bufferItems blocks.length (e.buffer.filter (entryMatches lowercase q))
  let heap ← scanBlocks c js lowercase order capacity q
    (blocks.zipIdx.insertionSort (CmpLe (scanCmp order)))
    (buffered.foldl (retain (boundedCmp order) capacity) [])
  return (heap.insertionSort (CmpLe (boundedCmp order))).map BoundedEntry.entry

end

/-! ### The orders are consistent -/

section Orders

variable (order : LogQueryOrder)

instance : TransCmp (tsCmp order) := by
  cases order with
  | asc => exact transCmp_key compare Int64.toInt
  | desc =>
      have := transCmp_key (fun a b : Int => compare b a) Int64.toInt
      exact this

instance : TransCmp sequenceCmp :=
  have := transCmp_key compare BoundedEntry.source
  have := transCmp_key compare BoundedEntry.row
  inferInstanceAs (TransCmp (compareLex (fun a b : BoundedEntry => compare a.source b.source)
    fun a b => compare a.row b.row))

instance : TransCmp (scanCmp order) := by
  have hseq := transCmp_key compare (Prod.snd (α := Row (List Text)) (β := Nat))
  cases order with
  | asc =>
      have := transCmp_key (tsCmp .asc) fun p : Row (List Text) × Nat => p.1.blockMeta.tsMin
      exact inferInstanceAs (TransCmp (compareLex (fun a b : Row (List Text) × Nat =>
        tsCmp .asc a.1.blockMeta.tsMin b.1.blockMeta.tsMin) fun a b => compare a.2 b.2))
  | desc =>
      have := transCmp_key (tsCmp .desc) fun p : Row (List Text) × Nat => p.1.blockMeta.tsMax
      exact inferInstanceAs (TransCmp (compareLex (fun a b : Row (List Text) × Nat =>
        tsCmp .desc a.1.blockMeta.tsMax b.1.blockMeta.tsMax) fun a b => compare a.2 b.2))

theorem consistentOn_bounded {S : Set LogEntry} (h : ConsistentOn canonicalEntryCmp S) :
    ConsistentOn (boundedCmp order) {b | b.entry ∈ S} :=
  have := transCmp_key (tsCmp order) fun b : BoundedEntry => b.entry.ts
  ((consistentOn_of_trans (fun a b : BoundedEntry => tsCmp order a.entry.ts b.entry.ts) _).then
    (h.key BoundedEntry.entry fun _ hb => hb)).then (consistentOn_of_trans sequenceCmp _)

end Orders

/-! ### The rows of a block -/

section Rows

variable {c : Compressors} {N : Type} {js : SerdeJson N} {lowercase : Text → Text} {q : LogQuery}

theorem map_snd_zipIdx_filter (p : LogEntry → Bool) (es : List LogEntry) :
    (((es.zipIdx.map Prod.swap).filter fun x => p x.2).map Prod.snd) = es.filter p := by
  have h : (es.zipIdx.map Prod.swap).map Prod.snd = es := by
    rw [List.map_map]
    exact List.zipIdx_map_fst 0 es
  conv_rhs => rw [← h, List.filter_map]
  rfl

theorem blockMatches_eq (bytes : List UInt8) :
    blockMatches c js lowercase q bytes =
      (blockRows c js lowercase q bytes).map (List.map Prod.snd) := by
  unfold blockMatches blockRows
  cases q.messageContains.filter fun needle => !needle.isEmpty with
  | some needle =>
      dsimp only
      split_ifs
      · rfl
      · cases decodeBlockFiltered c js lowercase bytes needle with
        | error _ => rfl
        | ok found => exact congrArg Except.ok (List.filter_map ..)
  | none =>
      cases decodeBlock c js bytes with
      | error _ => rfl
      | ok entries => exact congrArg Except.ok (map_snd_zipIdx_filter _ _).symm

/-- The rows that are walked have increasing places below the number of entries. -/
theorem walkRich_places {n index : Nat} {keep : List (Nat × Text)} {r r' : Reader}
    {kept : List (Nat × Text × RichMetadata)} (h : walkRich js n index keep r = .ok (kept, r')) :
    (kept.map Prod.fst).Pairwise (· < ·) ∧ ∀ k ∈ kept, index ≤ k.1 ∧ k.1 < index + n := by
  induction n generalizing index keep r r' kept with
  | zero =>
      obtain ⟨rfl, -⟩ := read_pure_eq_ok.mp h
      exact ⟨List.Pairwise.nil, fun k hk => absurd hk List.not_mem_nil⟩
  | succ n ih =>
      have hlater : ∀ {keep r kept}, walkRich js n (index + 1) keep r = .ok (kept, r') →
          (kept.map Prod.fst).Pairwise (· < ·) ∧
            ∀ k ∈ kept, index ≤ k.1 ∧ k.1 < index + (n + 1) := by
        intro keep r kept h
        obtain ⟨hlt, hin⟩ := ih h
        exact ⟨hlt, fun k hk => by have := hin k hk; omega⟩
      obtain _ | ⟨⟨row, message⟩, keep⟩ := keep
      · obtain ⟨-, r₁, -, h⟩ := of_read h
        exact hlater h
      · rw [walkRich] at h
        split_ifs at h with hrow
        · obtain ⟨rich, r₁, -, h⟩ := of_read h
          obtain ⟨rest, r₂, hrest, h⟩ := of_read h
          obtain ⟨rfl, rfl⟩ := read_pure_eq_ok.mp h
          obtain ⟨hlt, hin⟩ := ih hrest
          refine ⟨List.pairwise_cons.mpr ⟨fun place hplace => ?_, hlt⟩, fun k hk => ?_⟩
          · obtain ⟨k, hk, rfl⟩ := List.mem_map.mp hplace
            have := hin k hk
            dsimp only
            omega
          · rcases List.mem_cons.mp hk with rfl | hk
            · dsimp only
              omega
            · have := hin k hk
              omega
        · obtain ⟨-, r₁, -, h⟩ := of_read h
          exact hlater h

/-- Rows in increasing places, within the bounds of their block. -/
structure RowsWithin (m : BlockMeta) (rows : List (Nat × LogEntry)) : Prop where
  places : (rows.map Prod.fst).Pairwise (· < ·)
  range : ∀ p ∈ rows, m.tsMin ≤ p.2.ts ∧ p.2.ts ≤ m.tsMax

variable {m : BlockMeta} {rows : List (Nat × LogEntry)} {blocks : List (Row (List Text))}
  {e : BlockEngine LogEntry (List Text)}

theorem RowsWithin.filter (h : RowsWithin m rows) (p : Nat × LogEntry → Bool) :
    RowsWithin m (rows.filter p) :=
  ⟨h.places.sublist (List.filter_sublist.map _), fun x hx => h.range x (List.mem_of_mem_filter hx)⟩

theorem rowsWithin_zipIdx {es : List LogEntry} (h : ∀ e ∈ es, m.tsMin ≤ e.ts ∧ e.ts ≤ m.tsMax) :
    RowsWithin m (es.zipIdx.map Prod.swap) := by
  refine ⟨?_, fun p hp => ?_⟩
  · rw [List.map_map]
    change (es.zipIdx.map Prod.snd).Pairwise (· < ·)
    rw [List.zipIdx_map_snd]
    exact List.pairwise_lt_range'
  · obtain ⟨x, hx, rfl⟩ := List.mem_map.mp hp
    exact h x.1 (List.fst_mem_of_mem_zipIdx hx)

theorem rowsWithin_filtered {es : List LogEntry} (h : ∀ e ∈ es, m.tsMin ≤ e.ts ∧ e.ts ≤ m.tsMax)
    (keep : Text → Bool) :
    RowsWithin m (filteredRows keep es) := by
  have heq : filteredRows keep es =
      (es.zipIdx.map Prod.swap).filter fun p => keep p.2.message := by
    rw [filteredRows, List.filter_map]
    rfl
  rw [heq]
  exact (rowsWithin_zipIdx h).filter _

/-- The filtered rows of a codec-8 block are within its framing. -/
theorem rowsWithin_decodeRowsFiltered {cols : Columns} {needle : Text} {found : FilteredBlockRows}
    (h : decodeRowsFiltered c js (m.framing cols) cols needle = .ok found) :
    RowsWithin m found.rows := by
  obtain ⟨filtered, -, h⟩ := of_bind h
  split_ifs at h
  · obtain rfl := Except.ok.inj h
    exact ⟨List.Pairwise.nil, fun p hp => absurd hp List.not_mem_nil⟩
  obtain ⟨timestamps, -, h⟩ := of_bind h
  obtain ⟨levels, -, h⟩ := of_bind h
  obtain ⟨-, -, h⟩ := of_bind h
  obtain ⟨raw, -, h⟩ := of_bind h
  obtain ⟨kept, hkept, h⟩ := of_bind h
  obtain ⟨⟨⟩, hrange, rfl⟩ := bind_pure_eq_ok.mp h
  obtain ⟨r, hkept⟩ := run_eq_ok.mp hkept
  obtain ⟨walked, r₁, hwalked, hkept⟩ := of_read hkept
  obtain ⟨left, r₂, -, hkept⟩ := of_read hkept
  obtain ⟨-, r₃, -, hkept⟩ := of_read hkept
  obtain ⟨rfl, -⟩ := read_pure_eq_ok.mp hkept
  obtain ⟨hplaces, hbelow⟩ := walkRich_places hwalked
  obtain ⟨hlen, hmin, hmax⟩ := checkBlockRange_eq_ok hrange
  refine ⟨?_, fun p hp => ?_⟩
  · rw [List.map_map]
    exact hplaces
  · obtain ⟨k, hk, rfl⟩ := List.mem_map.mp hp
    have hin : k.1 < timestamps.length := by
      have := (hbelow k hk).2
      rw [hlen]
      omega
    have hmem : timestamps.getD k.1 0 ∈ timestamps := by
      rw [List.getD_eq_getElem?_getD, List.getElem?_eq_getElem hin, Option.getD_some]
      exact List.getElem_mem hin
    change tsMinOf timestamps = m.tsMin at hmin
    change tsMaxOf timestamps = m.tsMax at hmax
    rw [← hmin, ← hmax]
    exact ⟨tsMinOf_le hmem, le_tsMaxOf hmem⟩

/-- The matching rows of a stored block are in increasing places within its bounds. -/
theorem LevelWritten.rowsWithin (hc : c.Lossless) {b : Encoded (List Text)}
    {entries : List LogEntry} (hw : LevelWritten c js b entries)
    (h : blockRows c js lowercase q b.data = .ok rows) : RowsWithin b.blockMeta rows := by
  have hdecoded : ∀ {es}, decodeBlock c js b.data = .ok es →
      ∀ e ∈ es, b.blockMeta.tsMin ≤ e.ts ∧ e.ts ≤ b.blockMeta.tsMax := by
    intro es hread
    have hholds : BlockHolds ⟨b.blockMeta, 0, none⟩ es :=
      hw.holds hc hread fun p hp => (Option.some_ne_none p hp.symm).elim
    exact hholds.range
  have hfull : ∀ {needle found}, fullFallback c js lowercase b.data needle = .ok found →
      RowsWithin b.blockMeta found.rows := by
    intro needle found hfound
    obtain ⟨es, hes, rfl⟩ := bind_pure_eq_ok.mp hfound
    exact rowsWithin_filtered (hdecoded hes) fun message => messageContainsCi lowercase message needle
  unfold blockRows at h
  cases hneedle : q.messageContains.filter fun needle => !needle.isEmpty with
  | none =>
      rw [hneedle] at h
      obtain ⟨es, hes, rfl⟩ := bind_pure_eq_ok.mp h
      exact (rowsWithin_zipIdx (hdecoded hes)).filter _
  | some needle =>
      rw [hneedle] at h
      dsimp only at h
      split_ifs at h
      · obtain rfl := Except.ok.inj h
        exact ⟨List.Pairwise.nil, fun p hp => absurd hp List.not_mem_nil⟩
      obtain ⟨found, hfound, rfl⟩ := bind_pure_eq_ok.mp h
      refine RowsWithin.filter ?_ _
      unfold decodeBlockFiltered at hfound
      split_ifs at hfound
      · exact hfull hfound
      obtain ⟨codec, -, hfound⟩ := of_bind hfound
      split_ifs at hfound
      · exact hfull hfound
      obtain ⟨out, hout, hfound⟩ := of_bind hfound
      obtain ⟨codec', level, henc⟩ := hw.encoded
      obtain ⟨cols, hst⟩ := encodeBlock_ok henc
      obtain rfl := hst.eq_of_readBlock hout
      exact rowsWithin_decodeRowsFiltered hfound

end Rows

/-! ### Stopping early -/

section Scan

variable {c : Compressors} {N : Type} {js : SerdeJson N} {lowercase : Text → Text} {q : LogQuery}
  {order : LogQueryOrder}

theorem not_lt_of_beginsAfter {a b : Row (List Text) × Nat} {worst x : BoundedEntry}
    (hstop : beginsAfter order a.1.blockMeta worst = true) (hab : CmpLe (scanCmp order) a b)
    (hx : b.1.blockMeta.tsMin ≤ x.entry.ts ∧ x.entry.ts ≤ b.1.blockMeta.tsMax) :
    boundedCmp order x worst ≠ .lt := by
  have hfirst := Ordering.isLE_left_of_isLE_then hab
  suffices hgt : tsCmp order x.entry.ts worst.entry.ts = .gt by
    rw [boundedCmp, rankCmp, hgt]
    exact Ordering.noConfusion
  cases order with
  | asc =>
      have hworst : worst.entry.ts < a.1.blockMeta.tsMin := of_decide_eq_true hstop
      have hle : a.1.blockMeta.tsMin ≤ b.1.blockMeta.tsMin :=
        Int64.le_iff_toInt_le.mpr (Std.isLE_compare.mp hfirst)
      exact Std.compare_eq_gt.mpr (Int64.lt_iff_toInt_lt.mp
        (Int64.lt_of_lt_of_le hworst (Int64.le_trans hle hx.1)))
  | desc =>
      have hworst : a.1.blockMeta.tsMax < worst.entry.ts := of_decide_eq_true hstop
      have hle : b.1.blockMeta.tsMax ≤ a.1.blockMeta.tsMax :=
        Int64.le_iff_toInt_le.mpr (Std.isLE_compare.mp hfirst)
      exact Std.compare_eq_gt.mpr (Int64.lt_iff_toInt_lt.mp
        (Int64.lt_of_le_of_lt (Int64.le_trans hx.2 hle) hworst))

variable {rows : Row (List Text) → List (Nat × LogEntry)}

/-- **Early stop.** Visiting blocks in the order of their bounds gives what visiting all of them
gives. -/
theorem scanBlocks_eq {blocks : List (Row (List Text) × Nat)}
    (hsorted : blocks.Pairwise (CmpLe (scanCmp order)))
    (hrows : ∀ b ∈ blocks, blockRows c js lowercase q b.1.data = .ok (rows b.1) ∧
      RowsWithin b.1.blockMeta (rows b.1)) (capacity : Nat) (heap : List BoundedEntry) :
    scanBlocks c js lowercase order capacity q blocks heap =
      .ok ((blocks.flatMap fun b => blockItems b.2 (rows b.1)).foldl
        (retain (boundedCmp order) capacity) heap) := by
  induction blocks generalizing heap with
  | nil => rfl
  | cons b blocks ih =>
      obtain ⟨r, sequence⟩ := b
      obtain ⟨hfirst, hsorted'⟩ := List.pairwise_cons.mp hsorted
      rw [scanBlocks]
      split_ifs with hstop
      · rw [cannotDisplace, Bool.or_eq_true, Bool.and_eq_true, beq_iff_eq, beq_iff_eq] at hstop
        rcases hstop with rfl | ⟨hfull, hworst⟩
        · rw [foldl_retain_zero]
        obtain ⟨worst, hlast, hworst⟩ := (Option.any_eq_true _ _).mp hworst
        refine congrArg Except.ok (foldl_retain_of_not_lt hfull hlast fun x hx => ?_).symm
        -- every row that is left is in a block that does not begin before this one
        obtain ⟨b, hb, hx⟩ := List.mem_flatMap.mp hx
        obtain ⟨p, hp, rfl⟩ := List.mem_map.mp hx
        have hab : CmpLe (scanCmp order) (r, sequence) b := by
          rcases List.mem_cons.mp hb with rfl | hb
          · exact cmpLe_refl (scanCmp order) _
          · exact hfirst b hb
        exact not_lt_of_beginsAfter (a := (r, sequence)) hworst hab ((hrows b hb).2.range p hp)
      · rw [(hrows _ List.mem_cons_self).1, ok_bind,
          ih hsorted' fun b hb => hrows b (List.mem_cons_of_mem _ hb), List.flatMap_cons,
          List.foldl_append]

end Scan

/-! ### The first rows -/

section First

variable {c : Compressors} {N : Type} {js : SerdeJson N} {lowercase : Text → Text} {q : LogQuery}
  {order : LogQueryOrder}

/-- The rows of a query with their places, blocks in the order of the unbounded query. -/
def placedRows (blocks : List (Row (List Text))) (rows : Row (List Text) → List (Nat × LogEntry))
    (buffered : List LogEntry) : List BoundedEntry :=
  (blocks.zipIdx.flatMap fun b => blockItems b.2 (rows b.1)) ++ bufferItems blocks.length buffered

theorem entry_placedRows (blocks : List (Row (List Text)))
    (rows : Row (List Text) → List (Nat × LogEntry)) (buffered : List LogEntry) :
    (placedRows blocks rows buffered).map BoundedEntry.entry =
      (blocks.map fun r => (rows r).map Prod.snd).flatten ++ buffered := by
  rw [placedRows, List.map_append, List.map_flatMap]
  refine congrArg₂ (· ++ ·) ?_ ?_
  · conv_rhs => rw [← List.zipIdx_map_fst 0 blocks, List.map_map, ← List.flatMap_def]
    refine List.flatMap_congr fun b _ => ?_
    rw [blockItems, List.map_map]
    rfl
  · rw [bufferItems, List.map_map]
    exact List.zipIdx_map_fst 0 buffered

theorem sequenceCmp_lt_of_source {a b : BoundedEntry} (h : a.source < b.source) :
    sequenceCmp a b = .lt := by
  rw [sequenceCmp, Std.compare_eq_lt.mpr h]
  rfl

theorem sequenceCmp_lt_of_row {a b : BoundedEntry} (hsource : a.source = b.source)
    (h : a.row < b.row) : sequenceCmp a b = .lt := by
  rw [sequenceCmp, hsource, Std.compare_self, Std.compare_eq_lt.mpr h]
  rfl

theorem pairwise_placedRows (hrows : ∀ r ∈ blocks, RowsWithin r.blockMeta (rows r))
    (buffered : List LogEntry) :
    (placedRows blocks rows buffered).Pairwise fun a b => sequenceCmp a b = .lt := by
  refine List.pairwise_append.mpr ⟨?_, ?_, fun a ha b hb => ?_⟩
  · refine List.pairwise_flatMap.mpr ⟨fun b hb => ?_, ?_⟩
    · have hplaces := (hrows b.1 (List.fst_mem_of_mem_zipIdx hb)).places
      refine List.pairwise_map.mpr ((List.pairwise_map.mp hplaces).imp ?_)
      exact fun h => sequenceCmp_lt_of_row rfl h
    · have hnumbers : (blocks.zipIdx.map Prod.snd).Pairwise (· < ·) := by
        rw [List.zipIdx_map_snd]
        exact List.pairwise_lt_range'
      refine (List.pairwise_map.mp hnumbers).imp fun {a b} hab x hx y hy => ?_
      obtain ⟨p, -, rfl⟩ := List.mem_map.mp hx
      obtain ⟨p', -, rfl⟩ := List.mem_map.mp hy
      exact sequenceCmp_lt_of_source hab
  · have hnumbers : (buffered.zipIdx.map Prod.snd).Pairwise (· < ·) := by
      rw [List.zipIdx_map_snd]
      exact List.pairwise_lt_range'
    refine List.pairwise_map.mpr ((List.pairwise_map.mp hnumbers).imp ?_)
    exact fun h => sequenceCmp_lt_of_row rfl h
  · obtain ⟨block, hblock, ha⟩ := List.mem_flatMap.mp ha
    obtain ⟨p, -, rfl⟩ := List.mem_map.mp ha
    obtain ⟨p', -, rfl⟩ := List.mem_map.mp hb
    refine sequenceCmp_lt_of_source ?_
    have := List.snd_lt_of_mem_zipIdx hblock
    simpa using this

/-- Rows at different places never compare equal. -/
theorem distinguished_of_places {xs : List BoundedEntry} (h : Distinguished sequenceCmp xs) :
    Distinguished (boundedCmp order) xs := by
  refine h.imp fun {a b} hab heq => ?_
  rw [boundedCmp, Ordering.then_eq_eq] at heq
  exact hab heq.2

theorem queryOrdered_placed {keys : List Text} {out : List LogEntry}
    (h : queryOrdered c js lowercase order keys e q = .ok out) :
    ∃ blocks, candidateBlocks keys e.store.rows q = .ok blocks ∧
      ∃ rows, (∀ r ∈ blocks, blockRows c js lowercase q r.data = .ok (rows r)) ∧
        out = ((placedRows blocks rows (e.buffer.filter (entryMatches lowercase q))).map
          BoundedEntry.entry).insertionSort (CmpLe (rankCmp order)) := by
  obtain ⟨blocks, hblocks, h⟩ := of_bind h
  obtain ⟨found, hfound, rfl⟩ := bind_pure_eq_ok.mp h
  let rows := fun r : Row (List Text) => (blockRows c js lowercase q r.data).toOption.getD []
  have hrows : ∀ r ∈ blocks, blockRows c js lowercase q r.data = .ok (rows r) := by
    intro r hr
    obtain ⟨matching, hmatching⟩ := ok_of_mapM hfound hr
    rw [blockMatches_eq] at hmatching
    dsimp only [rows]
    cases hread : blockRows c js lowercase q r.data with
    | error err =>
        rw [hread] at hmatching
        cases hmatching
    | ok got => rfl
  refine ⟨blocks, hblocks, rows, hrows, ?_⟩
  have hmap : found = blocks.map fun r => (rows r).map Prod.snd := by
    refine Except.ok.inj (hfound.symm.trans (mapM_ok_of_forall fun r hr => ?_))
    rw [blockMatches_eq, hrows r hr]
    rfl
  rw [entry_placedRows, hmap]

/-- The bounded query, by places: the rows go through the heap in the order of the visit. -/
theorem queryBounded_placed (order : LogQueryOrder) {keys : List Text}
    (hblocks : candidateBlocks keys e.store.rows q = .ok blocks)
    (hrows : ∀ r ∈ blocks, blockRows c js lowercase q r.data = .ok (rows r) ∧
      RowsWithin r.blockMeta (rows r)) (capacity : Nat) :
    ∃ shown : List BoundedEntry,
      shown.Perm (placedRows blocks rows (e.buffer.filter (entryMatches lowercase q))) ∧
      queryBounded c js lowercase order capacity keys e q =
        .ok (((shown.foldl (retain (boundedCmp order) capacity) []).insertionSort
          (CmpLe (boundedCmp order))).map BoundedEntry.entry) := by
  have hperm := List.perm_insertionSort (CmpLe (scanCmp order)) blocks.zipIdx
  have hscan := fun heap => scanBlocks_eq (q := q) (c := c)
    (List.pairwise_insertionSort (CmpLe (scanCmp order)) blocks.zipIdx)
    (fun b hb => hrows b.1 (List.fst_mem_of_mem_zipIdx (hperm.subset hb))) capacity heap
  refine ⟨bufferItems blocks.length (e.buffer.filter (entryMatches lowercase q)) ++
    (blocks.zipIdx.insertionSort (CmpLe (scanCmp order))).flatMap fun b =>
      blockItems b.2 (rows b.1), ?_, ?_⟩
  · exact List.perm_append_comm.trans ((hperm.flatMap_right _).append_right _)
  · rw [queryBounded, hblocks, ok_bind]
    dsimp only
    rw [hscan, ok_bind, List.foldl_append]
    rfl

/-- **First rows.** In every session, if the entries found are consistently ordered, the bounded
query gives the first rows of the unbounded one. -/
theorem queryBounded_eq_take (hc : c.Lossless) {env : StoreEnv}
    {s : Session LogEntry (List Text)} (hs : LevelSession env c js s) {keys : List Text}
    {out : List LogEntry} (h : queryOrdered c js lowercase order keys s.engine q = .ok out)
    (hcons : ConsistentOn canonicalEntryCmp {e | e ∈ out}) (capacity : Nat) :
    queryBounded c js lowercase order capacity keys s.engine q = .ok (out.take capacity) := by
  obtain ⟨blocks, hblocks, rows, hrows, hout⟩ := queryOrdered_placed h
  have hwithin : ∀ r ∈ blocks, RowsWithin r.blockMeta (rows r) := by
    intro r hr
    obtain ⟨entries, hw⟩ := hs.written hc r (mem_of_candidateBlocks hblocks hr)
    exact hw.rowsWithin hc (hrows r hr)
  obtain ⟨shown, hshown, hbounded⟩ := queryBounded_placed order hblocks
    (fun r hr => ⟨hrows r hr, hwithin r hr⟩) capacity
  have hplaces := pairwise_placedRows hwithin (s.engine.buffer.filter (entryMatches lowercase q))
  generalize placedRows blocks rows (s.engine.buffer.filter (entryMatches lowercase q)) = placed
    at hout hshown hplaces
  -- the unbounded query is the sort in which the place of a row breaks ties
  have hunbounded : out =
      (placed.insertionSort (CmpLe (boundedCmp order))).map BoundedEntry.entry := by
    rw [hout, ← insertionSort_map, insertionSort_then hplaces]
    rfl
  have hin : ∀ b ∈ placed, b ∈ {b : BoundedEntry | b.entry ∈ {e | e ∈ out}} := by
    intro b hb
    rw [hunbounded]
    exact List.mem_map_of_mem ((List.perm_insertionSort _ _).symm.subset hb)
  have hordered := consistentOn_bounded order hcons
  have hdist : Distinguished sequenceCmp placed := hplaces.imp fun hab heq => by
    rw [hab] at heq
    cases heq
  have hheap : shown.foldl (retain (boundedCmp order) capacity) [] =
      (placed.insertionSort (CmpLe (boundedCmp order))).take capacity := by
    rw [insertionSort_perm_on hordered hin hshown.symm (distinguished_of_places hdist)]
    refine foldl_retain hordered (fun b hb => hin b (hshown.subset hb)) ?_ capacity
    exact distinguished_of_places ((distinguished_perm hshown).mpr hdist)
  have hsorted := (pairwise_insertionSort_on hordered hin).sublist (List.take_sublist capacity _)
  rw [hbounded, hheap, hsorted.insertionSort_eq, List.map_take, ← hunbounded]

theorem queryBounded_notices : ∃ out,
    queryOrdered .storing taggedJson id .desc [] (flushedNotices 3).engine upTo1000 = .ok out ∧
    queryBounded .storing taggedJson id .desc 2 [] (flushedNotices 3).engine upTo1000 =
      .ok (out.take 2) := by
  have hrich : (queryOrdered .storing taggedJson id .desc [] (flushedNotices 3).engine
      upTo1000).toOption.any (fun out => out.all fun e => e.metadataJson.isSome) = true := by
    decide +kernel
  cases hout : queryOrdered .storing taggedJson id .desc [] (flushedNotices 3).engine upTo1000 with
  | error err =>
      rw [hout] at hrich
      cases hrich
  | ok out =>
      rw [hout] at hrich
      exact ⟨out, rfl, queryBounded_eq_take Compressors.storing_lossless (flushedNotices_session 3)
        hout (consistent_of_uniform (.inl fun e he => List.all_eq_true.mp hrich e he)) 2⟩

end First

end Timeless.Blocks
