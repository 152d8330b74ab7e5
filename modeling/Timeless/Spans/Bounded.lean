import Timeless.Spans.Pruning
import Timeless.Support.Selection

/-!
# Bounded — pages of spans

An ordered query may ask for its first spans only. The matching spans go through a heap that keeps
the best ones, told apart by the block that they come from and their place in it; the blocks are
visited in the order of their time bounds. What the heap holds is sorted once more, by start time and
span id alone, in whatever arrangement the heap left it.

* `scan_eq`: stopping early changes nothing, because the bounds of a block are those of its spans;
* `page_eq_take`: if equal keys mean equal spans, the first spans are those of the whole query;
* `pages_iff`: and only then do pages fit together.
-/

namespace Timeless.Spans

open Support Codec Engine
open Blocks (SerdeJson BlockMeta)
open Std (TransCmp OrientedCmp ReflCmp)

/-! ### Orders -/

/-- A span with its place: the position of its block in the visit and its place among the matches. -/
structure BoundedSpan where
  entry : Span
  source : Nat
  row : Nat

/-- By start time and span id. -/
def keyCmp (a b : Span) : Ordering :=
  (compare a.startTs.toInt b.startTs.toInt).then (compare a.rest.spanId.val b.rest.spanId.val)

def compareSpans (order : SpanQueryOrder) (a b : Span) : Ordering :=
  match order with
  | .asc => keyCmp a b
  | .desc => keyCmp b a

def sequenceCmp (a b : BoundedSpan) : Ordering :=
  (compare a.source b.source).then (compare a.row b.row)

def boundedCmp (order : SpanQueryOrder) (a b : BoundedSpan) : Ordering :=
  (compareSpans order a.entry b.entry).then (sequenceCmp a b)

/-- The order in which blocks are visited. -/
def scanCmp (order : SpanQueryOrder) (a b : SpanRow × Nat) : Ordering :=
  (match order with
    | .asc => compare a.1.blockMeta.tsMin.toInt b.1.blockMeta.tsMin.toInt
    | .desc => compare b.1.blockMeta.tsMax.toInt a.1.blockMeta.tsMax.toInt).then (compare a.2 b.2)

/-! ### The query -/

def spanItems (source : Nat) (entries : List Span) : List BoundedSpan :=
  entries.zipIdx.map fun p => ⟨p.1, source, p.2⟩

def beginsAfter (order : SpanQueryOrder) (m : BlockMeta) (worst : BoundedSpan) : Bool :=
  match order with
  | .asc => decide (worst.entry.startTs < m.tsMin)
  | .desc => decide (m.tsMax < worst.entry.startTs)

/-- No span of the block, nor of one that is visited after it, gets into the heap. -/
def cannotDisplace (order : SpanQueryOrder) (capacity : Nat) (heap : List BoundedSpan)
    (m : BlockMeta) : Bool :=
  capacity == 0 || heap.length == capacity && heap.getLast?.any (beginsAfter order m)

section Query

variable (c : Compressors) {js : SerdeJson JsonNumber} (indexes : List SpanAttributeIndex)

/-- The first `capacity` spans in an order. The heap is turned into a list in some arrangement. -/
def queryBounded (arrange : List BoundedSpan → List BoundedSpan)
    (e : BlockEngine Span (SpanIndex (List BloomRow))) (q : SpanQuery js)
    (durationMin durationMax : Int64) (order : SpanQueryOrder) (capacity : Nat) :
    Except String (List Span) := do
  validateQuery indexes q
  let blocks ← queryLocations e.store.rows q durationMin durationMax
  let buffered ← selectM (entryMatches q durationMin durationMax) e.buffer
  let visit := blocks.zipIdx.insertionSort (CmpLe (scanCmp order))
  let heap ← scanRetain (boundedCmp order) capacity
    (fun heap p => cannotDisplace order capacity heap p.1.1.blockMeta)
    (fun p => do
      let entries ← blockMatches c q durationMin durationMax p.1.1.data
      return spanItems p.2 entries)
    visit.zipIdx ((spanItems blocks.length buffered).foldl (retain (boundedCmp order) capacity) [])
  return ((arrange heap).insertionSort fun a b => SpanLe order a.entry b.entry).map BoundedSpan.entry

end Query

/-- A list of what a heap holds: all of it, the root first. -/
structure Arranges (arrange : List BoundedSpan → List BoundedSpan) : Prop where
  perm : ∀ heap, (arrange heap).Perm heap
  root : ∀ heap, (arrange heap).head? = heap.getLast?

/-! ### The orders are consistent -/

theorem bytesLe_iff (s t : List UInt8) : BytesLe s t ↔ (compare s t).isLE = true := by
  induction s generalizing t with
  | nil => cases t <;> simp [BytesLe]
  | cons a s ih =>
      cases t with
      | nil => simp [BytesLe]
      | cons b t =>
          rw [BytesLe, List.compare_cons_cons, Ordering.isLE_then_iff_or, ih, Std.compare_eq_lt,
            Std.compare_eq_iff_eq]

section Orders

variable (order : SpanQueryOrder)

instance : TransCmp keyCmp :=
  have := transCmp_key compare fun a : Span => a.startTs.toInt
  have := transCmp_key compare fun a : Span => a.rest.spanId.val
  inferInstanceAs (TransCmp (compareLex (fun a b : Span => compare a.startTs.toInt b.startTs.toInt)
    fun a b => compare a.rest.spanId.val b.rest.spanId.val))

instance : TransCmp (compareSpans order) := by
  cases order with
  | asc => exact inferInstanceAs (TransCmp keyCmp)
  | desc => exact inferInstanceAs (TransCmp fun a b => keyCmp b a)

instance : TransCmp sequenceCmp :=
  have := transCmp_key compare BoundedSpan.source
  have := transCmp_key compare BoundedSpan.row
  inferInstanceAs (TransCmp (compareLex (fun a b : BoundedSpan => compare a.source b.source)
    fun a b => compare a.row b.row))

instance : TransCmp (boundedCmp order) :=
  have := transCmp_key (compareSpans order) BoundedSpan.entry
  inferInstanceAs (TransCmp (compareLex
    (fun a b : BoundedSpan => compareSpans order a.entry b.entry) sequenceCmp))

instance : TransCmp (scanCmp order) := by
  have hseq := transCmp_key compare (Prod.snd (α := SpanRow) (β := Nat))
  cases order with
  | asc =>
      have := transCmp_key compare fun p : SpanRow × Nat => p.1.blockMeta.tsMin.toInt
      exact inferInstanceAs (TransCmp (compareLex (fun a b : SpanRow × Nat =>
        compare a.1.blockMeta.tsMin.toInt b.1.blockMeta.tsMin.toInt) fun a b => compare a.2 b.2))
  | desc =>
      have := transCmp_key (fun a b : Int => compare b a)
        fun p : SpanRow × Nat => p.1.blockMeta.tsMax.toInt
      exact inferInstanceAs (TransCmp (compareLex (fun a b : SpanRow × Nat =>
        compare b.1.blockMeta.tsMax.toInt a.1.blockMeta.tsMax.toInt) fun a b => compare a.2 b.2))

theorem spanLe_iff {a b : Span} : SpanLe order a b ↔ CmpLe (compareSpans order) a b := by
  have hasc : ∀ x y : Span, CmpLe keyCmp x y ↔ x.startTs < y.startTs ∨
      x.startTs = y.startTs ∧ BytesLe x.rest.spanId.val y.rest.spanId.val := by
    intro x y
    rw [CmpLe, keyCmp, Ordering.isLE_then_iff_or, Std.compare_eq_lt, Std.compare_eq_iff_eq,
      ← Int64.lt_iff_toInt_lt, Int64.toInt_inj, bytesLe_iff]
  cases order with
  | asc => exact (hasc a b).symm
  | desc => exact (hasc b a).symm

theorem insertionSort_spanLe (xs : List Span) :
    xs.insertionSort (SpanLe order) = xs.insertionSort (CmpLe (compareSpans order)) := by
  induction xs with
  | nil => rfl
  | cons x xs ih =>
      rw [List.insertionSort_cons, List.insertionSort_cons, ih]
      exact orderedInsert_congr fun _ _ => spanLe_iff order

end Orders

/-! ### Places -/

@[simp] theorem spanItems_entries (source : Nat) (entries : List Span) :
    (spanItems source entries).map BoundedSpan.entry = entries := by
  rw [spanItems, List.map_map]
  exact List.zipIdx_map_fst 0 entries

variable {x : BoundedSpan}

theorem mem_spanItems {source : Nat} {entries : List Span} (h : x ∈ spanItems source entries) :
    x.source = source ∧ x.entry ∈ entries := by
  obtain ⟨p, hp, rfl⟩ := List.mem_map.mp h
  exact ⟨rfl, List.fst_mem_of_mem_zipIdx hp⟩

/-- The spans that are shown to the heap: those of the blocks, and the buffered ones. -/
def placed (found : SpanRow → List Span) (buffered : List Span) (visit : List (SpanRow × Nat)) :
    List BoundedSpan :=
  (visit.zipIdx.flatMap fun p => spanItems p.2 (found p.1.1)) ++ spanItems visit.length buffered

section Placed

variable (found : SpanRow → List Span) (buffered : List Span) (visit : List (SpanRow × Nat))

theorem placed_entries : (placed found buffered visit).map BoundedSpan.entry =
    (visit.flatMap fun p => found p.1) ++ buffered := by
  rw [placed, List.map_append, spanItems_entries, List.map_flatMap]
  simp only [spanItems_entries]
  congr 1
  conv_rhs => rw [← List.zipIdx_map_fst 0 visit, List.flatMap_map]

/-- No two spans have the same place. -/
theorem placed_pairwise :
    (placed found buffered visit).Pairwise fun a b => sequenceCmp a b = .lt := by
  have hsource {a b : BoundedSpan} (h : a.source < b.source) : sequenceCmp a b = .lt := by
    rw [sequenceCmp, Std.compare_eq_lt.mpr h]
    rfl
  have hitems (source : Nat) (entries : List Span) :
      (spanItems source entries).Pairwise fun a b => sequenceCmp a b = .lt := by
    refine List.pairwise_map.mpr ((pairwise_zipIdx entries 0).imp fun hlt => ?_)
    rw [sequenceCmp, Std.compare_eq_iff_eq.mpr rfl]
    exact Std.compare_eq_lt.mpr hlt
  refine List.pairwise_append.mpr ⟨?_, hitems _ _, fun a ha b hb => hsource ?_⟩
  · refine List.pairwise_flatMap.mpr ⟨fun p _ => hitems _ _, (pairwise_zipIdx visit 0).imp ?_⟩
    intro p p' hlt a ha b hb
    exact hsource ((mem_spanItems ha).1 ▸ (mem_spanItems hb).1 ▸ hlt)
  · obtain ⟨p, hp, ha⟩ := List.mem_flatMap.mp ha
    rw [(mem_spanItems ha).1, (mem_spanItems hb).1]
    simpa using List.snd_lt_of_mem_zipIdx hp

theorem placed_distinguished (order : SpanQueryOrder) :
    Distinguished (boundedCmp order) (placed found buffered visit) :=
  (placed_pairwise found buffered visit).imp fun hlt heq => by
    rw [boundedCmp, Ordering.then_eq_eq, hlt] at heq
    exact Ordering.noConfusion heq.2

end Placed

/-! ### Stopping early -/

section Scan

variable {order : SpanQueryOrder} {capacity : Nat} {worst : BoundedSpan}

/-- Blocks that are visited later begin later. -/
theorem beginsAfter_of_visit {p p' : SpanRow × Nat} (hle : CmpLe (scanCmp order) p p')
    (h : beginsAfter order p.1.blockMeta worst = true) :
    beginsAfter order p'.1.blockMeta worst = true := by
  have hle := (Ordering.isLE_then_iff_and.mp hle).1
  cases order with
  | asc =>
      have hmin := Std.isLE_compare.mp hle
      have hworst := of_decide_eq_true h
      rw [Int64.lt_iff_toInt_lt] at hworst
      exact decide_eq_true (Int64.lt_iff_toInt_lt.mpr (hworst.trans_le hmin))
  | desc =>
      have hmax := Std.isLE_compare.mp hle
      have hworst := of_decide_eq_true h
      rw [Int64.lt_iff_toInt_lt] at hworst
      exact decide_eq_true (Int64.lt_iff_toInt_lt.mpr (hmax.trans_lt hworst))

/-- The spans of a block that begins after the worst span come after it. -/
theorem boundedCmp_of_beginsAfter {m : BlockMeta} (h : beginsAfter order m worst = true)
    (hx : m.tsMin ≤ x.entry.startTs ∧ x.entry.startTs ≤ m.tsMax) :
    boundedCmp order x worst ≠ .lt := by
  have hkey {a b : Span} (hlt : a.startTs < b.startTs) : keyCmp a b = .lt := by
    rw [keyCmp, Std.compare_eq_lt.mpr (Int64.lt_iff_toInt_lt.mp hlt)]
    rfl
  have hafter : compareSpans order worst.entry x.entry = .lt := by
    cases order with
    | asc => exact hkey (Int64.lt_of_lt_of_le (of_decide_eq_true h) hx.1)
    | desc => exact hkey (Int64.lt_of_le_of_lt hx.2 (of_decide_eq_true h))
  rw [boundedCmp, OrientedCmp.gt_of_lt hafter]
  exact Ordering.noConfusion

/-- **The scan.** The heap ends up with the best of all spans that match. -/
theorem scan_eq (items : SpanRow → Except String (List Span)) (found : SpanRow → List Span)
    {visit : List (SpanRow × Nat)} (hvisit : visit.Pairwise (CmpLe (scanCmp order)))
    (hitems : ∀ p ∈ visit, items p.1 = .ok (found p.1))
    (hrange : ∀ p ∈ visit, ∀ x ∈ found p.1,
      p.1.blockMeta.tsMin ≤ x.startTs ∧ x.startTs ≤ p.1.blockMeta.tsMax)
    (buffered : List Span) (capacity : Nat) :
    scanRetain (boundedCmp order) capacity
        (fun heap p => cannotDisplace order capacity heap p.1.1.blockMeta)
        (fun p => do
          let entries ← items p.1.1
          return spanItems p.2 entries)
        visit.zipIdx
        ((spanItems visit.length buffered).foldl (retain (boundedCmp order) capacity) []) =
      .ok (((placed found buffered visit).insertionSort (CmpLe (boundedCmp order))).take
        capacity) := by
  have hmem {p : (SpanRow × Nat) × Nat} (hp : p ∈ visit.zipIdx) : p.1 ∈ visit :=
    List.fst_mem_of_mem_zipIdx hp
  rw [@scanRetain_eq _ _ _ _ _ _ _ fun p => spanItems p.2 (found p.1.1)]
  · have hperm : (spanItems visit.length buffered ++ visit.zipIdx.flatMap fun p =>
        spanItems p.2 (found p.1.1)).Perm (placed found buffered visit) := List.perm_append_comm
    have hd := (distinguished_perm hperm).mpr (placed_distinguished found buffered visit order)
    rw [← List.foldl_append, foldl_retain_nil hd, insertionSort_perm hperm hd]
  · intro p hp
    rw [hitems p.1 (hmem hp)]
    rfl
  · intro heap p rest hsuffix huseless
    rw [cannotDisplace, Bool.or_eq_true, beq_iff_eq, Bool.and_eq_true, beq_iff_eq,
      Option.any_eq_true _ _] at huseless
    rcases huseless with rfl | ⟨hfull, worst, hworst, hafter⟩
    · exact foldl_retain_zero _ _ _
    · refine foldl_retain_of_not_lt hfull hworst fun x hx => ?_
      obtain ⟨p', hp', hx⟩ := List.mem_flatMap.mp hx
      have hp'visit := hmem (hsuffix.subset hp')
      refine boundedCmp_of_beginsAfter (m := p'.1.1.blockMeta) ?_
        (hrange p'.1 hp'visit x.entry (mem_spanItems hx).2)
      rcases List.mem_cons.mp hp' with rfl | hrest
      · exact hafter
      · have hsorted : (visit.zipIdx).Pairwise fun a b => CmpLe (scanCmp order) a.1 b.1 :=
          List.pairwise_map.mp (by rwa [List.zipIdx_map_fst])
        exact beginsAfter_of_visit ((List.pairwise_cons.mp
          (hsorted.sublist hsuffix.sublist)).1 p' hrest) hafter

end Scan

/-! ### Pages -/

/-- Equal keys mean equal spans. -/
def KeysTellApart (xs : List Span) : Prop :=
  ∀ x ∈ xs, ∀ y ∈ xs, x.startTs = y.startTs → x.rest.spanId = y.rest.spanId → x = y

/-- The first spans of a ranking, arranged as the heap leaves them and sorted once more. -/
def page (arrange : List BoundedSpan → List BoundedSpan) (order : SpanQueryOrder)
    (ranked : List BoundedSpan) (n : Nat) : List Span :=
  ((arrange (ranked.take n)).map BoundedSpan.entry).insertionSort (CmpLe (compareSpans order))

section Pages

variable {arrange : List BoundedSpan → List BoundedSpan} {order : SpanQueryOrder}
  {ranked : List BoundedSpan}

theorem compareSpans_eq_iff {a b : Span} : compareSpans order a b = .eq ↔
    a.startTs = b.startTs ∧ a.rest.spanId = b.rest.spanId := by
  have hkey (x y : Span) : keyCmp x y = .eq ↔
      x.startTs = y.startTs ∧ x.rest.spanId = y.rest.spanId := by
    rw [keyCmp, Ordering.then_eq_eq, Std.compare_eq_iff_eq, Std.compare_eq_iff_eq, Int64.toInt_inj,
      Subtype.val_inj]
  cases order with
  | asc => exact hkey a b
  | desc => exact (hkey b a).trans ⟨fun h => ⟨h.1.symm, h.2.symm⟩, fun h => ⟨h.1.symm, h.2.symm⟩⟩

/-- A sorted list is determined by its members if equal keys mean equal spans. -/
theorem KeysTellApart.eq_of_perm {xs ys : List Span} (h : KeysTellApart xs) (hperm : xs.Perm ys)
    (hxs : xs.Pairwise (CmpLe (compareSpans order))) (hys : ys.Pairwise (CmpLe (compareSpans order))) :
    xs = ys := by
  refine eq_of_perm_of_sorted hperm hxs hys fun a ha b hb hab hba => ?_
  obtain ⟨hts, hid⟩ := compareSpans_eq_iff.mp (OrientedCmp.isLE_antisymm hab hba)
  exact h a ha b hb hts hid

/-- **Pages without ties** are the first spans of the ranking. -/
theorem page_eq_take (harrange : Arranges arrange)
    (hsorted : (ranked.map BoundedSpan.entry).Pairwise (CmpLe (compareSpans order)))
    (happart : KeysTellApart (ranked.map BoundedSpan.entry)) (n : Nat) :
    page arrange order ranked n = (ranked.map BoundedSpan.entry).take n := by
  have hperm : (page arrange order ranked n).Perm ((ranked.map BoundedSpan.entry).take n) := by
    rw [← List.map_take]
    exact (List.perm_insertionSort _ _).trans ((harrange.perm _).map _)
  refine (KeysTellApart.eq_of_perm (fun x hx y hy => ?_) hperm.symm
    (hsorted.sublist (List.take_sublist _ _)) (List.pairwise_insertionSort _ _)).symm
  exact happart x (List.mem_of_mem_take hx) y (List.mem_of_mem_take hy)

/-- The worst span that a page holds comes first among those with its key. -/
theorem page_find (harrange : Arranges arrange) {pre post : List BoundedSpan}
    (hranked : ranked = pre ++ x :: post) {key : Span} (hkey : compareSpans order x.entry key = .eq) :
    (page arrange order ranked (pre.length + 1)).find? (fun y => compareSpans order y key == .eq) =
      some x.entry := by
  have htake : ranked.take (pre.length + 1) = pre ++ [x] := by
    rw [hranked, List.take_length_add_append, List.take_succ_cons, List.take_zero]
  have hhead : (arrange (pre ++ [x])).head? = some x := by
    rw [harrange.root, List.getLast?_concat]
  obtain ⟨rest, hrest⟩ := List.head?_eq_some_iff.mp hhead
  rw [page, htake, hrest, List.map_cons]
  refine find?_insertionSort_cons (by rw [hkey]; rfl) fun y _ hy => ?_
  rw [beq_iff_eq] at hy
  exact Ordering.isLE_of_eq_eq (TransCmp.eq_trans hkey (OrientedCmp.eq_symm hy))

/-- **Pages with ties** do not fit together. -/
theorem keysTellApart_of_pages (harrange : Arranges arrange)
    (hsorted : (ranked.map BoundedSpan.entry).Pairwise (CmpLe (compareSpans order)))
    (hpages : ∀ n, page arrange order ranked n <+: page arrange order ranked (n + 1)) :
    KeysTellApart (ranked.map BoundedSpan.entry) := by
  -- neighbours with the same key each come first on the page that they close
  have hneighbours : ∀ pre u v post, ranked = pre ++ u :: v :: post →
      compareSpans order u.entry v.entry = .eq → u.entry = v.entry := by
    intro pre u v post hranked heq
    have hranked' : ranked = (pre ++ [u]) ++ v :: post := by
      rw [hranked, List.append_assoc]
      rfl
    have hu := page_find harrange hranked heq
    have hv := page_find harrange hranked' (@ReflCmp.compare_self _ (compareSpans order) _ _)
    rw [List.length_append, List.length_singleton] at hv
    have hfound := (hpages (pre.length + 1)).find?_eq_some hu
    exact Option.some.inj (hfound.symm.trans hv)
  have hall : (ranked.map BoundedSpan.entry).Pairwise fun x y =>
      compareSpans order x y = .eq → x = y :=
    List.pairwise_map.mpr (eq_of_neighbours hsorted hneighbours)
  have : Std.Symm fun x y : Span => compareSpans order x y = .eq → x = y :=
    ⟨fun x y h heq => (h (OrientedCmp.eq_symm heq)).symm⟩
  intro x hx y hy hts hid
  by_contra hne
  exact hne (hall.forall hx hy hne (compareSpans_eq_iff.mpr ⟨hts, hid⟩))

end Pages

/-! ### Sessions -/

section Sessions

variable {c : Compressors} {js : SerdeJson JsonNumber} {P : Span → Prop}
  {e : BlockEngine Span (SpanIndex (List BloomRow))} {q : SpanQuery js}
  {durationMin durationMax : Int64} {order : SpanQueryOrder} {indexes : List SpanAttributeIndex}

theorem mem_of_queryLocations {rows blocks : List SpanRow}
    (h : queryLocations rows q durationMin durationMax = .ok blocks) :
    ∀ r ∈ blocks, r ∈ rows := by
  intro r hr
  obtain ⟨p, hp⟩ := candidateLocations_perm rows q durationMin durationMax
  suffices hmem : r ∈ candidateLocations rows q durationMin durationMax from
    List.mem_of_mem_filter (hp.subset hmem)
  rw [queryLocations] at h
  split_ifs at h
  · cases Except.ok.inj h
    cases hr
  · cases hfilter : q.attributeFilter with
    | none =>
        rw [hfilter] at h
        rwa [Except.ok.inj h]
    | some filter =>
        rw [hfilter] at h
        exact (selectM_sublist h).subset hr

/-- The spans that a query goes through and that match: those of the blocks that it decodes, and the
buffered ones. -/
def candidateSpans (c : Compressors) (e : BlockEngine Span (SpanIndex (List BloomRow)))
    (q : SpanQuery js) (durationMin durationMax : Int64) : List Span :=
  ((((queryLocations e.store.rows q durationMin durationMax).toOption.getD []).flatMap
    fun r => spansOf c r.data) ++ e.buffer).filter (spanMatches q durationMin durationMax)

/-- The spans of a block that match. -/
def foundIn (c : Compressors) (q : SpanQuery js) (durationMin durationMax : Int64) (r : SpanRow) :
    List Span :=
  (spansOf c r.data).filter (spanMatches q durationMin durationMax)

/-- What a whole query that answers has done. -/
theorem whole_query (hc : c.Lossless)
    (hrows : ∀ r ∈ e.store.rows, ∃ es, SpanWritten c js P r.toEncoded es) {out : List Span}
    (hout : queryOrderedWithDuration c indexes e q durationMin durationMax order = .ok out) :
    ∃ blocks buffered, validateQuery indexes q = .ok () ∧
      queryLocations e.store.rows q durationMin durationMax = .ok blocks ∧
      selectM (entryMatches q durationMin durationMax) e.buffer = .ok buffered ∧
      (∀ r ∈ blocks, blockMatches c q durationMin durationMax r.data =
        .ok (foundIn c q durationMin durationMax r)) ∧
      candidateSpans c e q durationMin durationMax =
        blocks.flatMap (foundIn c q durationMin durationMax) ++ buffered ∧
      out = (candidateSpans c e q durationMin durationMax).insertionSort
        (CmpLe (compareSpans order)) := by
  obtain ⟨_, hvalid, hout⟩ := of_bind hout
  obtain ⟨blocks, hblocks, hout⟩ := of_bind hout
  obtain ⟨buffered, hbuffered, hout⟩ := of_bind hout
  obtain ⟨pieces, hpieces, hout⟩ := of_bind hout
  have hfound : ∀ r ∈ blocks, blockMatches c q durationMin durationMax r.data =
      .ok (foundIn c q durationMin durationMax r) := by
    intro r hr
    obtain ⟨es, hes⟩ := hrows r (mem_of_queryLocations hblocks r hr)
    obtain ⟨piece, hpiece⟩ := ok_of_mapM hpieces hr
    rw [hpiece, hes.blockMatches_found hc hpiece, foundIn]
  have hkept : buffered = e.buffer.filter (spanMatches q durationMin durationMax) :=
    selectM_eq_ok hbuffered
  have hall : candidateSpans c e q durationMin durationMax =
      blocks.flatMap (foundIn c q durationMin durationMax) ++ buffered := by
    rw [candidateSpans, hblocks, List.filter_append, ← hkept, List.filter_flatMap]
    rfl
  refine ⟨blocks, buffered, hvalid, hblocks, hbuffered, hfound, hall, ?_⟩
  rw [mapM_ok_of_forall hfound] at hpieces
  rw [hall, ← Except.ok.inj hout, ← Except.ok.inj hpieces, ← List.flatMap_def, insertionSort_spanLe]

/-- **Whole and bounded queries** sort the same spans. -/
theorem queryBounded_eq (hc : c.Lossless)
    (hrows : ∀ r ∈ e.store.rows, ∃ es, SpanWritten c js P r.toEncoded es) {out : List Span}
    (hout : queryOrderedWithDuration c indexes e q durationMin durationMax order = .ok out)
    (arrange : List BoundedSpan → List BoundedSpan) :
    ∃ ranked, (ranked.map BoundedSpan.entry).Pairwise (CmpLe (compareSpans order)) ∧
      (ranked.map BoundedSpan.entry).Perm (candidateSpans c e q durationMin durationMax) ∧
      ∀ n, queryBounded c indexes arrange e q durationMin durationMax order n =
        .ok (page arrange order ranked n) := by
  obtain ⟨blocks, buffered, hvalid, hblocks, hbuffered, hfound, hall, -⟩ := whole_query hc hrows hout
  have hrange : ∀ r ∈ blocks, ∀ x ∈ foundIn c q durationMin durationMax r,
      r.blockMeta.tsMin ≤ x.startTs ∧ x.startTs ≤ r.blockMeta.tsMax := by
    intro r hr x hx
    obtain ⟨es, hes⟩ := hrows r (mem_of_queryLocations hblocks r hr)
    exact hes.spansOf_in_range hc (List.mem_of_mem_filter hx)
  obtain ⟨visit, hsort⟩ : ∃ visit, blocks.zipIdx.insertionSort (CmpLe (scanCmp order)) = visit :=
    ⟨_, rfl⟩
  have hperm : visit.Perm blocks.zipIdx := hsort ▸ List.perm_insertionSort _ _
  have hvisit : ∀ p ∈ visit, p.1 ∈ blocks := fun p hp =>
    List.fst_mem_of_mem_zipIdx (hperm.subset hp)
  have hlength : blocks.length = visit.length := by
    rw [hperm.length_eq, List.length_zipIdx]
  have hscan := scan_eq (fun r => blockMatches c q durationMin durationMax r.data)
    (foundIn c q durationMin durationMax) (hsort ▸ List.pairwise_insertionSort _ blocks.zipIdx)
    (fun p hp => hfound p.1 (hvisit p hp)) (fun p hp => hrange p.1 (hvisit p hp)) buffered
  refine ⟨(placed (foundIn c q durationMin durationMax) buffered visit).insertionSort
    (CmpLe (boundedCmp order)), ?_, ?_, ?_⟩
  · refine List.pairwise_map.mpr ((List.pairwise_insertionSort _ _).imp fun hle => ?_)
    exact (Ordering.isLE_then_iff_and.mp hle).1
  · refine ((List.perm_insertionSort _ _).map _).trans ?_
    rw [placed_entries, hall]
    refine List.Perm.append_right _ ((hperm.flatMap_right _).trans ?_)
    conv_rhs => rw [← List.zipIdx_map_fst 0 blocks, List.flatMap_map]
  · intro n
    rw [queryBounded, hvalid, ok_bind, hblocks, ok_bind, hbuffered, ok_bind]
    dsimp only
    rw [hsort, hlength, hscan n, ok_bind, page, ← insertionSort_spanLe]
    exact congrArg Except.ok (List.map_insertionSort _ _ _ _ fun _ _ _ _ => Iff.rfl)

/-- **Pages.** In every session of a span table, whenever a query answers, its pages fit together and
with the whole answer if and only if no two different spans that it finds share start time and span
id. -/
theorem pages_iff (hc : c.Lossless) {env : StoreEnv}
    {s : Session Span (SpanIndex (List BloomRow))} (hs : SpanSession env c js (fun _ => True) s)
    (indexes : List SpanAttributeIndex) (q : SpanQuery js) (durationMin durationMax : Int64)
    (order : SpanQueryOrder) {arrange : List BoundedSpan → List BoundedSpan}
    (harrange : Arranges arrange) {out : List Span}
    (hout : queryOrderedWithDuration c indexes s.engine q durationMin durationMax order = .ok out) :
    (∀ n m, n ≤ m → ∃ first more,
        queryBounded c indexes arrange s.engine q durationMin durationMax order n = .ok first ∧
        queryBounded c indexes arrange s.engine q durationMin durationMax order m = .ok more ∧
        first <+: more ∧ first <+: out) ↔
      KeysTellApart (candidateSpans c s.engine q durationMin durationMax) := by
  obtain ⟨N, hN, -⟩ := (SpanSession.intact hc hs).engine.rows
  have hrows := exists_rowsHold_iff.mp ⟨N, hN⟩
  obtain ⟨_, _, -, -, -, -, -, rfl⟩ := whole_query hc hrows hout
  obtain ⟨ranked, hsorted, hperm, hbounded⟩ := queryBounded_eq hc hrows hout arrange
  have happart : KeysTellApart (ranked.map BoundedSpan.entry) ↔
      KeysTellApart (candidateSpans c s.engine q durationMin durationMax) := by
    simp only [KeysTellApart, hperm.mem_iff]
  rw [← happart]
  constructor
  · intro hpages
    refine keysTellApart_of_pages harrange hsorted fun n => ?_
    obtain ⟨first, more, hfirst, hmore, hstart, -⟩ := hpages n (n + 1) n.le_succ
    rw [hbounded] at hfirst hmore
    rwa [← Except.ok.inj hfirst, ← Except.ok.inj hmore] at hstart
  · intro hkeys n m hnm
    refine ⟨_, _, hbounded n, hbounded m, ?_⟩
    rw [page_eq_take harrange hsorted hkeys, page_eq_take harrange hsorted hkeys,
      ← hkeys.eq_of_perm (hperm.trans (List.perm_insertionSort _ _).symm) hsorted
        (List.pairwise_insertionSort _ _)]
    exact ⟨List.take_prefix_take_left hnm, List.take_prefix _ _⟩

end Sessions

/-- A span table with one stored span and one in the buffer. -/
def pairSession (stored buffered : Span) : Session Span (SpanIndex (List BloomRow)) :=
  let s := flushedSession noJson [] stored
  { s with engine := ((push s.sig .reliable buffered).exec s.engine).2 }

theorem pairSession_session (stored buffered : Span) :
    SpanSession .reliable .storing noJson (fun _ => True) (pairSession stored buffered) :=
  (flushedSession_session noJson [] trivial).step
    (show SpanOp .storing noJson (fun _ => True) (.push buffered) from trivial) rfl

theorem arranges_reverse : Arranges List.reverse :=
  ⟨List.reverse_perm, fun _ => List.head?_reverse⟩

/-- A span of the same trace that starts later. -/
def laterSpan : Span := { rootSpan with startTs := 2000 }

/-- A span with the start time and the id of another. -/
def twinSpan : Span := { rootSpan with name := "twin".toList }

theorem pages_iff_later : ∃ first more,
    queryBounded .storing [] List.reverse (pairSession rootSpan laterSpan).engine
        (serviceQuery "web".toList) 0 1000 .asc 1 = .ok first ∧
      queryBounded .storing [] List.reverse (pairSession rootSpan laterSpan).engine
        (serviceQuery "web".toList) 0 1000 .asc 2 = .ok more ∧
      first <+: more ∧ first <+: [rootSpan, laterSpan] :=
  (pages_iff Compressors.storing_lossless (pairSession_session rootSpan laterSpan) []
    (serviceQuery "web".toList) 0 1000 .asc arranges_reverse (by decide +kernel)).mpr
    (by unfold KeysTellApart; decide +kernel) 1 2 (by decide)

/-- Two spans that share start time and id: the second page of one span repeats the first, and the
other span is on none. -/
theorem pages_repeat :
    SpanSession .reliable .storing noJson (fun _ => True) (pairSession rootSpan twinSpan) ∧
      Arranges List.reverse ∧
      queryOrderedWithDuration .storing [] (pairSession rootSpan twinSpan).engine
        (serviceQuery "web".toList) 0 1000 .asc = .ok [rootSpan, twinSpan] ∧
      queryBounded .storing [] List.reverse (pairSession rootSpan twinSpan).engine
        (serviceQuery "web".toList) 0 1000 .asc 1 = .ok [rootSpan] ∧
      queryBounded .storing [] List.reverse (pairSession rootSpan twinSpan).engine
        (serviceQuery "web".toList) 0 1000 .asc 2 = .ok [twinSpan, rootSpan] :=
  ⟨pairSession_session _ _, arranges_reverse, by decide +kernel, by decide +kernel,
    by decide +kernel⟩

end Timeless.Spans
