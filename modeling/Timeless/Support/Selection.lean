import Mathlib.Data.List.Pairwise
import Mathlib.Data.List.Perm.Basic
import Mathlib.Data.List.Sort
import Mathlib.Data.Set.List
import Timeless.Support.Comparator

/-!
# Selection — the first elements of a sorted list

A bounded heap keeps the best `n` of the elements that it is shown; its root is the worst of them.
Here a heap is the list of what it holds, best first, so that the root is the last element.

* `foldl_retain`: what is kept of a list of distinguishable elements is the first `n` of them in
  sorted order;
* `insertionSort_then`: a stable sort is the sort in which the position breaks ties;
* `scanRetain_eq`: sources of no use can be left out.

Comparisons need only be consistent on the elements at hand.
-/

namespace Support

open Std (TransCmp OrientedCmp ReflCmp)

variable {α β : Type}

/-- Not after, by a comparison. -/
def CmpLe (cmp : α → α → Ordering) (a b : α) : Prop :=
  (cmp a b).isLE = true

instance (cmp : α → α → Ordering) : DecidableRel (CmpLe cmp) := fun a b =>
  inferInstanceAs (Decidable ((cmp a b).isLE = true))

theorem cmpLe_refl (cmp : α → α → Ordering) [ReflCmp cmp] (a : α) : CmpLe cmp a a :=
  Ordering.isLE_of_eq_eq (ReflCmp.compare_self (a := a))

/-- Show an element to a heap that keeps at most `capacity`. -/
def retain (cmp : α → α → Ordering) (capacity : Nat) (heap : List α) (x : α) : List α :=
  if capacity = 0 then heap
  else if heap.length < capacity then heap.orderedInsert (CmpLe cmp) x
  else
    match heap.getLast? with
    | none => heap
    | some worst =>
        if cmp x worst = .lt then heap.dropLast.orderedInsert (CmpLe cmp) x else heap

variable {cmp : α → α → Ordering} {xs : List α} {r : α → α → Prop} {x : α} {xs ys : List α}

/-- A full heap takes only what is before its worst element. -/
theorem retain_of_not_lt {capacity : Nat} {heap : List α} {worst : α}
    (hfull : heap.length = capacity) (hworst : heap.getLast? = some worst) (h : cmp x worst ≠ .lt) :
    retain cmp capacity heap x = heap := by
  rw [retain, if_neg (show ¬heap.length < capacity from hfull.not_lt), hworst]
  simp only [if_neg h, ite_self]

theorem foldl_retain_of_not_lt {capacity : Nat} {heap : List α} {worst : α}
    (hfull : heap.length = capacity) (hworst : heap.getLast? = some worst)
    (h : ∀ x ∈ xs, cmp x worst ≠ .lt) : xs.foldl (retain cmp capacity) heap = heap := by
  induction xs with
  | nil => rfl
  | cons x xs ih =>
      rw [List.foldl_cons, retain_of_not_lt hfull hworst (h x List.mem_cons_self)]
      exact ih fun y hy => h y (List.mem_cons_of_mem _ hy)

theorem foldl_retain_zero (cmp : α → α → Ordering) (heap xs : List α) :
    xs.foldl (retain cmp 0) heap = heap := by
  induction xs with
  | nil => rfl
  | cons x xs ih => rw [List.foldl_cons, retain, if_pos rfl, ih]

/-- No two elements compare equal. -/
def Distinguished (cmp : α → α → Ordering) (xs : List α) : Prop :=
  xs.Pairwise fun a b => cmp a b ≠ .eq

/-! ### Sorted insertion -/

section Insert

variable {r : α → α → Prop} [DecidableRel r]

/-- Insertion stops before the first element that may follow. -/
theorem orderedInsert_before {w : α} (h : r x w) (T U : List α) :
    (T ++ w :: U).orderedInsert r x = T.orderedInsert r x ++ w :: U := by
  induction T with
  | nil => exact if_pos h
  | cons t T ih =>
      rw [List.cons_append, List.orderedInsert, List.orderedInsert]
      split_ifs with hxt
      · rfl
      · rw [ih, List.cons_append]

theorem orderedInsert_append_right {T U : List α} (h : ∀ t ∈ T, ¬r x t) :
    (T ++ U).orderedInsert r x = T ++ U.orderedInsert r x := by
  induction T with
  | nil => rfl
  | cons t T ih =>
      rw [List.cons_append, List.orderedInsert, if_neg (h t List.mem_cons_self),
        ih fun t' ht' => h t' (List.mem_cons_of_mem _ ht'), List.cons_append]

theorem orderedInsert_congr {s : α → α → Prop} [DecidableRel s] {l : List α}
    (h : ∀ b ∈ l, r x b ↔ s x b) : l.orderedInsert r x = l.orderedInsert s x := by
  induction l with
  | nil => rfl
  | cons b l ih =>
      rw [List.orderedInsert, List.orderedInsert, ih fun b' hb' => h b' (List.mem_cons_of_mem _ hb')]
      exact if_congr (h b List.mem_cons_self) rfl rfl

end Insert

/-! ### Consistent comparisons -/

section Consistent

variable {cmp : α → α → Ordering} [TransCmp cmp]

instance : Std.Total (CmpLe cmp) where
  total a b := by
    unfold CmpLe
    by_cases h : (cmp a b).isLE = true
    · exact .inl h
    · exact .inr (Ordering.isLE_of_eq_lt (OrientedCmp.lt_of_not_isLE h))

instance : IsTrans α (CmpLe cmp) where
  trans _ _ _ hab hbc := TransCmp.isLE_trans hab hbc

theorem distinguished_perm (h : xs.Perm ys) :
    Distinguished cmp xs ↔ Distinguished cmp ys :=
  h.pairwise_iff fun hab hba => hab (OrientedCmp.eq_symm hba)

/-- Sorting forgets the order of distinguishable elements. -/
theorem insertionSort_perm (h : xs.Perm ys) (hd : Distinguished cmp xs) :
    xs.insertionSort (CmpLe cmp) = ys.insertionSort (CmpLe cmp) := by
  have hxs := List.perm_insertionSort (CmpLe cmp) xs
  have hys := List.perm_insertionSort (CmpLe cmp) ys
  refine List.Perm.eq_of_pairwise ?_ (List.pairwise_insertionSort _ _)
    (List.pairwise_insertionSort _ _) ((hxs.trans h).trans hys.symm)
  intro a b ha hb hab hba
  by_contra hne
  have heq : cmp a b = .eq := OrientedCmp.isLE_antisymm hab hba
  have : Std.Symm fun a b : α => cmp a b ≠ .eq := ⟨fun _ _ h h' => h (OrientedCmp.eq_symm h')⟩
  exact hd.forall (hxs.subset ha) (h.symm.subset (hys.subset hb)) hne heq

/-- One step: the first `capacity` of a sorted list, after one more element was shown. -/
theorem retain_take {S : List α} (hS : S.Pairwise (CmpLe cmp)) (hx : ∀ b ∈ S, cmp x b ≠ .eq)
    (capacity : Nat) :
    retain cmp capacity (S.take capacity) x = (S.orderedInsert (CmpLe cmp) x).take capacity := by
  unfold retain
  split_ifs with hzero hroom
  · rw [hzero, List.take_zero, List.take_zero]
  · rw [List.length_take] at hroom
    have hlen : S.length < capacity := by omega
    rw [List.take_of_length_le hlen.le, List.take_of_length_le]
    rw [List.orderedInsert_length]
    exact hlen
  -- the heap is full: split the sorted list behind it
  have hfull : (S.take capacity).length = capacity := by
    have := List.length_take_le capacity S
    omega
  have hsplit : S = S.take capacity ++ S.drop capacity := (List.take_append_drop _ _).symm
  generalize hT : S.take capacity = T at hfull hsplit ⊢
  generalize S.drop capacity = U at hsplit
  have hne : T ≠ [] := by
    rintro rfl
    exact hzero (by simpa using hfull.symm)
  obtain ⟨T', worst, rfl⟩ : ∃ T' worst, T = T' ++ [worst] :=
    ⟨T.dropLast, T.getLast hne, (List.dropLast_append_getLast hne).symm⟩
  rw [List.getLast?_concat, List.dropLast_concat]
  rw [hsplit] at hS hx ⊢
  have hworst : worst ∈ (T' ++ [worst]) ++ U := by simp
  dsimp only
  split_ifs with hlt
  · have hle : CmpLe cmp x worst := Ordering.isLE_of_eq_lt hlt
    rw [List.append_assoc, List.singleton_append, orderedInsert_before hle, List.take_left']
    rw [List.orderedInsert_length, ← hfull, List.length_append, List.length_singleton]
  · have hgt : ¬CmpLe cmp x worst := by
      intro hle
      rcases Ordering.isLE_iff_eq_lt_or_eq_eq.mp hle with h | h
      · exact hlt h
      · exact hx worst hworst h
    have hbelow : ∀ t ∈ T' ++ [worst], ¬CmpLe cmp x t := by
      intro t ht hle
      rcases List.mem_append.mp ht with ht | ht
      · have htw := (List.pairwise_append.mp (List.pairwise_append.mp hS).1).2.2 t ht worst
          (List.mem_singleton.mpr rfl)
        exact hgt (TransCmp.isLE_trans hle htw)
      · exact hgt (List.mem_singleton.mp ht ▸ hle)
    rw [orderedInsert_append_right hbelow, List.take_left' hfull]

/-- **Bounded selection.** Showing distinguishable elements one after the other leaves the first of
them in sorted order. -/
theorem foldl_retain_take {S : List α} (hS : S.Pairwise (CmpLe cmp))
    (hd : Distinguished cmp (S ++ xs)) (capacity : Nat) :
    xs.foldl (retain cmp capacity) (S.take capacity) =
      ((S ++ xs).insertionSort (CmpLe cmp)).take capacity := by
  induction xs generalizing S with
  | nil => rw [List.append_nil, hS.insertionSort_eq, List.foldl_nil]
  | cons x xs ih =>
      have hx : ∀ b ∈ S, cmp x b ≠ .eq := by
        intro b hb heq
        exact (List.pairwise_append.mp hd).2.2 b hb x List.mem_cons_self (OrientedCmp.eq_symm heq)
      have hperm : (S.orderedInsert (CmpLe cmp) x ++ xs).Perm (S ++ x :: xs) :=
        ((List.perm_orderedInsert (CmpLe cmp) x S).append_right xs).trans
          List.perm_middle.symm
      rw [List.foldl_cons, retain_take hS hx, ih (hS.orderedInsert x S)
        ((distinguished_perm hperm).mpr hd), insertionSort_perm hperm
        ((distinguished_perm hperm).mpr hd)]

theorem foldl_retain_nil (hd : Distinguished cmp xs) (capacity : Nat) :
    xs.foldl (retain cmp capacity) [] = (xs.insertionSort (CmpLe cmp)).take capacity := by
  rw [← List.nil_append xs] at hd
  have hkept := foldl_retain_take List.Pairwise.nil hd capacity
  rwa [List.take_nil] at hkept

end Consistent

/-! ### Ties -/

/-- A stable sort puts elements that compare equal in the order of their positions. -/
theorem insertionSort_then {cmp pos : α → α → Ordering} (h : xs.Pairwise fun a b => pos a b = .lt) :
    xs.insertionSort (CmpLe cmp) =
      xs.insertionSort (CmpLe fun a b => (cmp a b).then (pos a b)) := by
  induction xs with
  | nil => rfl
  | cons x xs ih =>
      obtain ⟨hx, hxs⟩ := List.pairwise_cons.mp h
      rw [List.insertionSort_cons, List.insertionSort_cons, ih hxs]
      refine orderedInsert_congr fun b hb => ?_
      rw [CmpLe, CmpLe, hx b ((List.perm_insertionSort _ _).subset hb)]
      cases cmp x b <;> decide

/-- The first element of a list is the first of its kind when the list is sorted. -/
theorem find?_orderedInsert [DecidableRel r] {p : α → Bool} (hx : p x = true) {l : List α}
    (h : ∀ y ∈ l, p y = true → r x y) : (l.orderedInsert r x).find? p = some x := by
  induction l with
  | nil => rw [List.orderedInsert, List.find?_cons_of_pos hx]
  | cons y l ih =>
      rw [List.orderedInsert]
      split_ifs with hxy
      · exact List.find?_cons_of_pos hx
      · rw [List.find?_cons_of_neg fun hy => hxy (h y List.mem_cons_self hy)]
        exact ih fun y' hy' => h y' (List.mem_cons_of_mem _ hy')

theorem find?_insertionSort_cons [DecidableRel r] {p : α → Bool} (hx : p x = true)
    (h : ∀ y ∈ xs, p y = true → r x y) :
    ((x :: xs).insertionSort r).find? p = some x := by
  rw [List.insertionSort_cons]
  exact find?_orderedInsert hx fun y hy => h y ((List.perm_insertionSort _ _).subset hy)

/-- Sorted lists of the same elements are the same if equal keys mean equal elements. -/
theorem eq_of_perm_of_sorted (hperm : xs.Perm ys) (hxs : xs.Pairwise r) (hys : ys.Pairwise r)
    (h : ∀ a ∈ xs, ∀ b ∈ xs, r a b → r b a → a = b) :
    xs = ys :=
  hperm.eq_of_pairwise (fun a b ha hb => h a ha b (hperm.symm.subset hb)) hxs hys

/-- In a sorted list, elements with the same key are equal if neighbours are. -/
theorem eq_of_neighbours [TransCmp cmp] {f : β → α} {l : List β}
    (hsorted : (l.map f).Pairwise (CmpLe cmp))
    (h : ∀ pre u v post, l = pre ++ u :: v :: post → cmp (f u) (f v) = .eq → f u = f v) :
    l.Pairwise fun a b => cmp (f a) (f b) = .eq → f a = f b := by
  induction l with
  | nil => exact .nil
  | cons u l ih =>
      obtain ⟨hu, hl⟩ := List.pairwise_cons.mp hsorted
      have hrest := ih hl fun pre u' v' post heq => h (u :: pre) u' v' post (by rw [heq]; rfl)
      refine List.pairwise_cons.mpr ⟨fun b hb heq => ?_, hrest⟩
      cases l with
      | nil => cases hb
      | cons v l =>
          rcases List.mem_cons.mp hb with rfl | hb
          · exact h [] u b l rfl heq
          -- the neighbour is between the two
          have hvb := (List.pairwise_cons.mp hl).1 (f b) (List.mem_map_of_mem hb)
          have hbu : CmpLe cmp (f b) (f u) := Ordering.isLE_of_eq_eq (OrientedCmp.eq_symm heq)
          have huv := h [] u v l rfl
            (OrientedCmp.isLE_antisymm (hu (f v) List.mem_cons_self) (TransCmp.isLE_trans hvb hbu))
          rw [huv] at heq ⊢
          exact (List.pairwise_cons.mp hrest).1 b hb heq

theorem pairwise_zipIdx (l : List α) (k : Nat) : (l.zipIdx k).Pairwise fun a b => a.2 < b.2 := by
  have h := List.pairwise_lt_range' (s := k) (n := l.length)
  rw [← List.zipIdx_map_snd k l] at h
  exact List.pairwise_map.mp h

/-! ### Sources of no use -/

section Scan

variable {γ ε : Type} {cmp : α → α → Ordering} {capacity : Nat}

/-- Show what one source after the other has to a heap, until a source is of no use. -/
def scanRetain (cmp : α → α → Ordering) (capacity : Nat) (useless : List α → γ → Bool)
    (items : γ → Except ε (List α)) : List γ → List α → Except ε (List α)
  | [], heap => .ok heap
  | g :: sources, heap =>
      if useless heap g then .ok heap
      else do
        let xs ← items g
        scanRetain cmp capacity useless items sources (xs.foldl (retain cmp capacity) heap)

/-- **Stopping early** leaves the heap as it would be, if nothing that is left changes it then. -/
theorem scanRetain_eq {useless : List α → γ → Bool} {items : γ → Except ε (List α)}
    {shown : γ → List α} {sources : List γ} (hitems : ∀ g ∈ sources, items g = .ok (shown g))
    (hstop : ∀ heap g rest, g :: rest <:+ sources → useless heap g = true →
      ((g :: rest).flatMap shown).foldl (retain cmp capacity) heap = heap) (heap : List α) :
    scanRetain cmp capacity useless items sources heap =
      .ok ((sources.flatMap shown).foldl (retain cmp capacity) heap) := by
  induction sources generalizing heap with
  | nil => rfl
  | cons g sources ih =>
      rw [scanRetain]
      split_ifs with huseless
      · rw [hstop heap g sources List.suffix_rfl huseless]
      · rw [hitems g List.mem_cons_self, List.flatMap_cons, List.foldl_append]
        exact ih (fun g' hg' => hitems g' (List.mem_cons_of_mem _ hg'))
          (fun heap' g' rest hrest => hstop heap' g' rest (hrest.trans (List.suffix_cons _ _))) _

end Scan

/-! ### Comparisons on a set -/

section OnSet

variable {cmp : α → α → Ordering} {S : Set α}

theorem insertionSort_map (f : β → α) (xs : List β) :
    (xs.insertionSort (CmpLe fun a b => cmp (f a) (f b))).map f =
      (xs.map f).insertionSort (CmpLe cmp) :=
  List.map_insertionSort _ _ f xs fun _ _ _ _ => Iff.rfl

theorem retain_map (f : β → α) (capacity : Nat) (heap : List β) (x : β) :
    (retain (fun a b => cmp (f a) (f b)) capacity heap x).map f =
      retain cmp capacity (heap.map f) (f x) := by
  have hinsert : ∀ l : List β, (l.orderedInsert (CmpLe fun a b => cmp (f a) (f b)) x).map f =
      (l.map f).orderedInsert (CmpLe cmp) (f x) := fun l =>
    List.map_orderedInsert _ _ f l x (fun _ _ => Iff.rfl) fun _ _ => Iff.rfl
  unfold retain
  rw [List.length_map, List.getLast?_map]
  split_ifs
  · rfl
  · exact hinsert heap
  · cases heap.getLast? with
    | none => rfl
    | some worst =>
        dsimp only [Option.map_some]
        split_ifs
        · rw [hinsert, List.map_dropLast]
        · rfl

theorem foldl_retain_map (f : β → α) (capacity : Nat) (heap xs : List β) :
    (xs.foldl (retain (fun a b => cmp (f a) (f b)) capacity) heap).map f =
      (xs.map f).foldl (retain cmp capacity) (heap.map f) := by
  induction xs generalizing heap with
  | nil => rfl
  | cons x xs ih => rw [List.foldl_cons, ih, retain_map, List.map_cons, List.foldl_cons]

/-- Items kept one by one are the first of all of them. -/
theorem foldl_retain (h : ConsistentOn cmp S) (hxs : ∀ x ∈ xs, x ∈ S) (hd : Distinguished cmp xs)
    (capacity : Nat) :
    xs.foldl (retain cmp capacity) [] = (xs.insertionSort (CmpLe cmp)).take capacity := by
  have : TransCmp fun a b : S => cmp a b := h
  lift xs to List S using hxs
  have hd' : Distinguished (fun a b : S => cmp a b) xs := List.pairwise_map.mp hd
  rw [← List.map_nil (f := ((↑) : S → α)), ← foldl_retain_map, foldl_retain_nil hd', List.map_take,
    insertionSort_map]

theorem pairwise_insertionSort_on (h : ConsistentOn cmp S) (hxs : ∀ x ∈ xs, x ∈ S) :
    (xs.insertionSort (CmpLe cmp)).Pairwise (CmpLe cmp) := by
  have : TransCmp fun a b : S => cmp a b := h
  lift xs to List S using hxs
  rw [← insertionSort_map]
  exact List.pairwise_map.mpr
    (List.pairwise_insertionSort (CmpLe fun a b : S => cmp a b) xs)

theorem insertionSort_perm_on (h : ConsistentOn cmp S) (hxs : ∀ x ∈ xs, x ∈ S) (hperm : xs.Perm ys)
    (hd : Distinguished cmp xs) :
    xs.insertionSort (CmpLe cmp) = ys.insertionSort (CmpLe cmp) := by
  have : TransCmp fun a b : S => cmp a b := h
  have hys : ∀ y ∈ ys, y ∈ S := fun y hy => hxs y (hperm.symm.subset hy)
  lift xs to List S using hxs
  lift ys to List S using hys
  have hperm' : xs.Perm ys := (List.map_perm_map_iff Subtype.val_injective).mp hperm
  have hd' : Distinguished (fun a b : S => cmp a b) xs := List.pairwise_map.mp hd
  have hsort := congrArg (List.map ((↑) : S → α)) (insertionSort_perm hperm' hd')
  rwa [insertionSort_map, insertionSort_map] at hsort

end OnSet

end Support
