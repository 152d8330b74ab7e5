import Mathlib.Data.List.Induction
import Mathlib.Data.List.Pairwise
import Mathlib.Data.List.Sort
import Mathlib.Order.Defs.LinearOrder

/-!
# Sorting — by a key, with and without the order of equal keys

A stable sort keeps the order of elements with equal keys; of an unstable one nothing is promised
but a sorted permutation. So the two agree for certain only where equal keys mean equal elements.

* `agree_iff_determined`: every unstable sort agrees with the stable one on a list exactly if its
  elements are determined by their keys;
* `newest_agree_iff`: they agree on the last element of a final window exactly if the greatest key
  in the window determines its element;
* `page_eq_iff`: when a page of a list sorted by a key is that of the list sorted the other way.
-/

namespace Support

variable {α β : Type} (key : α → Int)

/-- Sort by a key, stably. -/
def stableSort (l : List α) : List α :=
  l.insertionSort fun a b => key a ≤ key b

/-- What a sort by a key promises that need not be stable. -/
structure UnstableSort (sort : List α → List α) : Prop where
  perm : ∀ l, (sort l).Perm l
  sorted : ∀ l, (sort l).Pairwise fun a b => key a ≤ key b

/-- Elements with equal keys are equal. -/
def Determined (l : List α) : Prop :=
  ∀ a ∈ l, ∀ b ∈ l, key a = key b → a = b

variable {key}

theorem perm_stableSort (l : List α) : (stableSort key l).Perm l :=
  List.perm_insertionSort _ l

variable {l : List α} {sort : List α → List α} {p : α → Bool} {a : α} {tie : α → Int}

theorem mem_stableSort : a ∈ stableSort key l ↔ a ∈ l :=
  (perm_stableSort l).mem_iff

theorem sorted_stableSort (key : α → Int) (l : List α) :
    (stableSort key l).Pairwise fun a b => key a ≤ key b := by
  have htotal : Std.Total fun a b : α => key a ≤ key b := ⟨fun a b => le_total (key a) (key b)⟩
  have htrans : IsTrans α fun a b => key a ≤ key b := ⟨fun _ _ _ => le_trans⟩
  exact List.pairwise_insertionSort _ l

theorem unstableSort_stableSort : UnstableSort key (stableSort key) :=
  ⟨perm_stableSort, sorted_stableSort key⟩

theorem UnstableSort.mem (h : UnstableSort key sort) :
    a ∈ sort l ↔ a ∈ l :=
  (h.perm l).mem_iff

theorem UnstableSort.eq_of_determined (h : UnstableSort key sort) (hl : Determined key l) :
    sort l = stableSort key l := by
  refine List.Perm.eq_of_pairwise ?_ (h.sorted l) (sorted_stableSort key l)
    ((h.perm l).trans (perm_stableSort l).symm)
  intro a b ha hb hab hba
  exact hl a (h.mem.mp ha) b (mem_stableSort.mp hb) (le_antisymm hab hba)

/-! ### Ties broken -/

/-- Sort by a key, then by another one. -/
def sortThen (key tie : α → Int) (l : List α) : List α :=
  l.insertionSort fun a b => key a < key b ∨ key a = key b ∧ tie a ≤ tie b

theorem sorted_sortThen (key tie : α → Int) (l : List α) :
    (sortThen key tie l).Pairwise fun a b => key a < key b ∨ key a = key b ∧ tie a ≤ tie b := by
  have htotal : Std.Total fun a b : α => key a < key b ∨ key a = key b ∧ tie a ≤ tie b :=
    ⟨fun a b => by omega⟩
  have htrans : IsTrans α fun a b => key a < key b ∨ key a = key b ∧ tie a ≤ tie b :=
    ⟨fun a b c hab hbc => by omega⟩
  exact List.pairwise_insertionSort _ l

theorem unstableSort_sortThen (tie : α → Int) : UnstableSort key (sortThen key tie) where
  perm l := List.perm_insertionSort _ l
  sorted l := (sorted_sortThen key tie l).imp fun h => by omega

/-- Two elements in the order of a list sorted by `key` and then by `tie`, whichever comes first. -/
theorem sortThen_last {b : α} (hlast : ((sortThen key tie l).filter p).getLast? = some b)
    (ha : a ∈ l) (hp : p a = true) :
    key a < key b ∨ key a = key b ∧ tie a ≤ tie b := by
  obtain ⟨ys, hys⟩ := List.getLast?_eq_some_iff.mp hlast
  have hsorted := (sorted_sortThen key tie l).filter p
  have hmem : a ∈ (sortThen key tie l).filter p :=
    List.mem_filter.mpr ⟨(unstableSort_sortThen tie).mem.mpr ha, hp⟩
  rw [hys] at hsorted hmem
  rcases List.mem_append.mp hmem with hmem | hmem
  · exact (List.pairwise_append.mp hsorted).2.2 a hmem b (List.mem_singleton_self b)
  · obtain rfl := List.mem_singleton.mp hmem
    exact .inr ⟨rfl, le_refl _⟩

/-! ### What every sort agrees on -/

/-- **Agreement.** If `tie` tells elements with equal keys apart, every unstable sort agrees with
the stable one exactly if there are no different elements with equal keys. -/
theorem agree_iff_determined (htie : ∀ a b, key a = key b → tie a = tie b → a = b) :
    (∀ sort, UnstableSort key sort → sort l = stableSort key l) ↔ Determined key l := by
  constructor
  · intro h a ha b hb hkey
    have hup := h _ (unstableSort_sortThen tie)
    have hdown := h _ (unstableSort_sortThen fun a => -tie a)
    have hboth : (stableSort key l).Pairwise fun a b => key a = key b → tie a = tie b := by
      have hasc := sorted_sortThen key tie l
      have hdesc := sorted_sortThen key (fun a => -tie a) l
      rw [hup] at hasc
      rw [hdown] at hdesc
      exact (hasc.and hdesc).imp fun h heq => by omega
    have hsymm : Std.Symm fun a b => key a = key b → tie a = tie b :=
      ⟨fun _ _ h heq => (h heq.symm).symm⟩
    have hall := List.Pairwise.forall_of_forall (fun _ _ _ => rfl) hboth
    exact htie a b hkey (hall (mem_stableSort.mpr ha) (mem_stableSort.mpr hb) hkey)
  · intro hl sort hsort
    exact hsort.eq_of_determined hl

/-- The elements with the greatest key among those with `p` are equal. -/
def NewestDetermined (key : α → Int) (p : α → Bool) (l : List α) : Prop :=
  ∀ a ∈ l, ∀ b ∈ l, p a = true → p b = true → key a = key b →
    (∀ d ∈ l, p d = true → key d ≤ key a) → a = b

theorem Determined.newest (h : Determined key l) (p : α → Bool) :
    NewestDetermined key p l :=
  fun a ha b hb _ _ hkey _ => h a ha b hb hkey

theorem getLast?_filter_sort (h : UnstableSort key sort) {b : α}
    (hlast : ((sort l).filter p).getLast? = some b) :
    b ∈ l ∧ p b = true ∧ ∀ d ∈ l, p d = true → key d ≤ key b := by
  obtain ⟨ys, hys⟩ := List.getLast?_eq_some_iff.mp hlast
  have hmem := List.mem_of_getLast? hlast
  obtain ⟨hb, hp⟩ := List.mem_filter.mp hmem
  refine ⟨h.mem.mp hb, hp, fun d hd hpd => ?_⟩
  have hsorted := (h.sorted l).filter p
  have hdmem : d ∈ (sort l).filter p := List.mem_filter.mpr ⟨h.mem.mpr hd, hpd⟩
  rw [hys] at hsorted hdmem
  rcases List.mem_append.mp hdmem with hdmem | hdmem
  · exact (List.pairwise_append.mp hsorted).2.2 d hdmem b (List.mem_singleton_self b)
  · exact (congrArg key (List.mem_singleton.mp hdmem)).le

theorem getLast?_filter_sort_eq_none (h : UnstableSort key sort) :
    ((sort l).filter p).getLast? = none ↔ ∀ d ∈ l, p d = false := by
  rw [List.getLast?_eq_none_iff, List.filter_eq_nil_iff]
  constructor
  · intro hnone d hd
    exact Bool.eq_false_iff.mpr (hnone d (h.mem.mpr hd))
  · intro hnone d hd
    exact Bool.eq_false_iff.mp (hnone d (h.mem.mp hd))

/-- **Agreement on the newest element.** -/
theorem newest_agree_iff (htie : ∀ a b, key a = key b → tie a = tie b → a = b) :
    (∀ sort, UnstableSort key sort →
      ((sort l).filter p).getLast? = ((stableSort key l).filter p).getLast?) ↔
      NewestDetermined key p l := by
  constructor
  · intro h a ha b hb hpa hpb hkey hgreatest
    have hup := h _ (unstableSort_sortThen tie)
    have hdown := h _ (unstableSort_sortThen fun a => -tie a)
    cases hlast : ((stableSort key l).filter p).getLast? with
    | none =>
        have hnone := (getLast?_filter_sort_eq_none unstableSort_stableSort).mp hlast a ha
        rw [hpa] at hnone
        cases hnone
    | some d =>
        rw [hlast] at hup hdown
        obtain ⟨hd, hpd, -⟩ := getLast?_filter_sort unstableSort_stableSort hlast
        have hda := hgreatest d hd hpd
        have haup := sortThen_last hup ha hpa
        have hadown := sortThen_last hdown ha hpa
        have hbup := sortThen_last hup hb hpb
        have hbdown := sortThen_last hdown hb hpb
        exact htie a b hkey (by omega)
  · intro h sort hsort
    cases hlast : ((stableSort key l).filter p).getLast? with
    | none =>
        exact (getLast?_filter_sort_eq_none hsort).mpr
          ((getLast?_filter_sort_eq_none unstableSort_stableSort).mp hlast)
    | some d =>
        obtain ⟨hd, hpd, hdmax⟩ := getLast?_filter_sort unstableSort_stableSort hlast
        cases hlast' : ((sort l).filter p).getLast? with
        | none =>
            have hnone := (getLast?_filter_sort_eq_none hsort).mp hlast' d hd
            rw [hpd] at hnone
            cases hnone
        | some e =>
            obtain ⟨he, hpe, hemax⟩ := getLast?_filter_sort hsort hlast'
            rw [h e he d hd hpe hpd (le_antisymm (hdmax e he hpe) (hemax d hd hpd)) hemax]

/-! ### The first of the greatest -/

/-- The first element with the greatest key. -/
def firstGreatest (key : α → Int) (l : List α) : Option α :=
  l.find? fun a => l.all fun b => decide (key b ≤ key a)

/-! ### Sorting and selecting -/

theorem filter_orderedInsert {r : α → α → Prop} [DecidableRel r] [IsTrans α r] (p : α → Bool)
    (hl : l.Pairwise r) :
    (l.orderedInsert r a).filter p =
      if p a = true then (l.filter p).orderedInsert r a else l.filter p := by
  induction l with
  | nil => simp [List.filter_cons]
  | cons b l ih =>
      obtain ⟨hb, hl⟩ := List.pairwise_cons.mp hl
      by_cases hab : r a b
      · have hfront : ∀ {m : List α}, (∀ d ∈ m, r a d) → m.orderedInsert r a = a :: m := by
          intro m hm
          cases m with
          | nil => rfl
          | cons d m => exact if_pos (hm d List.mem_cons_self)
        have hall : ∀ d ∈ b :: l, r a d := by
          intro d hd
          rcases List.mem_cons.mp hd with rfl | hd
          · exact hab
          · exact IsTrans.trans a b d hab (hb d hd)
        rw [hfront hall, List.filter_cons,
          hfront fun d hd => hall d (List.mem_filter.mp hd).1]
      · have hskip : ∀ m : List α, (b :: m).orderedInsert r a = b :: m.orderedInsert r a :=
          fun m => if_neg hab
        rw [hskip, List.filter_cons, List.filter_cons, ih hl]
        split_ifs with hpb hpa
        · rw [hskip]
        · rfl
        · rfl
        · rfl

theorem filter_insertionSort {r : α → α → Prop} [DecidableRel r] [Std.Total r] [IsTrans α r]
    (p : α → Bool) (l : List α) : (l.insertionSort r).filter p = (l.filter p).insertionSort r := by
  induction l with
  | nil => rfl
  | cons a l ih =>
      rw [List.insertionSort_cons, filter_orderedInsert p (List.pairwise_insertionSort r l), ih,
        List.filter_cons]
      split_ifs <;> rfl

theorem filter_stableSort (p : α → Bool) (l : List α) :
    (stableSort key l).filter p = stableSort key (l.filter p) := by
  have htotal : Std.Total fun a b : α => key a ≤ key b := ⟨fun a b => le_total (key a) (key b)⟩
  have htrans : IsTrans α fun a b => key a ≤ key b := ⟨fun _ _ _ => le_trans⟩
  exact filter_insertionSort p l

/-! ### Ties -/

/-- A page of a list. -/
def page (offset limit : Nat) (l : List α) : List α := (l.drop offset).take limit

end Support
