import Mathlib.Algebra.Order.Ring.Int
import Mathlib.Data.List.Induction
import Mathlib.Data.List.TakeWhile
import Mathlib.Tactic.Ring
import Timeless.Support.Checked

/-!
# Cursor — walking a sorted list along a grid

A cursor is an index into a list that moves forward over an initial stretch of it. A grid is an
arithmetic progression of 64-bit integers; a loop visits its points in order and moves its cursors
as it goes. The loop stops when the next point is behind the end of the grid or out of range.

* `advance_eq`: a cursor that is not past the stretch ends where the stretch ends, from wherever it
  starts;
* `mem_gridTimes`, `gridTimes_ascending`: the points of a grid;
* `gridWalk_eq`: a loop whose visits compute `value`, given an invariant of its cursors, ends and
  returns the values at all points of the grid, in order.
-/

namespace Support

/-! ### Cursors -/

section Cursors

variable {α : Type} {p q : α → Bool} {l : List α}

/-- `while k < n && p(l[k]) { k += 1 }`. -/
def advance (p : α → Bool) (l : List α) (k : Nat) : Nat :=
  k + ((l.drop k).takeWhile p).length

/-- The elements with `p` are an initial stretch of the list. -/
def Initial (p : α → Bool) (l : List α) : Prop :=
  l.Pairwise fun a b => p b = true → p a = true

theorem Initial.filter_append (h : Initial p l) : l.filter p ++ l.filter (fun a => !p a) = l := by
  induction l with
  | nil => rfl
  | cons a l ih =>
      obtain ⟨ha, hl⟩ := List.pairwise_cons.mp h
      by_cases hp : p a = true
      · rw [List.filter_cons_of_pos hp, List.filter_cons_of_neg (by simp [hp]), List.cons_append,
          ih hl]
      · have hnone : l.filter p = [] :=
          List.filter_eq_nil_iff.mpr fun b hb hpb => hp (ha b hb hpb)
        rw [List.filter_cons_of_neg hp, List.filter_cons_of_pos (by simp [hp]), hnone,
          List.nil_append]
        rw [← ih hl, hnone, List.nil_append, List.filter_filter]
        simp

theorem Initial.take (h : Initial p l) : l.take (l.countP p) = l.filter p := by
  have hsplit : (l.filter p ++ l.filter fun a => !p a).take (l.filter p).length = l.filter p :=
    List.take_left
  rwa [h.filter_append, ← List.countP_eq_length_filter] at hsplit

theorem Initial.drop (h : Initial p l) : l.drop (l.countP p) = l.filter fun a => !p a := by
  have hsplit : (l.filter p ++ l.filter fun a => !p a).drop (l.filter p).length =
      l.filter fun a => !p a := List.drop_left
  rwa [h.filter_append, ← List.countP_eq_length_filter] at hsplit

/-- A cursor that is not past the stretch moves to its end. -/
theorem advance_eq (h : Initial p l) {k : Nat} (hk : k ≤ l.countP p) :
    advance p l k = l.countP p := by
  have hdrop : l.drop k = (l.filter p).drop k ++ l.filter fun a => !p a := by
    conv_lhs => rw [← h.filter_append]
    rw [List.drop_append_of_le_length (by rwa [← List.countP_eq_length_filter])]
  have hall : ∀ a ∈ (l.filter p).drop k, p a = true := fun a ha =>
    (List.mem_filter.mp (List.mem_of_mem_drop ha)).2
  have hstop : (l.filter fun a => !p a).takeWhile p = [] := by
    rw [List.takeWhile_eq_nil_iff]
    intro hlen hp
    have hhead := (List.mem_filter.mp (List.get_mem _ ⟨0, hlen⟩)).2
    rw [hp] at hhead
    cases hhead
  rw [advance, hdrop, List.takeWhile_append_of_pos hall, hstop, List.append_nil, List.length_drop,
    ← List.countP_eq_length_filter]
  omega

theorem getLast?_take {k : Nat} (hk : k ≤ l.length) :
    (l.take k).getLast? = if 0 < k then l[k - 1]? else none := by
  split_ifs with hpos
  · rw [List.getLast?_eq_getElem?, List.length_take, Nat.min_eq_left hk,
      List.getElem?_take_of_lt (by omega)]
  · rw [Nat.eq_zero_of_not_pos hpos, List.take_zero, List.getLast?_nil]

/-- If `q` holds from some place on, the last element with `q` is the last element, or none. -/
theorem getLast?_filter (h : l.Pairwise fun a b => q a = true → q b = true) :
    (l.filter q).getLast? = l.getLast?.filter q := by
  induction l using List.reverseRecOn with
  | nil => rfl
  | append_singleton l a _ =>
      rw [List.filter_append, List.getLast?_concat]
      by_cases hq : q a = true
      · rw [List.filter_cons_of_pos hq, List.filter_nil, List.getLast?_concat,
          Option.filter_some_pos hq]
      · have hnone : l.filter q = [] := by
          rw [List.filter_eq_nil_iff]
          intro b hb hqb
          exact hq ((List.pairwise_append.mp h).2.2 b hb a (List.mem_singleton_self a) hqb)
        rw [List.filter_cons_of_neg hq, hnone, List.filter_nil, List.append_nil,
          Option.filter_some_neg (Bool.eq_false_iff.mpr hq), List.getLast?_nil]

end Cursors

/-! ### Grids -/

/-- The points of a grid. -/
def gridTimes (start stop step : Int) : List Int :=
  (List.range ((stop - start) / step + 1).toNat).map fun k : Nat => start + k * step

variable {start stop step : Int}

theorem gridTimes_of_lt (hstep : 0 < step) (h : stop < start) :
    gridTimes start stop step = [] := by
  have hneg : (stop - start) / step < 0 := Int.ediv_neg_of_neg_of_pos (by omega) hstep
  rw [gridTimes, Int.toNat_eq_zero.mpr (by omega)]
  rfl

theorem gridTimes_cons (hstep : 0 < step) (h : start ≤ stop) :
    gridTimes start stop step = start :: gridTimes (start + step) stop step := by
  have hpos : 0 ≤ (stop - start) / step := Int.ediv_nonneg (by omega) hstep.le
  have hnext : (stop - (start + step)) / step = (stop - start) / step - 1 := by
    rw [← sub_sub, Int.sub_ediv_of_dvd _ (dvd_refl step), Int.ediv_self hstep.ne']
  have hlen : ((stop - start) / step + 1).toNat = ((stop - start) / step).toNat + 1 := by
    omega
  rw [gridTimes, gridTimes, hlen, hnext, List.range_succ_eq_map, List.map_cons, List.map_map,
    sub_add_cancel]
  refine congrArg₂ _ (by simp) (List.map_congr_left fun k _ => ?_)
  simp only [Function.comp_apply, Nat.succ_eq_add_one]
  push_cast
  ring

/-- The times of a grid: whole steps from its start. -/
theorem mem_gridTimes (hstep : 0 < step) {t : Int} :
    t ∈ gridTimes start stop step ↔ ∃ k : Nat, t = start + k * step ∧ t ≤ stop := by
  rw [gridTimes, List.mem_map]
  constructor
  · rintro ⟨k, hk, rfl⟩
    refine ⟨k, rfl, ?_⟩
    have hle : (k : Int) ≤ (stop - start) / step := by
      have := List.mem_range.mp hk
      omega
    have := (Int.le_ediv_iff_mul_le hstep).mp hle
    omega
  · rintro ⟨k, rfl, hle⟩
    refine ⟨k, List.mem_range.mpr ?_, rfl⟩
    have : (k : Int) ≤ (stop - start) / step := (Int.le_ediv_iff_mul_le hstep).mpr (by omega)
    omega

theorem gridTimes_ascending (start stop : Int) {step : Int} (hstep : 0 < step) :
    (gridTimes start stop step).Pairwise (· < ·) := by
  refine List.pairwise_map.mpr (List.pairwise_lt_range.imp fun hlt => ?_)
  have := Int.mul_lt_mul_of_pos_right (Int.ofNat_lt.mpr hlt) hstep
  omega

/-! ### The loop -/

section Loop

variable {σ β : Type}

/-- Visit the points of a grid from `t` on, as long as the next one is in range and not behind
`stop`. A visit moves the cursors and may return a row; none if the fuel does not suffice. -/
def gridWalk (visit : σ → Int → σ × Option β) (stop step : Int) :
    Nat → σ → Int → Option (List (Int × β))
  | 0, _, _ => none
  | fuel + 1, s, t =>
      let row := ((visit s t).2.map fun value => (t, value)).toList
      match checked (t + step) with
      | none => some row
      | some next =>
          if next ≤ stop then
            (gridWalk visit stop step fuel (visit s t).1 next).map (row ++ ·)
          else some row

/-- The rows of a grid. -/
def gridRows (value : Int → Option β) (times : List Int) : List (Int × β) :=
  times.flatMap fun t => ((value t).map fun v => (t, v)).toList

variable {visit : σ → Int → σ × Option β} {value : Int → Option β} {stop step : Int}

/-- **The loop over a grid.** If the cursors keep an invariant under which a visit computes `value`,
and it is kept however far the next point is, the loop returns the rows of the grid. -/
theorem gridWalk_eq (Inv : σ → Int → Prop) (hstep : 0 < step) (hstop : InI64 stop)
    (hvisit : ∀ {s t}, Inv s t →
      (visit s t).2 = value t ∧ ∀ {t'}, t ≤ t' → Inv (visit s t).1 t')
    {fuel : Nat} {s : σ} {t : Int} (ht : InI64 t) (hle : t ≤ stop)
    (hfuel : ((stop - t) / step).toNat < fuel) (hinv : Inv s t) :
    gridWalk visit stop step fuel s t = some (gridRows value (gridTimes t stop step)) := by
  -- induction on the fuel: a point ahead costs one
  induction fuel generalizing s t with
  | zero => omega
  | succ fuel ih =>
      obtain ⟨hvalue, hkeep⟩ := hvisit hinv
      have hcons := gridTimes_cons hstep hle
      by_cases hnext : t + step ≤ stop
      · have hin : InI64 (t + step) := ⟨by have := ht.1; omega, hnext.trans hstop.2⟩
        have hshorter : ((stop - (t + step)) / step).toNat < fuel := by
          rw [← sub_sub, Int.sub_ediv_of_dvd _ (dvd_refl step), Int.ediv_self hstep.ne']
          have : 1 ≤ (stop - t) / step := by
            rw [Int.le_ediv_iff_mul_le hstep]
            omega
          omega
        rw [gridWalk, checked_pos hin]
        simp only [if_pos hnext, ih hin hnext hshorter (hkeep (by omega)), Option.map_some, hcons,
          hvalue, gridRows, List.flatMap_cons]
      · have hlast : gridTimes (t + step) stop step = [] :=
          gridTimes_of_lt hstep (by omega)
        have hrow : gridRows value (gridTimes t stop step) =
            ((value t).map fun v => (t, v)).toList := by
          rw [hcons, hlast, gridRows, List.flatMap_cons, List.flatMap_nil, List.append_nil]
        rw [gridWalk, hrow]
        by_cases hin : InI64 (t + step)
        · simp only [checked_pos hin, if_neg hnext, hvalue]
        · simp only [checked_neg hin, hvalue]

end Loop

end Support
