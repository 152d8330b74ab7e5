import Mathlib.Data.List.Sort
import Timeless.Support.Cursor

/-!
# Grid — the grid kernels

`gridLastWalk` and `windowOpWalk` evaluate the samples of one series at the points of a grid: the
newest sample of the last `lookback` timestamps, and an operation on the samples of the last
`window` timestamps. Both go over the samples once, with a cursor for each end of the window. A
window is open at its older end; its bounds are computed in 128 bits, so they are plain integers
here.

* `gridLastWalk_eq`, `windowOpWalk_eq`: on sorted samples the walks end and return what filtering
  the samples at each point of the grid returns.

The operations are those of `window_op_value`, over the float operations of `WindowFloats`.
-/

namespace Timeless.Metrics

open Support

/-- A float by its bits. -/
abbrev F64 := UInt64

/-- A raw sample. -/
abbrev Point := Int × F64

/-! ### Window operations -/

/-- The float operations of the window kernels. Casts from an integer are `ofNat` and `ofInt`; a
ceiling or floor is taken as an index. -/
structure WindowFloats where
  add : F64 → F64 → F64
  sub : F64 → F64 → F64
  mul : F64 → F64 → F64
  div : F64 → F64 → F64
  abs : F64 → F64
  lt : F64 → F64 → Bool
  ge : F64 → F64 → Bool
  isNan : F64 → Bool
  isInfinite : F64 → Bool
  totalLe : F64 → F64 → Bool
  ofNat : Nat → F64
  ofInt : Int → F64
  ceil : F64 → Nat
  floor : F64 → Nat
  display : F64 → String

/-- Words with their own arithmetic in the place of floats, to evaluate the kernels with. -/
def WindowFloats.words : WindowFloats where
  add a b := a + b
  sub a b := a - b
  mul a b := a * b
  div a b := a / b
  abs a := a
  lt a b := a < b
  ge a b := b ≤ a
  isNan _ := false
  isInfinite _ := false
  totalLe a b := a ≤ b
  ofNat := UInt64.ofNat
  ofInt i := UInt64.ofNat i.toNat
  ceil := UInt64.toNat
  floor := UInt64.toNat
  display a := toString a

inductive AggFn where
  | avg
  | sum
  | min
  | max
  | count
  deriving DecidableEq

inductive WindowOp where
  | agg (fn : AggFn)
  | delta
  | increase
  | rate
  | percentile (q : F64)
  | trimmedMean (q : F64)
  deriving DecidableEq

section Operations

variable (ops : WindowFloats)

/-- A sum and its compensation with one more number. -/
def compensatedAdd (increment sum compensation : F64) : F64 × F64 :=
  let total := ops.add sum increment
  let compensation :=
    if ops.isInfinite total then ops.ofNat 0
    else if ops.ge (ops.abs sum) (ops.abs increment) then
      ops.add compensation (ops.add (ops.sub sum total) increment)
    else ops.add compensation (ops.add (ops.sub increment total) sum)
  (total, compensation)

structure AverageState where
  sum : F64
  compensation : F64
  mean : F64
  count : F64
  incrementalMean : Bool

/-- One more sample of an average: added to the sum, and to the mean once the sum has overflown. -/
def AverageState.add (s : AverageState) (value : F64) : AverageState :=
  let count := ops.add s.count (ops.ofNat 1)
  let before := ops.sub count (ops.ofNat 1)
  let incremental (mean compensation : F64) : AverageState :=
    let weight := ops.div before count
    let next := compensatedAdd ops (ops.div value count) (ops.mul weight mean)
      (ops.mul weight compensation)
    ⟨s.sum, next.2, next.1, count, true⟩
  if s.incrementalMean then incremental s.mean s.compensation
  else
    let next := compensatedAdd ops value s.sum s.compensation
    if ops.isInfinite next.1 then
      incremental (ops.div s.sum before) (ops.div s.compensation before)
    else ⟨next.1, next.2, s.mean, count, false⟩

def compensatedWindowAverage (first : Point) (rest : List Point) : F64 :=
  let s := (rest.map Prod.snd).foldl (AverageState.add ops)
    ⟨first.2, ops.ofNat 0, first.2, ops.ofNat 1, false⟩
  if s.incrementalMean then ops.add s.mean s.compensation
  else ops.add (ops.div s.sum s.count) (ops.div s.compensation s.count)

def compensatedWindowSum (first : Point) (rest : List Point) : F64 :=
  let s := (rest.map Prod.snd).foldl
    (fun (s : F64 × F64) value => compensatedAdd ops value s.1 s.2) (first.2, ops.ofNat 0)
  ops.add s.1 s.2

/-- The steps upwards, where a step down counts from zero. -/
def increaseOf (win : List Point) : F64 :=
  (win.zip win.tail).foldl (fun acc pair =>
    ops.add acc (if ops.ge pair.2.2 pair.1.2 then ops.sub pair.2.2 pair.1.2 else pair.2.2))
    (ops.ofNat 0)

def sortedFiniteOrNanless (win : List Point) : List F64 :=
  ((win.map Prod.snd).filter fun v => !ops.isNan v).insertionSort fun a b => ops.totalLe a b = true

/-- The operation on a window of samples; none for no row. -/
def windowOpValue (window : Int) (op : WindowOp) (first : Point) (rest : List Point) :
    Option F64 :=
  let win := first :: rest
  match op with
  | .agg .count => some (ops.ofNat win.length)
  | .agg .sum => some (compensatedWindowSum ops first rest)
  | .agg .avg => some (compensatedWindowAverage ops first rest)
  | .agg .min => some <| (rest.map Prod.snd).foldl
      (fun acc value => if ops.lt value acc || ops.isNan acc then value else acc) first.2
  | .agg .max => some <| (rest.map Prod.snd).foldl
      (fun acc value => if ops.lt acc value || ops.isNan acc then value else acc) first.2
  | .delta => some (ops.sub ((first :: rest).getLast (List.cons_ne_nil _ _)).2 first.2)
  | .increase => some (increaseOf ops win)
  | .rate => some (ops.div (increaseOf ops win) (ops.ofInt window))
  | .percentile q =>
      let sorted := sortedFiniteOrNanless ops win
      let n := sorted.length
      let rank := ops.ceil (ops.mul (ops.div q (ops.ofNat 100)) (ops.ofNat n))
      if n = 0 then none else sorted[max 1 (min n rank) - 1]?
  | .trimmedMean q =>
      let sorted := sortedFiniteOrNanless ops win
      let n := sorted.length
      let k := ops.floor (ops.mul (ops.ofNat n) (ops.div q (ops.ofNat 100)))
      if n = 0 ∨ n ≤ 2 * k then none
      else
        let kept := (sorted.take (n - k)).drop k
        some (ops.div (kept.foldl ops.add (ops.ofNat 0)) (ops.ofNat kept.length))

end Operations

/-! ### The walks -/

/-- The largest grid of one call. -/
def maxGridPoints : Int := 1000000

def gridLen (start stop step : Int) : Except String Int :=
  if step ≤ 0 then .error s!"grid step must be positive, got {step}"
  else if stop < start then .ok 0
  else
    let count := (stop - start) / step + 1
    if maxGridPoints < count then
      .error (s!"grid of {count} points exceeds the {maxGridPoints} point cap (start {start}, " ++
        s!"stop {stop}, step {step})")
    else .ok count

def validateGridLast (start stop step lookback : Int) : Except String Int :=
  if lookback < 0 then .error s!"lookback must be >= 0, got {lookback}"
  else gridLen start stop step

def validateWindow (start stop step window : Int) : Except String Int :=
  if window ≤ 0 then .error s!"window must be positive, got {window}"
  else gridLen start stop step

/-- As many turns as a grid has points. -/
def gridFuel (start stop step : Int) : Nat :=
  ((stop - start) / step).toNat + 1

/-- One turn of the walk: `k` is one past the last sample that is not behind `t`. -/
def gridLastVisit (samples : List Point) (lookback : Int) (k : Nat) (t : Int) :
    Nat × Option F64 :=
  let k := advance (fun p => p.1 ≤ t) samples k
  let last := if 0 < k then samples[k - 1]? else none
  (k, (last.filter fun p => t - lookback < p.1).map Prod.snd)

/-- The newest sample at each point of the grid, none if the loop does not end. -/
def gridLastWalk (samples : List Point) (start stop step lookback : Int) : Option (List Point) :=
  gridWalk (gridLastVisit samples lookback) stop step (gridFuel start stop step) 0 start

variable (ops : WindowFloats)

/-- One turn of the walk: `lo` is the first sample of the window, `hi` one past its last. -/
def windowOpVisit (samples : List Point) (window : Int) (op : WindowOp) (cursors : Nat × Nat)
    (t : Int) : (Nat × Nat) × Option F64 :=
  let hi := advance (fun p => p.1 ≤ t) samples cursors.2
  let lo := advance (fun p => p.1 ≤ t - window) samples cursors.1
  let value :=
    match (samples.take hi).drop lo with
    | [] => none
    | first :: rest => windowOpValue ops window op first rest
  ((lo, hi), value)

/-- The operation on the window at each point of the grid, none if the loop does not end. -/
def windowOpWalk (samples : List Point) (start stop step window : Int) (op : WindowOp) :
    Option (List Point) :=
  gridWalk (windowOpVisit ops samples window op) stop step (gridFuel start stop step) (0, 0) start

/-! ### What they are for -/

/-- The samples behind `after` and not behind `upto`, in their order. -/
def samplesIn (samples : List Point) (after upto : Int) : List Point :=
  samples.filter fun p => after < p.1 ∧ p.1 ≤ upto

/-- The newest of the samples of the last `lookback` timestamps. -/
def gridLast (samples : List Point) (lookback t : Int) : Option F64 :=
  (samplesIn samples (t - lookback) t).getLast?.map Prod.snd

/-- The operation on the samples of the last `window` timestamps. -/
def windowOpAt (samples : List Point) (window : Int) (op : WindowOp) (t : Int) : Option F64 :=
  match samplesIn samples (t - window) t with
  | [] => none
  | first :: rest => windowOpValue ops window op first rest

/-! ### The walks are what they are for -/

variable {start stop step : Int}

theorem gridLen_eq_ok {n : Int} (h : gridLen start stop step = .ok n) :
    0 < step ∧ n = (gridTimes start stop step).length ∧ n ≤ maxGridPoints := by
  unfold gridLen at h
  dsimp only at h
  split_ifs at h with hstep hempty hcap
  · obtain rfl := Except.ok.inj h
    rw [gridTimes_of_lt (by omega) hempty]
    exact ⟨by omega, rfl, by decide⟩
  · obtain rfl := Except.ok.inj h
    have hpos : 0 ≤ (stop - start) / step := Int.ediv_nonneg (by omega) (by omega)
    refine ⟨by omega, ?_, by omega⟩
    rw [gridTimes, List.length_map, List.length_range]
    omega

theorem gridLen_ne_zero {n : Int} (h : gridLen start stop step = .ok n) (hn : n ≠ 0) :
    start ≤ stop := by
  obtain ⟨hstep, hlen, -⟩ := gridLen_eq_ok h
  by_contra hlt
  rw [gridTimes_of_lt hstep (by omega)] at hlen
  exact hn hlen

section Walks

variable {samples : List Point}

/-- The samples up to a time are an initial stretch of sorted samples. -/
theorem initial_le (hsorted : samples.Pairwise fun p q => p.1 ≤ q.1) (t : Int) :
    Initial (fun p : Point => p.1 ≤ t) samples :=
  hsorted.imp fun hle hq => decide_eq_true (hle.trans (of_decide_eq_true hq))

theorem countP_le_mono (samples : List Point) {t t' : Int} (h : t ≤ t') :
    (samples.countP fun p => p.1 ≤ t) ≤ samples.countP fun p => p.1 ≤ t' :=
  List.countP_mono_left fun _ _ hp => decide_eq_true ((of_decide_eq_true hp).trans h)

/-- The window between two cursors. -/
theorem take_drop_eq (hsorted : samples.Pairwise fun p q => p.1 ≤ q.1) {after upto : Int}
    (h : after ≤ upto) :
    (samples.take (samples.countP fun p => p.1 ≤ upto)).drop
      (samples.countP fun p => p.1 ≤ after) = samplesIn samples after upto := by
  have hcount : (samples.countP fun p => p.1 ≤ after) =
      (samples.filter fun p => p.1 ≤ upto).countP fun p => p.1 ≤ after := by
    rw [List.countP_filter]
    refine List.countP_congr fun p _ => ?_
    simp only [Bool.and_eq_true, decide_eq_true_eq]
    omega
  rw [(initial_le hsorted upto).take, hcount, (initial_le (hsorted.filter _) after).drop,
    List.filter_filter, samplesIn]
  refine List.filter_congr fun p _ => ?_
  rw [Bool.eq_iff_iff]
  simp only [Bool.and_eq_true, Bool.not_eq_true', decide_eq_true_eq, decide_eq_false_iff_not]
  omega

/-- The newest sample of a window is the newest sample up to its end, if that is in the window. -/
theorem getLast?_samplesIn (hsorted : samples.Pairwise fun p q => p.1 ≤ q.1) (after upto : Int) :
    (samplesIn samples after upto).getLast? =
      ((samples.filter fun p => p.1 ≤ upto).getLast?).filter fun p => after < p.1 := by
  rw [← getLast?_filter, List.filter_filter, samplesIn]
  · simp only [Bool.decide_and]
  · refine (hsorted.filter _).imp fun hle hp => ?_
    exact decide_eq_true ((of_decide_eq_true hp).trans_le hle)

/-- **The grid-last walk.** It ends, and at each point of the grid it returns the last sample of the
window in the order of the list. -/
theorem gridLastWalk_eq (hsorted : samples.Pairwise fun p q => p.1 ≤ q.1) (lookback : Int)
    (hstart : InI64 start) (hstop : InI64 stop) (hstep : 0 < step) (hle : start ≤ stop) :
    gridLastWalk samples start stop step lookback =
      some (gridRows (gridLast samples lookback) (gridTimes start stop step)) := by
  refine gridWalk_eq (fun k t => k ≤ samples.countP fun p => p.1 ≤ t) hstep hstop ?_ hstart
    hle (Nat.lt_succ_self _) (Nat.zero_le _)
  intro k t hk
  have hadvance := advance_eq (initial_le hsorted t) hk
  have hcursor : (gridLastVisit samples lookback k t).1 = samples.countP fun p => p.1 ≤ t :=
    hadvance
  refine ⟨?_, fun ht' => hcursor.trans_le (countP_le_mono samples ht')⟩
  simp only [gridLastVisit, hadvance]
  rw [← getLast?_take List.countP_le_length, (initial_le hsorted t).take,
    ← getLast?_samplesIn hsorted, gridLast]

/-- **The window walk.** It ends, and at each point of the grid it applies the operation to the
samples of the window, if there are any. -/
theorem windowOpWalk_eq (hsorted : samples.Pairwise fun p q => p.1 ≤ q.1) {window : Int}
    (op : WindowOp) (hstart : InI64 start) (hstop : InI64 stop) (hstep : 0 < step)
    (hle : start ≤ stop) (hwindow : 0 ≤ window) :
    windowOpWalk ops samples start stop step window op =
      some (gridRows (windowOpAt ops samples window op) (gridTimes start stop step)) := by
  -- neither cursor is past the samples that it has to skip
  refine gridWalk_eq (fun cursors t => (cursors.1 ≤ samples.countP fun p => p.1 ≤ t - window) ∧
    cursors.2 ≤ samples.countP fun p => p.1 ≤ t) hstep hstop ?_ hstart hle (Nat.lt_succ_self _)
    ⟨Nat.zero_le _, Nat.zero_le _⟩
  rintro ⟨lo, hi⟩ t ⟨hlo, hhi⟩
  have hlow := advance_eq (initial_le hsorted (t - window)) hlo
  have hhigh := advance_eq (initial_le hsorted t) hhi
  have hcursors : (windowOpVisit ops samples window op (lo, hi) t).1 =
      (samples.countP fun p => p.1 ≤ t - window, samples.countP fun p => p.1 ≤ t) :=
    Prod.ext hlow hhigh
  refine ⟨?_, fun ht' => ?_⟩
  · simp only [windowOpVisit, hlow, hhigh]
    rw [take_drop_eq hsorted (by omega), windowOpAt]
  · rw [hcursors]
    exact ⟨countP_le_mono samples (by omega), countP_le_mono samples ht'⟩

end Walks

end Timeless.Metrics
