import Timeless.LogsQL.Time

/-!
# TimeFilter — filters on absolute time

A filter such as `_time:>=2026-01-01T00:00:00Z` becomes bounds on native timestamps. The instant is
cut to microseconds and then to the unit of the table, by a division that rounds towards zero; an
open bound moves by one unit; and the time offset of the query moves both bounds, a lower one rounded
up and an upper one rounded down.

So everything depends on how far the instant and the offset are from a whole number of units.
`comparison_iff` says for each comparison exactly when the timestamps admitted are the right ones,
`range_exact` that a range is right when both its bounds are. They are right for every comparison if
both are whole numbers of units. Otherwise a filter may admit a timestamp before the instant it asks
for (`lower_bound_rounds_down`).
-/

namespace Timeless.LogsQL

open Support Codec Blocks

/-- The bounds of a query on native timestamps. -/
structure QuerySpec where
  tsMin : Option Int64
  tsMax : Option Int64
  deriving DecidableEq

/-- No bound. -/
def QuerySpec.default : QuerySpec := ⟨none, none⟩

/-! ### Units -/

/-- Microseconds in the unit of the table, rounded towards zero. -/
def microsToNative (micros : Int64) : TimestampUnit → Int64
  | .milliseconds => micros / 1000
  | .microseconds => micros

/-- Milliseconds in the unit of the table. -/
def durationFromMillis (duration : Int64) : TimestampUnit → Int64
  | .milliseconds => duration
  | .microseconds => .ofIntClamp (duration.toInt * 1000)

/-- The nearest timestamp. -/
def clampNativeTimestamp (timestamp : Int) : Int64 := .ofIntClamp timestamp

/-- A bound without the offset, rounded up. -/
def shiftNativeLowerBound (bound timeOffsetNs : Int64) (unit : TimestampUnit) : Int64 :=
  let shifted := bound.toInt * timestampUnitNanoseconds unit - timeOffsetNs.toInt
  let floor := shifted / timestampUnitNanoseconds unit
  let ceiling := floor + if shifted % timestampUnitNanoseconds unit ≠ 0 then 1 else 0
  clampNativeTimestamp ceiling

/-- A bound without the offset, rounded down. -/
def shiftNativeUpperBound (bound timeOffsetNs : Int64) (unit : TimestampUnit) : Int64 :=
  let shifted := bound.toInt * timestampUnitNanoseconds unit - timeOffsetNs.toInt
  clampNativeTimestamp (shifted / timestampUnitNanoseconds unit)

/-- The bounds that the stored times have to be within. -/
def applyQueryTimeOffset (spec : QuerySpec) (timeOffsetNs : Int64) (unit : TimestampUnit) :
    QuerySpec where
  tsMin := spec.tsMin.map fun bound => shiftNativeLowerBound bound timeOffsetNs unit
  tsMax := spec.tsMax.map fun bound => shiftNativeUpperBound bound timeOffsetNs unit

/-! ### Parsing -/

/-- A decimal number with an optional sign. -/
def parseI64 (t : Text) : Option Int64 :=
  let digits : Text := match t with
    | '-' :: rest => rest
    | '+' :: rest => rest
    | _ => t
  let magnitude : Int := digits.foldl (fun n ch => 10 * n + (ch.toNat - 48 : Nat)) 0
  let value := if t.head? = some '-' then -magnitude else magnitude
  if digits ≠ [] ∧ digits.all Char.isDigit ∧ Int64.minValue.toInt ≤ value ∧
      value ≤ Int64.maxValue.toInt then
    some (.ofInt value)
  else none

/-- A number of seconds, or of a smaller unit if it is large. -/
def normalizeIntegerTime (timestamp : Int64) (unit : TimestampUnit) : Int64 :=
  let magnitude := timestamp.toInt.natAbs
  let micros :=
    if magnitude < 100000000000 then .ofIntClamp (timestamp.toInt * 1000000)
    else if magnitude < 100000000000000 then .ofIntClamp (timestamp.toInt * 1000)
    else if magnitude < 100000000000000000 then timestamp
    else timestamp / 1000
  microsToNative micros unit

/-- The reader of RFC 3339 texts: the instant in nanoseconds, or an error. -/
structure Rfc3339 where
  parse : Text → Except String Int
  /-- a date comes first, and a year has four digits -/
  starts : ∀ t i, parse t = .ok i → ∃ ch rest, t = ch :: rest ∧ ch.isDigit = true
  noInteger : ∀ t i, parse t = .ok i → parseI64 t = none
  noComma : ∀ t i, parse t = .ok i → ',' ∉ t
  bounded : ∀ t i, parse t = .ok i → -100000000000000000000 ≤ i ∧ i ≤ 300000000000000000000

variable (rfc : Rfc3339)

/-- The microseconds of an instant, rounded down. -/
def timestampMicros (i : Int) : Int64 := .ofInt (i / 1000)

/-- A number or an RFC 3339 time. -/
def parseAbsoluteTime (value : Text) (unit : TimestampUnit) : Except String Int64 := do
  rejectIf (value = []) "LogsQL absolute time bound must not be empty"
  match parseI64 value with
  | some n => return normalizeIntegerTime n unit
  | none =>
      let shown := shownKey value
      let i ← (rfc.parse value).mapError fun err =>
        s!"invalid LogsQL absolute time {shown}: {err}"
      return microsToNative (timestampMicros i) unit

/-- Both bounds hold; an empty range is refused. -/
def tightenTimeBounds (spec : QuerySpec) (lower upper : Option Int64) : Except String QuerySpec :=
  let tsMin := match lower with
    | some lower => some ((spec.tsMin.map (max · lower)).getD lower)
    | none => spec.tsMin
  let tsMax := match upper with
    | some upper => some ((spec.tsMax.map (min · upper)).getD upper)
    | none => spec.tsMax
  match tsMin, tsMax with
  | some lower, some upper =>
      if lower > upper then .error "LogsQL time range has no representable timestamps"
      else .ok ⟨tsMin, tsMax⟩
  | _, _ => .ok ⟨tsMin, tsMax⟩

/-- Addition that may fail. -/
def checkedAdd (a b : Int64) : Option Int64 :=
  if a.toInt + b.toInt ≤ Int64.maxValue.toInt ∧ Int64.minValue.toInt ≤ a.toInt + b.toInt then
    some (a + b)
  else none

/-- A bound that is not included is moved by one unit. -/
def moveLower (inclusive : Bool) (bound : Int64) : Except String Int64 :=
  if inclusive then .ok bound
  else okOr (checkedAdd bound 1) "exclusive LogsQL lower time bound overflows"

/-- An upper bound that is not included itself. -/
def moveUpper (inclusive : Bool) (bound : Int64) : Except String Int64 :=
  if inclusive then .ok bound
  else okOr (checkedAdd bound (-1)) "exclusive LogsQL upper time bound underflows"

/-- A number and a unit. -/
def parseDurationMs (value : Text) : Option Int64 := do
  let suffix := value.dropWhile Char.isDigit
  if suffix = [] then none
  else do
    let count ← parseI64 (value.takeWhile Char.isDigit)
    let multiplier : Int ←
      if suffix = ['s'] then some 1000
      else if suffix = ['m'] then some 60000
      else if suffix = ['h'] then some 3600000
      else if suffix = ['d'] then some 86400000
      else none
    let product := count.toInt * multiplier
    if Int64.minValue.toInt ≤ product ∧ product ≤ Int64.maxValue.toInt then some (.ofInt product)
    else none

/-- `_time:[start,end]`, with brackets of either kind. -/
def applyTimeRange (spec : QuerySpec) (value : Text) (unit : TimestampUnit) :
    Except String QuerySpec := do
  let shown := shownKey value
  rejectIf (value.getLast? ≠ some ']' ∧ value.getLast? ≠ some ')')
    s!"unterminated LogsQL time range {shown}"
  let bounds ← okOr (splitOnce ',' value.tail.dropLast)
    s!"LogsQL time range requires two bounds: {shown}"
  let start ← parseAbsoluteTime rfc (trim bounds.1) unit
  let stop ← parseAbsoluteTime rfc (trim bounds.2) unit
  let start ← moveLower (value.head? == some '[') start
  let stop ← moveUpper (value.getLast? == some ']') stop
  tightenTimeBounds spec (some start) (some stop)

/-- How a time is compared. -/
inductive Comparison where
  | ge
  | le
  | gt
  | lt
  deriving DecidableEq

namespace Comparison

/-- As it is written. -/
def symbol : Comparison → Text
  | ge => ['>', '=']
  | le => ['<', '=']
  | gt => ['>']
  | lt => ['<']

/-- Does it bound times from below? -/
def isLower : Comparison → Bool
  | ge => true
  | gt => true
  | _ => false

/-- Is the time itself included? -/
def inclusive : Comparison → Bool
  | ge => true
  | le => true
  | _ => false

end Comparison

/-- `_time:>=bound` and its like. -/
def applyComparison (spec : QuerySpec) (cmp : Comparison) (bound : Text) (unit : TimestampUnit) :
    Except String QuerySpec := do
  let bound ← parseAbsoluteTime rfc (trim bound) unit
  if cmp.isLower then do
    let bound ← moveLower cmp.inclusive bound
    tightenTimeBounds spec (some bound) none
  else do
    let bound ← moveUpper cmp.inclusive bound
    tightenTimeBounds spec none (some bound)

/-- `_time:5m`, the time before the query. -/
def applyWindow (spec : QuerySpec) (value : Text) (unit : TimestampUnit) (queryNow : Int64) :
    Except String QuerySpec := do
  let shown := shownKey value
  let durationMs ← okOr (parseDurationMs value) s!"unsupported LogsQL time window {shown}"
  let upper ← okOr (checkedAdd queryNow (-1)) "relative LogsQL upper time bound underflows"
  if durationMs = 0 then return ⟨some queryNow, some upper⟩
  else
    let lower := .ofIntClamp (queryNow.toInt - (durationFromMillis durationMs unit).toInt)
    tightenTimeBounds spec (some lower) (some upper)

/-- The bounds of a `_time` filter. -/
def applyTimeFilter (spec : QuerySpec) (value : Text) (unit : TimestampUnit) (queryNow : Int64) :
    Except String QuerySpec :=
  if value.head? = some '[' ∨ value.head? = some '(' then applyTimeRange rfc spec value unit
  else
    -- the first symbol that the text starts with
    match [Comparison.ge, .le, .gt, .lt].find? fun cmp => cmp.symbol.isPrefixOf value with
    | some cmp => applyComparison rfc spec cmp (value.drop cmp.symbol.length) unit
    | none => applyWindow spec value unit queryNow

variable {rfc}

/-! ### Bounds in nanoseconds -/

/-- Whether a timestamp is within the bounds. -/
def QuerySpec.Admits (spec : QuerySpec) (ts : Int64) : Prop :=
  (∀ lower ∈ spec.tsMin, lower ≤ ts) ∧ ∀ upper ∈ spec.tsMax, ts ≤ upper

/-- Far from the ends of the type, so that nothing is clamped. -/
def Moderate (n : Int) : Prop := -1000000000000000000 ≤ n ∧ n ≤ 1000000000000000000

variable {unit : TimestampUnit} {i : Int} {t : Text} {bound : Int64}

/-- A lower bound is moved exactly. -/
theorem shiftNativeLowerBound_le (hbound : Moderate bound.toInt) (offset : Int64)
    (unit : TimestampUnit) (ts : Int64) :
    shiftNativeLowerBound bound offset unit ≤ ts ↔
      bound.toInt * timestampUnitNanoseconds unit ≤ instant unit ts + offset.toInt := by
  have hlow := Int64.minValue_le_toInt offset
  have hhigh := Int64.toInt_le offset
  have hmin : Int64.minValue.toInt = -9223372036854775808 := rfl
  have hmax : Int64.maxValue.toInt = 9223372036854775807 := rfl
  obtain ⟨hb, hb'⟩ := hbound
  rw [Int64.le_iff_toInt_le, shiftNativeLowerBound, clampNativeTimestamp, instant]
  cases unit with
  | milliseconds =>
      rw [timestampUnitNanoseconds] at *
      rw [Int64.toInt_ofIntClamp]
      · split_ifs <;> omega
      · split_ifs <;> omega
      · split_ifs <;> omega
  | microseconds =>
      rw [timestampUnitNanoseconds] at *
      rw [Int64.toInt_ofIntClamp]
      · split_ifs <;> omega
      · split_ifs <;> omega
      · split_ifs <;> omega

theorem le_shiftNativeUpperBound (hbound : Moderate bound.toInt) (offset : Int64)
    (unit : TimestampUnit) (ts : Int64) :
    ts ≤ shiftNativeUpperBound bound offset unit ↔
      instant unit ts + offset.toInt ≤ bound.toInt * timestampUnitNanoseconds unit := by
  have hlow := Int64.minValue_le_toInt offset
  have hhigh := Int64.toInt_le offset
  have hmin : Int64.minValue.toInt = -9223372036854775808 := rfl
  have hmax : Int64.maxValue.toInt = 9223372036854775807 := rfl
  obtain ⟨hb, hb'⟩ := hbound
  rw [Int64.le_iff_toInt_le, shiftNativeUpperBound, clampNativeTimestamp, instant]
  cases unit with
  | milliseconds =>
      rw [timestampUnitNanoseconds] at *
      rw [Int64.toInt_ofIntClamp] <;> omega
  | microseconds =>
      rw [timestampUnitNanoseconds] at *
      rw [Int64.toInt_ofIntClamp] <;> omega

/-! ### The native bound of an instant -/

/-- Milliseconds before the epoch are rounded up: the microseconds are negative and not whole
milliseconds. -/
def RoundsUp (i : Int) : TimestampUnit → Prop
  | .milliseconds => i / 1000 < 0 ∧ (i / 1000) % 1000 ≠ 0
  | .microseconds => False

instance (i : Int) : (unit : TimestampUnit) → Decidable (RoundsUp i unit)
  | .milliseconds => inferInstanceAs (Decidable (i / 1000 < 0 ∧ (i / 1000) % 1000 ≠ 0))
  | .microseconds => inferInstanceAs (Decidable False)

/-- What an instant is rounded to. -/
def nativeBound (i : Int) (unit : TimestampUnit) : Int :=
  i / timestampUnitNanoseconds unit + if RoundsUp i unit then 1 else 0

theorem RoundsUp.milliseconds (h : RoundsUp i unit) : unit = .milliseconds ∧ (i / 1000) % 1000 ≠ 0 := by
  cases unit with
  | milliseconds => exact ⟨rfl, h.2⟩
  | microseconds => exact h.elim

theorem toInt_microsToNative (hlow : -100000000000000000000 ≤ i) (hhigh : i ≤ 300000000000000000000)
    (unit : TimestampUnit) :
    (microsToNative (timestampMicros i) unit).toInt = nativeBound i unit := by
  have hmicros : (timestampMicros i).toInt = i / 1000 := by
    rw [timestampMicros, Int64.toInt_ofInt_of_le] <;> omega
  cases unit with
  | milliseconds =>
      have hthousand : (1000 : Int64).toInt = 1000 := rfl
      have hsign : Int.sign 1000 = 1 := rfl
      rw [microsToNative, Int64.toInt_div_of_ne_right _ _ (by decide), hmicros, hthousand,
        nativeBound, timestampUnitNanoseconds, Int.tdiv_eq_ediv]
      simp only [RoundsUp]
      split_ifs <;> omega
  | microseconds =>
      rw [microsToNative, hmicros, nativeBound, timestampUnitNanoseconds, if_neg (by simp [RoundsUp]),
        Int.add_zero]

theorem moderate_nativeBound (hlow : -100000000000000000000 ≤ i) (hhigh : i ≤ 300000000000000000000)
    (unit : TimestampUnit) :
    -200000000000000000 ≤ nativeBound i unit ∧ nativeBound i unit ≤ 400000000000000000 := by
  rw [nativeBound]
  cases unit with
  | milliseconds =>
      rw [timestampUnitNanoseconds]
      split_ifs <;> omega
  | microseconds =>
      rw [timestampUnitNanoseconds]
      split_ifs <;> omega

/-! ### Comparisons -/

namespace Comparison

/-- What a comparison asks for. -/
def Holds (x i : Int) : Comparison → Prop
  | ge => i ≤ x
  | le => x ≤ i
  | gt => i < x
  | lt => x < i

/-- What the bound of a comparison asks for, in nanoseconds. -/
def Coded (x i : Int) (unit : TimestampUnit) : Comparison → Prop
  | ge => nativeBound i unit * timestampUnitNanoseconds unit ≤ x
  | le => x ≤ nativeBound i unit * timestampUnitNanoseconds unit
  | gt => (nativeBound i unit + 1) * timestampUnitNanoseconds unit ≤ x
  | lt => x ≤ (nativeBound i unit - 1) * timestampUnitNanoseconds unit

/-- How the parts of a unit that the instant and the offset leave over must compare. -/
def Exact (i offset : Int) (unit : TimestampUnit) (cmp : Comparison) : Prop :=
  let fraction := i % timestampUnitNanoseconds unit
  let rest := offset % timestampUnitNanoseconds unit
  if RoundsUp i unit then
    match cmp with
    | ge => rest < fraction
    | le => 0 < rest ∧ rest ≤ fraction
    | gt => False
    | lt => rest = 0 ∨ fraction ≤ rest
  else
    match cmp with
    | ge => fraction ≤ rest
    | le => rest = 0 ∨ fraction < rest
    | gt => rest ≤ fraction
    | lt => rest = 0 ∧ fraction = 0

variable {i offset : Int}

/-- Whole units are always compared right. -/
theorem exact_of_whole (hi : i % timestampUnitNanoseconds unit = 0)
    (hoffset : offset % timestampUnitNanoseconds unit = 0) (cmp : Comparison) :
    cmp.Exact i offset unit := by
  have hdown : ¬RoundsUp i unit := by
    cases unit with
    | milliseconds =>
        rw [timestampUnitNanoseconds] at hi
        simp only [RoundsUp]
        omega
    | microseconds => exact id
  cases cmp <;> simp [Exact, hi, hoffset, hdown]

/-- In units, a timestamp is some number of units after the instant, apart from what the instant and
the offset leave over; only the timestamps at most one unit away matter. -/
theorem coded_iff_holds {cmp : Comparison} (h : cmp.Exact i offset unit) (ts : Int) :
    cmp.Coded (ts * timestampUnitNanoseconds unit + offset) i unit ↔
      cmp.Holds (ts * timestampUnitNanoseconds unit + offset) i := by
  by_cases hup : RoundsUp i unit
  · obtain ⟨rfl, hpart⟩ := hup.milliseconds
    cases cmp <;>
      simp only [Exact, Coded, Holds, nativeBound, timestampUnitNanoseconds, hup, if_true] at h ⊢ <;>
      omega
  · cases unit <;> cases cmp <;>
      simp only [Exact, Coded, Holds, nativeBound, timestampUnitNanoseconds, hup, if_false] at h ⊢ <;>
      omega

/-- The timestamp that is `k` units after the instant. -/
def after (i offset : Int) (unit : TimestampUnit) (k : Int) : Int :=
  i / timestampUnitNanoseconds unit - offset / timestampUnitNanoseconds unit + k

theorem exact_of_coded {cmp : Comparison} (h : ∀ k, -1 ≤ k → k ≤ 1 →
      (cmp.Coded (after i offset unit k * timestampUnitNanoseconds unit + offset) i unit ↔
        cmp.Holds (after i offset unit k * timestampUnitNanoseconds unit + offset) i)) :
    cmp.Exact i offset unit := by
  have hbefore := h (-1) (by decide) (by decide)
  have hat := h 0 (by decide) (by decide)
  have hafter := h 1 (by decide) (by decide)
  by_cases hup : RoundsUp i unit
  · obtain ⟨rfl, hpart⟩ := hup.milliseconds
    cases cmp <;>
      simp only [Exact, Coded, Holds, after, nativeBound, timestampUnitNanoseconds, hup, if_true]
        at hbefore hat hafter ⊢ <;>
      omega
  · cases unit <;> cases cmp <;>
      simp only [Exact, Coded, Holds, after, nativeBound, timestampUnitNanoseconds, hup, if_false]
        at hbefore hat hafter ⊢ <;>
      omega

end Comparison

/-! ### Filters -/

variable (rfc : Rfc3339)

theorem Rfc3339.bound_eq (h : rfc.parse (trim t) = .ok i) (unit : TimestampUnit) :
    ∃ bound, parseAbsoluteTime rfc (trim t) unit = .ok bound ∧ bound.toInt = nativeBound i unit ∧
      -200000000000000000 ≤ bound.toInt ∧ bound.toInt ≤ 400000000000000000 := by
  obtain ⟨hlow, hhigh⟩ := rfc.bounded _ _ h
  have hbound := toInt_microsToNative hlow hhigh unit
  refine ⟨_, ?_, hbound, hbound ▸ moderate_nativeBound hlow hhigh unit⟩
  obtain ⟨ch, rest, htext, -⟩ := rfc.starts _ _ h
  rw [parseAbsoluteTime, rejectIf, if_neg (by simp [htext]), pure_bind, rfc.noInteger _ _ h, h]
  rfl

/-- The first character of an instant is not that of a longer symbol. -/
theorem Rfc3339.head_ne (h : rfc.parse (trim t) = .ok i) :
    t.head? ≠ some '=' := by
  intro hhead
  obtain ⟨rest, rfl⟩ : ∃ rest, t = '=' :: rest := by
    cases t with
    | nil => cases hhead
    | cons ch rest => exact ⟨rest, by rw [Option.some.inj hhead]⟩
  obtain ⟨rest', htrim⟩ := trim_cons (show isWhiteSpace '=' = false by decide) rest
  obtain ⟨ch, rest'', htext, hdigit⟩ := rfc.starts _ _ h
  rw [htrim] at htext
  obtain ⟨rfl, -⟩ := List.cons.inj htext
  exact absurd hdigit (by decide)

/-- The text of a comparison is read as that comparison. -/
theorem applyTimeFilter_symbol (h : rfc.parse (trim t) = .ok i) (spec : QuerySpec)
    (cmp : Comparison) (unit : TimestampUnit) (now : Int64) :
    applyTimeFilter rfc spec (cmp.symbol ++ t) unit now =
      applyComparison rfc spec cmp t unit := by
  have hlonger : ['='].isPrefixOf t = false := by
    have hhead := rfc.head_ne h
    cases t with
    | nil => rfl
    | cons ch rest =>
        have hne : '=' ≠ ch := fun heq => hhead (by rw [heq]; rfl)
        rw [List.isPrefixOf, beq_eq_false_iff_ne.mpr hne, Bool.false_and]
  have hpicked : [Comparison.ge, .le, .gt, .lt].find?
      (fun other => other.symbol.isPrefixOf (cmp.symbol ++ t)) = some cmp := by
    cases cmp <;> simp [Comparison.symbol, hlonger]
  have hrest : (cmp.symbol ++ t).drop cmp.symbol.length = t := List.drop_left
  rw [applyTimeFilter, if_neg (by cases cmp <;> simp [Comparison.symbol]), hpicked]
  simp only [hrest]

/-- A bound far from the ends of the type can be moved by one unit. -/
theorem checkedAdd_moderate (hbound : Moderate bound.toInt) {step : Int64}
    (hstep : step.toInt = 1 ∨ step.toInt = -1) :
    checkedAdd bound step = some (bound + step) ∧
      (bound + step).toInt = bound.toInt + step.toInt := by
  obtain ⟨hlow, hhigh⟩ := hbound
  have hmin : Int64.minValue.toInt = -9223372036854775808 := rfl
  have hmax : Int64.maxValue.toInt = 9223372036854775807 := rfl
  constructor
  · rw [checkedAdd, if_pos (by omega)]
  · rw [Int64.toInt_add, Int.bmod_eq_of_le] <;> omega

theorem moveLower_ok (hbound : Moderate bound.toInt) (inclusive : Bool) :
    ∃ moved, moveLower inclusive bound = .ok moved ∧
      moved.toInt = bound.toInt + if inclusive then 0 else 1 := by
  cases inclusive with
  | true => exact ⟨bound, rfl, by simp⟩
  | false =>
      obtain ⟨hadd, hmoved⟩ := checkedAdd_moderate hbound (.inl (rfl : (1 : Int64).toInt = 1))
      exact ⟨bound + 1, by rw [moveLower, if_neg (by decide), hadd, okOr], hmoved⟩

theorem moveUpper_ok (hbound : Moderate bound.toInt) (inclusive : Bool) :
    ∃ moved, moveUpper inclusive bound = .ok moved ∧
      moved.toInt = bound.toInt - if inclusive then 0 else 1 := by
  cases inclusive with
  | true => exact ⟨bound, rfl, by simp⟩
  | false =>
      obtain ⟨hadd, hmoved⟩ := checkedAdd_moderate hbound (.inr (rfl : (-1 : Int64).toInt = -1))
      exact ⟨bound + -1, by rw [moveUpper, if_neg (by decide), hadd, okOr], hmoved⟩

namespace Comparison

/-- A bound of its kind: the comparison that a bracket stands for. -/
def lower : Bool → Comparison
  | true => ge
  | false => gt

/-- The comparison that a closing bracket stands for. -/
def upper : Bool → Comparison
  | true => le
  | false => lt

end Comparison

/-- The lower bound of an instant, moved and shifted, is what the code compares with. -/
theorem lowerBound_coded (h : rfc.parse (trim t) = .ok i) (unit : TimestampUnit) (inclusive : Bool) :
    ∃ bound moved : Int64,
      parseAbsoluteTime rfc (trim t) unit = .ok bound ∧ moveLower inclusive bound = .ok moved ∧
      Moderate moved.toInt ∧ ∀ (offset ts : Int64), shiftNativeLowerBound moved offset unit ≤ ts ↔
        (Comparison.lower inclusive).Coded (instant unit ts + offset.toInt) i unit := by
  obtain ⟨bound, hparsed, hbound, hbelow, habove⟩ := rfc.bound_eq h unit
  have hwithin : Moderate bound.toInt := ⟨by omega, by omega⟩
  obtain ⟨moved, hmove, hmoved⟩ := moveLower_ok hwithin inclusive
  have hmoderate : Moderate moved.toInt := by
    rw [hmoved]
    constructor <;> split_ifs <;> omega
  refine ⟨bound, moved, hparsed, hmove, hmoderate, fun offset ts => ?_⟩
  rw [shiftNativeLowerBound_le hmoderate, hmoved, hbound]
  cases inclusive <;> simp [Comparison.lower, Comparison.Coded]

theorem upperBound_coded (h : rfc.parse (trim t) = .ok i) (unit : TimestampUnit) (inclusive : Bool) :
    ∃ bound moved : Int64,
      parseAbsoluteTime rfc (trim t) unit = .ok bound ∧ moveUpper inclusive bound = .ok moved ∧
      Moderate moved.toInt ∧ ∀ (offset ts : Int64), ts ≤ shiftNativeUpperBound moved offset unit ↔
        (Comparison.upper inclusive).Coded (instant unit ts + offset.toInt) i unit := by
  obtain ⟨bound, hparsed, hbound, hbelow, habove⟩ := rfc.bound_eq h unit
  have hwithin : Moderate bound.toInt := ⟨by omega, by omega⟩
  obtain ⟨moved, hmove, hmoved⟩ := moveUpper_ok hwithin inclusive
  have hmoderate : Moderate moved.toInt := by
    rw [hmoved]
    constructor <;> split_ifs <;> omega
  refine ⟨bound, moved, hparsed, hmove, hmoderate, fun offset ts => ?_⟩
  rw [le_shiftNativeUpperBound hmoderate, hmoved, hbound]
  cases inclusive <;> simp [Comparison.upper, Comparison.Coded]

/-- A comparison is accepted, and admits what its bound admits. -/
theorem comparison_coded (h : rfc.parse (trim t) = .ok i) (cmp : Comparison) (unit : TimestampUnit)
    (now : Int64) :
    ∃ spec, applyTimeFilter rfc .default (cmp.symbol ++ t) unit now = .ok spec ∧
      ∀ (offset ts : Int64), (applyQueryTimeOffset spec offset unit).Admits ts ↔
        cmp.Coded (instant unit ts + offset.toInt) i unit := by
  rw [applyTimeFilter_symbol rfc h, applyComparison]
  cases hlower : cmp.isLower with
  | true =>
      obtain ⟨bound, moved, hparsed, hmove, -, hcoded⟩ :=
        lowerBound_coded rfc h unit cmp.inclusive
      have hkind : Comparison.lower cmp.inclusive = cmp := by cases cmp <;> first | rfl | cases hlower
      refine ⟨⟨some moved, none⟩, ?_, fun offset ts => ?_⟩
      · rw [hparsed, ok_bind, if_pos rfl, hmove]
        rfl
      · rw [hkind] at hcoded
        rw [← hcoded]
        simp [applyQueryTimeOffset, QuerySpec.Admits]
  | false =>
      obtain ⟨bound, moved, hparsed, hmove, -, hcoded⟩ :=
        upperBound_coded rfc h unit cmp.inclusive
      have hkind : Comparison.upper cmp.inclusive = cmp := by cases cmp <;> first | rfl | cases hlower
      refine ⟨⟨none, some moved⟩, ?_, fun offset ts => ?_⟩
      · rw [hparsed, ok_bind, if_neg (by decide), hmove]
        rfl
      · rw [hkind] at hcoded
        rw [← hcoded]
        simp [applyQueryTimeOffset, QuerySpec.Admits]

/-- The text of a range. -/
def rangeText (closedStart closedEnd : Bool) (start stop : Text) : Text :=
  (if closedStart then '[' else '(') :: (start ++ ',' :: stop) ++ [if closedEnd then ']' else ')']

theorem splitOnce_append {sep : Char} {a : Text} (h : sep ∉ a) (b : Text) :
    splitOnce sep (a ++ sep :: b) = some (a, b) := by
  have hkeep : ∀ ch ∈ a, decide (ch ≠ sep) = true := fun ch hch =>
    decide_eq_true fun heq => h (heq ▸ hch)
  rw [splitOnce, List.dropWhile_append_of_pos hkeep, List.takeWhile_append_of_pos hkeep]
  simp

/-- A range admits what both its bounds admit. One without timestamps is refused. -/
theorem range_coded {a b : Text} {j : Int} (ha : rfc.parse (trim a) = .ok i)
    (hb : rfc.parse (trim b) = .ok j) (closedStart closedEnd : Bool) (unit : TimestampUnit)
    (now offset ts : Int64) :
    (∃ spec, applyTimeFilter rfc .default (rangeText closedStart closedEnd a b) unit now = .ok spec ∧
      (applyQueryTimeOffset spec offset unit).Admits ts) ↔
    (Comparison.lower closedStart).Coded (instant unit ts + offset.toInt) i unit ∧
      (Comparison.upper closedEnd).Coded (instant unit ts + offset.toInt) j unit := by
  obtain ⟨start, lower, hstart, hlower, hlowerOk, hlowerCoded⟩ :=
    lowerBound_coded rfc ha unit closedStart
  obtain ⟨stop, upper, hstop, hupper, hupperOk, hupperCoded⟩ :=
    upperBound_coded rfc hb unit closedEnd
  have hcomma : ',' ∉ a := fun hmem =>
    rfc.noComma _ _ ha ((mem_trim (by decide)).mpr hmem)
  have hread : applyTimeFilter rfc .default (rangeText closedStart closedEnd a b) unit now =
      tightenTimeBounds .default (some lower) (some upper) := by
    have hlast : (rangeText closedStart closedEnd a b).getLast? =
        some (if closedEnd then ']' else ')') := List.getLast?_concat
    have hinner : (rangeText closedStart closedEnd a b).tail.dropLast = a ++ ',' :: b := by
      rw [rangeText, List.cons_append, List.tail_cons, List.dropLast_concat]
    rw [applyTimeFilter, if_pos (by cases closedStart <;> simp [rangeText]), applyTimeRange, rejectIf,
      if_neg (by rw [hlast]; cases closedEnd <;> simp), pure_bind, hinner, splitOnce_append hcomma,
      okOr, ok_bind, hstart, ok_bind, hstop, ok_bind, hlast]
    have hopen : ((rangeText closedStart closedEnd a b).head? == some '[') = closedStart := by
      cases closedStart <;> rfl
    have hclose : (some (if closedEnd = true then ']' else ')') == some ']') = closedEnd := by
      cases closedEnd <;> rfl
    rw [hopen, hclose, hlower, ok_bind, hupper, ok_bind]
  rw [hread, ← hlowerCoded, ← hupperCoded]
  have htight : tightenTimeBounds .default (some lower) (some upper) =
      if lower > upper then .error "LogsQL time range has no representable timestamps"
      else .ok ⟨some lower, some upper⟩ := rfl
  rw [htight]
  split_ifs with hempty
  · -- the bounds are the wrong way round, so nothing is between them
    constructor
    · rintro ⟨_, hspec, _⟩
      cases hspec
    · rintro ⟨hlow, hhigh⟩
      rw [shiftNativeLowerBound_le hlowerOk] at hlow
      rw [le_shiftNativeUpperBound hupperOk] at hhigh
      have hless : upper.toInt < lower.toInt := Int64.lt_iff_toInt_lt.mp hempty
      cases unit <;> simp only [timestampUnitNanoseconds] at hlow hhigh <;> omega
  · simp [applyQueryTimeOffset, QuerySpec.Admits]

/-- The timestamps next to an instant are representable. -/
theorem after_toInt (h : rfc.parse t = .ok i) (offset : Int64) (unit : TimestampUnit) {k : Int}
    (hlow : -1 ≤ k) (hhigh : k ≤ 1) :
    ∃ ts : Int64, instant unit ts =
      Comparison.after i offset.toInt unit k * timestampUnitNanoseconds unit := by
  obtain ⟨hbelow, habove⟩ := rfc.bounded _ _ h
  have hmin := Int64.minValue_le_toInt offset
  have hmax := Int64.toInt_le offset
  have hfirst : Int64.minValue.toInt = -9223372036854775808 := rfl
  have hlast : Int64.maxValue.toInt = 9223372036854775807 := rfl
  refine ⟨.ofInt (Comparison.after i offset.toInt unit k), ?_⟩
  rw [instant, Int64.toInt_ofInt_of_le]
  all_goals cases unit <;> simp only [Comparison.after, timestampUnitNanoseconds] <;> omega

/-- If the admitted timestamps are the right ones next to the instant, the comparison is exact. -/
theorem exact_of_right (h : rfc.parse t = .ok i) {cmp : Comparison} {offset : Int64}
    (hright : ∀ ts : Int64, ∀ k, -1 ≤ k → k ≤ 1 →
      instant unit ts = Comparison.after i offset.toInt unit k * timestampUnitNanoseconds unit →
      (cmp.Coded (instant unit ts + offset.toInt) i unit ↔
        cmp.Holds (instant unit ts + offset.toInt) i)) : cmp.Exact i offset.toInt unit := by
  refine Comparison.exact_of_coded fun k hlow hhigh => ?_
  obtain ⟨ts, hts⟩ := after_toInt rfc h offset unit hlow hhigh
  have hthis := hright ts k hlow hhigh hts
  rwa [hts] at hthis

/-- Two units away from its instant a bound is right. -/
theorem Comparison.upper_of_far {x : Int} (h : x + 2 * timestampUnitNanoseconds unit ≤ i)
    (closed : Bool) :
    (Comparison.upper closed).Coded x i unit ∧ (Comparison.upper closed).Holds x i := by
  cases unit <;> cases closed <;>
    simp only [Comparison.upper, Coded, Holds, nativeBound, timestampUnitNanoseconds] at h ⊢ <;>
    split_ifs <;> omega

theorem Comparison.lower_of_far {x : Int} (h : i + 2 * timestampUnitNanoseconds unit ≤ x)
    (closed : Bool) :
    (Comparison.lower closed).Coded x i unit ∧ (Comparison.lower closed).Holds x i := by
  cases unit <;> cases closed <;>
    simp only [Comparison.lower, Coded, Holds, nativeBound, timestampUnitNanoseconds] at h ⊢ <;>
    split_ifs <;> omega

/-- A timestamp next to an instant is at most two units away from it. -/
theorem near_instant (i offset : Int) (unit : TimestampUnit) {k : Int} (hlow : -1 ≤ k) (hhigh : k ≤ 1) :
    i - 2 * timestampUnitNanoseconds unit ≤
        Comparison.after i offset unit k * timestampUnitNanoseconds unit + offset ∧
      Comparison.after i offset unit k * timestampUnitNanoseconds unit + offset ≤
        i + 2 * timestampUnitNanoseconds unit := by
  cases unit <;> simp only [Comparison.after, timestampUnitNanoseconds] <;> omega

/-- A comparison admits what it says exactly if its bound is `Exact`. -/
theorem comparison_iff (h : rfc.parse (trim t) = .ok i) (cmp : Comparison) (unit : TimestampUnit)
    (now offset : Int64) :
    ∃ spec, applyTimeFilter rfc .default (cmp.symbol ++ t) unit now = .ok spec ∧
      ((∀ ts : Int64, (applyQueryTimeOffset spec offset unit).Admits ts ↔
        cmp.Holds (instant unit ts + offset.toInt) i) ↔ cmp.Exact i offset.toInt unit) := by
  obtain ⟨spec, hspec, hcoded⟩ := comparison_coded rfc h cmp unit now
  refine ⟨spec, hspec, fun hright => ?_, fun hexact ts => ?_⟩
  · exact exact_of_right rfc h fun ts _ _ _ _ => by rw [← hcoded, hright]
  · rw [hcoded]
    exact Comparison.coded_iff_holds hexact ts.toInt

section Range

variable {a b : Text} {i j : Int} {closedStart closedEnd : Bool} {unit : TimestampUnit}
  {now offset : Int64}

/-- A range with exact bounds admits what is between them. -/
theorem range_exact (ha : rfc.parse (trim a) = .ok i) (hb : rfc.parse (trim b) = .ok j)
    (hlower : (Comparison.lower closedStart).Exact i offset.toInt unit)
    (hupper : (Comparison.upper closedEnd).Exact j offset.toInt unit) (ts : Int64) :
    (∃ spec, applyTimeFilter rfc .default (rangeText closedStart closedEnd a b) unit now = .ok spec ∧
      (applyQueryTimeOffset spec offset unit).Admits ts) ↔
    (Comparison.lower closedStart).Holds (instant unit ts + offset.toInt) i ∧
      (Comparison.upper closedEnd).Holds (instant unit ts + offset.toInt) j := by
  rw [range_coded rfc ha hb]
  exact and_congr (Comparison.coded_iff_holds hlower ts.toInt)
    (Comparison.coded_iff_holds hupper ts.toInt)

/-- Next to one instant of a range the other bound plays no part, if it is far enough away. -/
theorem exact_of_range (ha : rfc.parse (trim a) = .ok i) (hb : rfc.parse (trim b) = .ok j)
    (hfar : i + 4 * timestampUnitNanoseconds unit ≤ j) (hright : ∀ ts : Int64,
      (∃ spec, applyTimeFilter rfc .default (rangeText closedStart closedEnd a b) unit now = .ok spec ∧
        (applyQueryTimeOffset spec offset unit).Admits ts) ↔
      (Comparison.lower closedStart).Holds (instant unit ts + offset.toInt) i ∧
        (Comparison.upper closedEnd).Holds (instant unit ts + offset.toInt) j) :
    (Comparison.lower closedStart).Exact i offset.toInt unit ∧
      (Comparison.upper closedEnd).Exact j offset.toInt unit := by
  constructor
  · refine exact_of_right rfc ha fun ts k hlow hhigh hts => ?_
    have hnear := (near_instant i offset.toInt unit hlow hhigh).2
    rw [← hts] at hnear
    obtain ⟨hcoded, hholds⟩ := Comparison.upper_of_far
      (show instant unit ts + offset.toInt + 2 * timestampUnitNanoseconds unit ≤ j by omega) closedEnd
    have hboth := hright ts
    rw [range_coded rfc ha hb] at hboth
    simpa only [hcoded, hholds, and_true] using hboth
  · refine exact_of_right rfc hb fun ts k hlow hhigh hts => ?_
    have hnear := (near_instant j offset.toInt unit hlow hhigh).1
    rw [← hts] at hnear
    obtain ⟨hcoded, hholds⟩ := Comparison.lower_of_far
      (show i + 2 * timestampUnitNanoseconds unit ≤ instant unit ts + offset.toInt by omega)
      closedStart
    have hboth := hright ts
    rw [range_coded rfc ha hb] at hboth
    simpa only [hcoded, hholds, true_and] using hboth

end Range

/-- **When filters on absolute time are exact.** A comparison admits exactly the timestamps whose
instant, shifted by the offset, satisfies it if and only if what the instant and the offset leave
over of a unit compare as `Exact` says. A range is exact if both its bounds are, and only then if its
instants are at least four units apart. -/
theorem timeFilter_iff (rfc : Rfc3339) (unit : TimestampUnit) (now offset : Int64) :
    (∀ (cmp : Comparison) (t : Text) (i : Int), rfc.parse (trim t) = .ok i →
      ∃ spec, applyTimeFilter rfc .default (cmp.symbol ++ t) unit now = .ok spec ∧
        ((∀ ts : Int64, (applyQueryTimeOffset spec offset unit).Admits ts ↔
          cmp.Holds (instant unit ts + offset.toInt) i) ↔ cmp.Exact i offset.toInt unit)) ∧
    ∀ (closedStart closedEnd : Bool) (a b : Text) (i j : Int),
      rfc.parse (trim a) = .ok i → rfc.parse (trim b) = .ok j →
      let Right := ∀ ts : Int64,
        (∃ spec, applyTimeFilter rfc .default (rangeText closedStart closedEnd a b) unit now =
            .ok spec ∧ (applyQueryTimeOffset spec offset unit).Admits ts) ↔
          (Comparison.lower closedStart).Holds (instant unit ts + offset.toInt) i ∧
            (Comparison.upper closedEnd).Holds (instant unit ts + offset.toInt) j
      let BothExact := (Comparison.lower closedStart).Exact i offset.toInt unit ∧
        (Comparison.upper closedEnd).Exact j offset.toInt unit
      (BothExact → Right) ∧ (i + 4 * timestampUnitNanoseconds unit ≤ j → Right → BothExact) := by
  refine ⟨fun cmp t i h => comparison_iff rfc h cmp unit now offset, ?_⟩
  intro closedStart closedEnd a b i j ha hb
  exact ⟨fun hexact => range_exact rfc ha hb hexact.1 hexact.2, exact_of_range rfc ha hb⟩

/-- A reader of one text, half a millisecond after the epoch. -/
def halfMillisecond : Rfc3339 where
  parse t :=
    if t = "1970-01-01T00:00:00.0005Z".toList then .ok 500000
    else .error "input contains invalid characters"
  starts t i h := by
    split_ifs at h with ht
    exact ⟨'1', "970-01-01T00:00:00.0005Z".toList, ht, by decide⟩
  noInteger t i h := by
    split_ifs at h with ht
    rw [ht]
    decide
  noComma t i h := by
    split_ifs at h with ht
    rw [ht]
    decide
  bounded t i h := by
    split_ifs at h with ht
    cases h
    decide

/-- In microseconds the half millisecond is a whole number of units. -/
theorem timeFilter_iff_microseconds : ∃ spec,
    applyTimeFilter halfMillisecond .default ">=1970-01-01T00:00:00.0005Z".toList .microseconds 0 =
      .ok spec ∧
    ∀ ts : Int64, (applyQueryTimeOffset spec 0 .microseconds).Admits ts ↔
      500000 ≤ ts.toInt * 1000 + (0 : Int64).toInt := by
  obtain ⟨spec, hspec, hiff⟩ := (timeFilter_iff halfMillisecond .microseconds 0 0).1 .ge
    "1970-01-01T00:00:00.0005Z".toList 500000 rfl
  exact ⟨spec, hspec, hiff.mpr (Comparison.exact_of_whole (by decide) (by decide) .ge)⟩

/-- In milliseconds it is rounded down, and the epoch is admitted, half a millisecond too early. -/
theorem lower_bound_rounds_down : ∃ spec,
    applyTimeFilter halfMillisecond .default ">=1970-01-01T00:00:00.0005Z".toList .milliseconds 0 =
      .ok spec ∧
    (applyQueryTimeOffset spec 0 .milliseconds).Admits 0 ∧
    instant .milliseconds 0 + (0 : Int64).toInt < 500000 := by
  have hshift : shiftNativeLowerBound 0 0 .milliseconds = 0 := by decide +kernel
  refine ⟨⟨some 0, none⟩, rfl, ?_, by decide⟩
  simp [applyQueryTimeOffset, QuerySpec.Admits, hshift]

end Timeless.LogsQL
