import Timeless.LogsQL.Time
import Timeless.Support.Calendar
import Timeless.Support.Search
import Mathlib.Tactic.LinearCombination
import Mathlib.Tactic.Tauto

/-!
# RepeatingRange — filters on the time of day and on the weekday

`day_range` and `week_range` select rows by the time of day or the weekday of their timestamp, moved
by an offset. The weekday is computed with a division that rounds down and is right for every
timestamp. The time of day is computed with remainders that take the sign of the timestamp: where the
remainder and the offset together are negative, the row is rejected whatever its time of day is.
`repeatingRange_iff` says when the answer is that of the calendar.
-/

namespace Timeless.LogsQL

open Support Codec Blocks

/-- A day. -/
def nanosecondsPerDay : Int := 86400000000000

/-- The predicates `DayRange` and `WeekRange`. -/
inductive RepeatingRange where
  | day (startNs endNs : Int64) (startInclusive endInclusive : Bool) (offsetNs : Int64)
  | week (startDay endDay : UInt8) (offsetNs : Int64)
  deriving DecidableEq

/-! ### Matching -/

/-- A day in the unit of the table. -/
def unitsPerDay : TimestampUnit → Int64
  | .milliseconds => 86400000
  | .microseconds => 86400000000

/-- Is the time of day in the range? -/
def dayRangeMatches (timestamp : Int64) (unit : TimestampUnit) (startNs endNs : Int64)
    (startInclusive endInclusive : Bool) (offsetNs : Int64) : Bool :=
  if startNs > endNs then false
  else
    -- both remainders have the sign of what they are taken of
    let dayOffset := ((timestamp % unitsPerDay unit).toInt * timestampUnitNanoseconds unit +
      offsetNs.toInt).tmod nanosecondsPerDay
    (if startInclusive then startNs.toInt ≤ dayOffset else startNs.toInt < dayOffset) &&
      (if endInclusive then dayOffset ≤ endNs.toInt else dayOffset < endNs.toInt)

/-- Is the day of the week in the range? -/
def weekRangeMatches (timestamp : Int64) (unit : TimestampUnit) (startDay endDay : UInt8)
    (offsetNs : Int64) : Bool :=
  if startDay > endDay ∨ endDay > 6 then false
  else
    let adjustedNs := timestamp.toInt * timestampUnitNanoseconds unit + offsetNs.toInt
    let daysSinceEpoch := adjustedNs / nanosecondsPerDay
    let weekday := UInt8.ofNat ((daysSinceEpoch + 4) % 7).toNat
    startDay ≤ weekday && weekday ≤ endDay

namespace RepeatingRange

def «matches» (timestamp : Int64) (unit : TimestampUnit) : RepeatingRange → Bool
  | day startNs endNs startInclusive endInclusive offsetNs =>
      dayRangeMatches timestamp unit startNs endNs startInclusive endInclusive offsetNs
  | week startDay endDay offsetNs => weekRangeMatches timestamp unit startDay endDay offsetNs

/-- How far the clock is shifted. -/
def offsetNs : RepeatingRange → Int64
  | day _ _ _ _ offsetNs => offsetNs
  | week _ _ offsetNs => offsetNs

/-- The time offset of a query moves the ranges in it. -/
def applyQueryTimeOffset (timeOffsetNs : Int64) : RepeatingRange → RepeatingRange
  | day startNs endNs startInclusive endInclusive offsetNs =>
      day startNs endNs startInclusive endInclusive (saturatingAdd offsetNs timeOffsetNs)
  | week startDay endDay offsetNs => week startDay endDay (saturatingAdd offsetNs timeOffsetNs)

end RepeatingRange

/-! ### Parsing -/

/-- Two digits. -/
def decimalPair (tens ones : Char) : Option Int64 :=
  if tens.isDigit ∧ ones.isDigit then
    some (Int64.ofNat (10 * (tens.toNat - 48) + (ones.toNat - 48)))
  else none

/-- Hours and minutes, within the day. -/
def dayClockNs (hourTens hourOnes minuteTens minuteOnes : Char) : Option Int64 := do
  let hours ← decimalPair hourTens hourOnes
  let minutes ← decimalPair minuteTens minuteOnes
  if hours > 24 ∨ minutes > 60 then none
  else some (min (hours * 3600000000000 + minutes * 60000000000) (86400000000000 - 1))

/-- `hh:mm` or `hhmm`. -/
def parseDayClockNs : Text → Option Int64
  | [hourTens, hourOnes, ':', minuteTens, minuteOnes] =>
      dayClockNs hourTens hourOnes minuteTens minuteOnes
  | [hourTens, hourOnes, minuteTens, minuteOnes] =>
      dayClockNs hourTens hourOnes minuteTens minuteOnes
  | _ => none

/-- Lower case of ASCII letters. -/
def asciiLower (t : Text) : Text := t.map Char.toLower

/-- A day by its name, Sunday first. -/
def parseWeekday (value : Text) : Option UInt8 :=
  let value := String.ofList (asciiLower value)
  if value = "sun" ∨ value = "sunday" then some 0
  else if value = "mon" ∨ value = "monday" then some 1
  else if value = "tue" ∨ value = "tuesday" then some 2
  else if value = "wed" ∨ value = "wednesday" then some 3
  else if value = "thu" ∨ value = "thursday" then some 4
  else if value = "fri" ∨ value = "friday" then some 5
  else if value = "sat" ∨ value = "saturday" then some 6
  else none

/-- The brackets, the two bounds and what follows them. -/
structure Bounds where
  «open» : Char
  start : Text
  «end» : Text
  close : Char
  suffix : Text

/-- Ends a range. -/
def isClose (ch : Char) : Bool := ch == ']' || ch == ')'

/-- The part of the two parsers that reads brackets and bounds. -/
def parseBounds (function : String) (remainder : Text) : Except String Bounds :=
  match remainder with
  | [] => .error s!"LogsQL {function} requires '[' or '(' and two bounds"
  | bracket :: rest => do
      rejectIf (bracket ≠ '[' ∧ bracket ≠ '(') s!"LogsQL {function} must start with '[' or '('"
      match rest.dropWhile (fun ch => !isClose ch) with
      | [] => .error s!"unterminated LogsQL {function} filter"
      | close :: suffix => do
          let bounds ← okOr (splitOnce ',' (rest.takeWhile fun ch => !isClose ch))
            s!"LogsQL {function} requires exactly two bounds"
          rejectIf (',' ∈ bounds.2) s!"LogsQL {function} accepts exactly two bounds"
          return ⟨bracket, bounds.1, bounds.2, close, trim suffix⟩

variable (parseVictorialogsHumanDuration : Text → Option Int64)

/-- The offset behind a range, or none. -/
def parseRepeatingTimeRangeOffset (suffix : Text) (function : String) : Except String Int64 :=
  if suffix = [] then .ok 0
  else do
    let words := splitWhitespace suffix
    let keyword := words.head?.getD []
    let duration ← okOr words[1]? s!"LogsQL {function} offset requires one duration"
    let text := shownKey suffix
    rejectIf (asciiLower keyword ≠ "offset".toList ∨ 2 < words.length)
      s!"unexpected text after LogsQL {function}: {text}"
    let shown := shownKey duration
    okOr (parseVictorialogsHumanDuration duration) s!"invalid LogsQL {function} offset {shown}"

/-- A `day_range`, if it is one. -/
def parseDayRangeFilter (value : Text) : Except String (Option RepeatingRange) :=
  if asciiLower (value.take 9) ≠ "day_range".toList then .ok none
  else do
    let bounds ← parseBounds "day_range" (value.drop 9)
    let shownStart := shownKey bounds.start
    let startNs ← okOr (parseDayClockNs (trim bounds.start))
      s!"invalid LogsQL day_range start {shownStart}"
    let shownEnd := shownKey bounds.end
    let endNs ← okOr (parseDayClockNs (trim bounds.end)) s!"invalid LogsQL day_range end {shownEnd}"
    let offsetNs ← parseRepeatingTimeRangeOffset parseVictorialogsHumanDuration bounds.suffix
      "day_range"
    if bounds.close ≠ ']' ∧ endNs = 0 then
      -- an open end at midnight is the last nanosecond of the day
      return some (.day startNs (86400000000000 - 1) (bounds.open == '[') true offsetNs)
    else return some (.day startNs endNs (bounds.open == '[') (bounds.close == ']') offsetNs)

/-- A `week_range`, if it is one. -/
def parseWeekRangeFilter (value : Text) : Except String (Option RepeatingRange) :=
  if asciiLower (value.take 10) ≠ "week_range".toList then .ok none
  else do
    let bounds ← parseBounds "week_range" (value.drop 10)
    let shownStart := shownKey bounds.start
    let startDay ← okOr (parseWeekday (trim bounds.start))
      s!"invalid LogsQL week_range start {shownStart}"
    let shownEnd := shownKey bounds.end
    let endDay ← okOr (parseWeekday (trim bounds.end))
      s!"invalid LogsQL week_range end {shownEnd}"
    let startDay := if bounds.open = '(' then (startDay + 1) % 7 else startDay
    let endDay := if bounds.close = ')' then (endDay + 6) % 7 else endDay
    let offsetNs ← parseRepeatingTimeRangeOffset parseVictorialogsHumanDuration bounds.suffix
      "week_range"
    return some (.week startDay endDay offsetNs)

/-- Either range. -/
def parseRepeatingTimeRangeFilter (value : Text) : Except String (Option RepeatingRange) := do
  match ← parseDayRangeFilter parseVictorialogsHumanDuration value with
  | some predicate => return some predicate
  | none => parseWeekRangeFilter parseVictorialogsHumanDuration value

variable {parseVictorialogsHumanDuration}

/-! ### What is parsed -/

variable {n : Int64} {value : Text}

theorem decimalPair_eq {tens ones : Char} (h : decimalPair tens ones = some n) :
    ∃ k < 100, n = Int64.ofNat k := by
  unfold decimalPair at h
  split_ifs at h with hdigits
  have htens := (Char.isDigit_iff_toNat.mp hdigits.1).2
  have hones := (Char.isDigit_iff_toNat.mp hdigits.2).2
  have hnine : '9'.toNat = 57 := rfl
  exact ⟨_, by omega, (Option.some.inj h).symm⟩

/-- A clock time is a nanosecond of the day. -/
theorem dayClockNs_bounds {a b c d : Char} (h : dayClockNs a b c d = some n) :
    0 ≤ n.toInt ∧ n.toInt < nanosecondsPerDay := by
  have hall : ∀ hours < 100, ∀ minutes < 100,
      ¬(Int64.ofNat hours > 24 ∨ Int64.ofNat minutes > 60) →
      0 ≤ (min (Int64.ofNat hours * 3600000000000 + Int64.ofNat minutes * 60000000000)
        (86400000000000 - 1)).toInt ∧
      (min (Int64.ofNat hours * 3600000000000 + Int64.ofNat minutes * 60000000000)
        (86400000000000 - 1)).toInt < nanosecondsPerDay := by
    decide +kernel
  obtain ⟨hours, hhours, h⟩ := Option.bind_eq_some_iff.mp h
  obtain ⟨minutes, hminutes, h⟩ := Option.bind_eq_some_iff.mp h
  obtain ⟨x, hx, rfl⟩ := decimalPair_eq hhours
  obtain ⟨y, hy, rfl⟩ := decimalPair_eq hminutes
  split_ifs at h with hlate
  exact Option.some.inj h ▸ hall x hx y hy hlate

theorem parseDayClockNs_bounds {t : Text} (h : parseDayClockNs t = some n) :
    0 ≤ n.toInt ∧ n.toInt < nanosecondsPerDay := by
  unfold parseDayClockNs at h
  split at h
  · exact dayClockNs_bounds h
  · exact dayClockNs_bounds h
  · cases h

theorem parseWeekday_le {t : Text} {n : UInt8} (h : parseWeekday t = some n) : n ≤ 6 := by
  unfold parseWeekday at h
  dsimp only at h
  split_ifs at h <;> cases h <;> decide

/-- The bounds of a range are nanoseconds of the day, or days of the week. -/
def RepeatingRange.Bounded : RepeatingRange → Prop
  | .day startNs endNs _ _ _ => 0 ≤ startNs.toInt ∧ startNs.toInt < nanosecondsPerDay ∧
      0 ≤ endNs.toInt ∧ endNs.toInt < nanosecondsPerDay
  | .week startDay endDay _ => startDay ≤ 6 ∧ endDay ≤ 6

variable {p : RepeatingRange}

theorem parseDayRangeFilter_bounded
    (h : parseDayRangeFilter parseVictorialogsHumanDuration value = .ok (some p)) : p.Bounded := by
  unfold parseDayRangeFilter at h
  split_ifs at h
  · cases h
  obtain ⟨bounds, -, h⟩ := of_bind h
  obtain ⟨startNs, hstart, h⟩ := of_bind h
  obtain ⟨endNs, hend, h⟩ := of_bind h
  obtain ⟨offsetNs, -, h⟩ := of_bind h
  obtain ⟨hs, hs'⟩ := parseDayClockNs_bounds (okOr_eq_ok.mp hstart)
  obtain ⟨he, he'⟩ := parseDayClockNs_bounds (okOr_eq_ok.mp hend)
  split_ifs at h
  · obtain rfl := Option.some.inj (Except.ok.inj h)
    exact ⟨hs, hs', by decide, by decide⟩
  · obtain rfl := Option.some.inj (Except.ok.inj h)
    exact ⟨hs, hs', he, he'⟩

theorem parseWeekRangeFilter_bounded
    (h : parseWeekRangeFilter parseVictorialogsHumanDuration value = .ok (some p)) : p.Bounded := by
  have hmod : ∀ day : UInt8, day % 7 ≤ 6 := by
    intro day
    rw [UInt8.le_iff_toNat_le, UInt8.toNat_mod]
    exact Nat.le_of_lt_succ (Nat.mod_lt _ (by decide))
  unfold parseWeekRangeFilter at h
  split_ifs at h
  · cases h
  obtain ⟨bounds, -, h⟩ := of_bind h
  obtain ⟨startDay, hstart, h⟩ := of_bind h
  obtain ⟨endDay, hend, h⟩ := of_bind h
  obtain ⟨offsetNs, -, h⟩ := of_bind h
  obtain rfl := Option.some.inj (Except.ok.inj h)
  have hs := parseWeekday_le (okOr_eq_ok.mp hstart)
  have he := parseWeekday_le (okOr_eq_ok.mp hend)
  constructor
  · split_ifs
    · exact hmod _
    · exact hs
  · split_ifs
    · exact hmod _
    · exact he

theorem parseRepeatingTimeRangeFilter_bounded
    (h : parseRepeatingTimeRangeFilter parseVictorialogsHumanDuration value = .ok (some p)) :
    p.Bounded := by
  obtain ⟨found, hday, h⟩ := of_bind h
  cases found with
  | some p' =>
      obtain rfl := Option.some.inj (Except.ok.inj h)
      exact parseDayRangeFilter_bounded hday
  | none => exact parseWeekRangeFilter_bounded h

/-! ### The calendar -/

/-- The nanosecond of the day of an instant. -/
def timeOfDay (x : Int) : Int := x % nanosecondsPerDay

/-- The day of the week of an instant, from Sunday on. -/
def weekday (x : Int) : Int := (x / nanosecondsPerDay + 4) % 7

namespace RepeatingRange

/-- The instant that a row is judged by. -/
def civil (timestamp : Int64) (unit : TimestampUnit) (p : RepeatingRange) : Int :=
  instant unit timestamp + p.offsetNs.toInt

/-- The interval contains the time of day or the weekday of an instant. -/
def Contains (x : Int) : RepeatingRange → Prop
  | day startNs endNs startInclusive endInclusive _ =>
      (if startInclusive then startNs.toInt ≤ timeOfDay x else startNs.toInt < timeOfDay x) ∧
        if endInclusive then timeOfDay x ≤ endNs.toInt else timeOfDay x < endNs.toInt
  | week startDay endDay _ => startDay.toNat ≤ weekday x ∧ weekday x ≤ endDay.toNat

instance decidableContains (x : Int) : (p : RepeatingRange) → Decidable (p.Contains x)
  | day startNs endNs startInclusive endInclusive _ => inferInstanceAs (Decidable
      ((if startInclusive then startNs.toInt ≤ timeOfDay x else startNs.toInt < timeOfDay x) ∧
        if endInclusive then timeOfDay x ≤ endNs.toInt else timeOfDay x < endNs.toInt))
  | week startDay endDay _ => inferInstanceAs (Decidable
      ((startDay.toNat : Int) ≤ weekday x ∧ weekday x ≤ endDay.toNat))

/-- The remainder of the day and the offset are together negative and not whole days. -/
def Negative (timestamp : Int64) (unit : TimestampUnit) : RepeatingRange → Prop
  | day _ _ _ _ offsetNs =>
      let moved := timestamp.toInt.tmod (unitsPerDay unit).toInt * timestampUnitNanoseconds unit +
        offsetNs.toInt
      moved < 0 ∧ ¬nanosecondsPerDay ∣ moved
  | week _ _ _ => False

end RepeatingRange

/-! ### Exactness -/

/-- A whole number of days is left out by the remainder, which does not matter for the time of
day. -/
theorem timeOfDay_remainder (timestamp : Int64) (unit : TimestampUnit) (offset : Int) :
    timeOfDay (timestamp.toInt.tmod (unitsPerDay unit).toInt * timestampUnitNanoseconds unit +
      offset) = timeOfDay (instant unit timestamp + offset) := by
  have hsplit := Int.tmod_add_mul_tdiv timestamp.toInt (unitsPerDay unit).toInt
  have hday : (unitsPerDay unit).toInt * timestampUnitNanoseconds unit = nanosecondsPerDay := by
    cases unit <;> decide
  have heq : instant unit timestamp + offset =
      timestamp.toInt.tmod (unitsPerDay unit).toInt * timestampUnitNanoseconds unit + offset +
        nanosecondsPerDay * timestamp.toInt.tdiv (unitsPerDay unit).toInt := by
    rw [← hday, instant]
    linear_combination -timestampUnitNanoseconds unit * hsplit
  rw [timeOfDay, timeOfDay, heq, Int.add_mul_emod_self_left]

/-- A remainder with the sign of the dividend is the time of day, or it is negative. -/
theorem tmod_nanosecondsPerDay (x : Int) :
    x.tmod nanosecondsPerDay = timeOfDay x ∧ ¬(x < 0 ∧ ¬nanosecondsPerDay ∣ x) ∨
      x.tmod nanosecondsPerDay < 0 ∧ x < 0 ∧ ¬nanosecondsPerDay ∣ x := by
  have hlt : x % nanosecondsPerDay < nanosecondsPerDay := Int.emod_lt_of_pos x (by decide)
  rw [timeOfDay, Int.tmod_eq_emod]
  by_cases hsign : 0 ≤ x ∨ nanosecondsPerDay ∣ x
  · refine .inl ⟨by rw [if_pos hsign, Nat.cast_zero, Int.sub_zero], ?_⟩
    rintro ⟨hneg, hdvd⟩
    exact hsign.elim (fun h => absurd hneg (not_lt.mpr h)) hdvd
  · refine .inr ⟨?_, not_le.mp fun h => hsign (.inl h), fun h => hsign (.inr h)⟩
    rw [if_neg hsign]
    change x % nanosecondsPerDay - nanosecondsPerDay < 0
    omega

theorem dayRangeMatches_iff (timestamp : Int64) (unit : TimestampUnit) {startNs : Int64}
    (hstart : 0 ≤ startNs.toInt) (endNs : Int64) (startInclusive endInclusive : Bool)
    (offsetNs : Int64) :
    dayRangeMatches timestamp unit startNs endNs startInclusive endInclusive offsetNs = true ↔
      ¬(RepeatingRange.day startNs endNs startInclusive endInclusive offsetNs).Negative timestamp unit ∧
      (RepeatingRange.day startNs endNs startInclusive endInclusive offsetNs).Contains
        (instant unit timestamp + offsetNs.toInt) := by
  rw [RepeatingRange.Negative, RepeatingRange.Contains, ← timeOfDay_remainder, dayRangeMatches,
    Int64.toInt_mod]
  dsimp only
  generalize timestamp.toInt.tmod (unitsPerDay unit).toInt * timestampUnitNanoseconds unit +
    offsetNs.toInt = x
  by_cases hempty : startNs > endNs
  · -- nothing is in an interval that ends before it starts
    rw [if_pos hempty]
    have hlt := Int64.lt_iff_toInt_lt.mp hempty
    refine ⟨fun h => absurd h (by decide), fun ⟨_, hlow, hhigh⟩ => ?_⟩
    split_ifs at hlow hhigh <;> omega
  rw [if_neg hempty]
  rcases tmod_nanosecondsPerDay x with ⟨heq, hsign⟩ | ⟨hneg, hsign⟩
  · rw [heq]
    cases startInclusive <;> cases endInclusive <;> simp [hsign]
  · refine ⟨fun h => ?_, fun h => absurd hsign h.1⟩
    cases startInclusive <;> simp at h <;> omega

theorem weekRangeMatches_iff (timestamp : Int64) (unit : TimestampUnit) (startDay : UInt8)
    {endDay : UInt8} (hend : endDay ≤ 6) (offsetNs : Int64) :
    weekRangeMatches timestamp unit startDay endDay offsetNs = true ↔
      (RepeatingRange.week startDay endDay offsetNs).Contains
        (instant unit timestamp + offsetNs.toInt) := by
  rw [RepeatingRange.Contains, weekRangeMatches, instant, weekday]
  dsimp only
  generalize (timestamp.toInt * timestampUnitNanoseconds unit + offsetNs.toInt) /
    nanosecondsPerDay + 4 = days
  have hlow : 0 ≤ days % 7 := Int.emod_nonneg days (by decide)
  have hhigh : days % 7 < 7 := Int.emod_lt_of_pos days (by decide)
  have hday : (UInt8.ofNat (days % 7).toNat).toNat = (days % 7).toNat := by
    rw [UInt8.toNat_ofNat']
    omega
  by_cases hempty : startDay > endDay ∨ endDay > 6
  · rw [if_pos hempty]
    have hlt : endDay.toNat < startDay.toNat := by
      rcases hempty with h | h
      · exact UInt8.lt_iff_toNat_lt.mp h
      · exact absurd hend (UInt8.not_le.mpr h)
    refine ⟨fun h => absurd h (by decide), fun h => ?_⟩
    omega
  · rw [if_neg hempty, Bool.and_eq_true, decide_eq_true_eq, decide_eq_true_eq,
      UInt8.le_iff_toNat_le, UInt8.le_iff_toNat_le, hday]
    omega

theorem matches_iff_contains (h : p.Bounded) (timestamp : Int64) (unit : TimestampUnit) :
    p.matches timestamp unit = true ↔
      ¬p.Negative timestamp unit ∧ p.Contains (p.civil timestamp unit) := by
  cases p with
  | day startNs endNs startInclusive endInclusive offsetNs =>
      exact dayRangeMatches_iff timestamp unit h.1 endNs startInclusive endInclusive offsetNs
  | week startDay endDay offsetNs =>
      refine (weekRangeMatches_iff timestamp unit startDay h.2 offsetNs).trans ?_
      exact ⟨fun hin => ⟨id, hin⟩, fun hin => hin.2⟩

theorem bounded_applyQueryTimeOffset (h : p.Bounded) (timeOffsetNs : Int64) :
    (p.applyQueryTimeOffset timeOffsetNs).Bounded := by
  cases p <;> exact h

/-- **Repeating ranges.** Take a range that was parsed, moved by the time offset of the query. The
row is accepted exactly if the interval contains its civil time, unless the interval does contain it
and the remainder of the day and the offset are together negative. The civil time is that of the
timestamp moved by both offsets, as long as their sum fits. -/
theorem repeatingRange_iff {value : Text} {p : RepeatingRange}
    (h : parseRepeatingTimeRangeFilter parseVictorialogsHumanDuration value = .ok (some p))
    (timeOffsetNs timestamp : Int64) (unit : TimestampUnit) :
    let moved := p.applyQueryTimeOffset timeOffsetNs
    ((moved.matches timestamp unit = true ↔ moved.Contains (moved.civil timestamp unit)) ↔
      ¬(moved.Negative timestamp unit ∧ moved.Contains (moved.civil timestamp unit))) ∧
    (Int64.minValue.toInt ≤ p.offsetNs.toInt + timeOffsetNs.toInt →
      p.offsetNs.toInt + timeOffsetNs.toInt ≤ Int64.maxValue.toInt →
      moved.civil timestamp unit =
        instant unit timestamp + (p.offsetNs.toInt + timeOffsetNs.toInt)) := by
  intro moved
  have hbounded : moved.Bounded :=
    bounded_applyQueryTimeOffset (parseRepeatingTimeRangeFilter_bounded h) timeOffsetNs
  constructor
  · rw [matches_iff_contains hbounded]
    tauto
  · intro hlow hhigh
    have hoffset : moved.offsetNs = saturatingAdd p.offsetNs timeOffsetNs := by cases p <;> rfl
    rw [RepeatingRange.civil, hoffset, saturatingAdd_exact hlow hhigh]

/-- Office hours, on the first day. -/
theorem repeatingRange_iff_office :
    parseRepeatingTimeRangeFilter (fun _ => none) "day_range[08:00,18:00)".toList =
      .ok (some (.day 28800000000000 64800000000000 true false 0)) ∧
    ((RepeatingRange.day 28800000000000 64800000000000 true false 0).applyQueryTimeOffset 0).matches
      36000000 .milliseconds = true := by
  have hparse : parseRepeatingTimeRangeFilter (fun _ => none) "day_range[08:00,18:00)".toList =
      .ok (some (.day 28800000000000 64800000000000 true false 0)) := rfl
  refine ⟨hparse, ((repeatingRange_iff hparse 0 36000000 .milliseconds).1.mpr ?_).mpr (by decide)⟩
  exact fun h => absurd h.1.1 (by decide)

/-- Reads the one duration `-5h`. -/
def minusFiveHours (text : Text) : Option Int64 :=
  if text = "-5h".toList then some (-18000000000000) else none

/-- Five hours before three in the morning it is ten in the evening, and the range of the last hours of
the day rejects the row. -/
theorem day_range_negative_offset :
    parseRepeatingTimeRangeFilter minusFiveHours "day_range[20:00,24:00] offset -5h".toList =
      .ok (some (.day 72000000000000 86399999999999 true true (-18000000000000))) ∧
    RepeatingRange.Contains
      ((RepeatingRange.day 72000000000000 86399999999999 true true (-18000000000000)).civil 10800000
        .milliseconds) (.day 72000000000000 86399999999999 true true (-18000000000000)) ∧
    (RepeatingRange.day 72000000000000 86399999999999 true true (-18000000000000)).matches 10800000
      .milliseconds = false :=
  ⟨by decide +kernel, by decide, by decide⟩

end Timeless.LogsQL
