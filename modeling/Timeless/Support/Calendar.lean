import Mathlib.Logic.Function.Iterate
import Mathlib.Tactic.IntervalCases

/-!
# Calendar — the proleptic Gregorian calendar

A date is a year, a month of it and a day of that. One day follows the other; days are counted from
the first of January 1970, in both directions.

* `dayNumber_next`: the day after a date has the next number;
* `dayNumber_injective`: no two dates have one number;
* `Numbering.eq_dayNumber`: there is no other way to count;
* `Moment.seconds_injective`: no two moments have one second.
-/

namespace Support.Calendar

/-! ### Years and months -/

def IsLeap (year : Int) : Prop :=
  year % 4 = 0 ∧ (year % 100 ≠ 0 ∨ year % 400 = 0)

instance (year : Int) : Decidable (IsLeap year) :=
  inferInstanceAs (Decidable (_ ∧ _))

def daysIn (year : Int) (month : Nat) : Nat :=
  if month = 2 then if IsLeap year then 29 else 28
  else if month = 4 ∨ month = 6 ∨ month = 9 ∨ month = 11 then 30
  else 31

/-- The days of a year that are before one of its months. -/
def daysBefore (year : Int) : Nat → Nat
  | 0 => 0
  | 1 => 0
  | month + 2 => daysBefore year (month + 1) + daysIn year (month + 1)

/-- The days of all years from the first one to the one before a year; for a year before the first
one, the days that are missing. -/
def daysBeforeYear (year : Int) : Int :=
  365 * (year - 1) + (year - 1) / 4 - (year - 1) / 100 + (year - 1) / 400

theorem daysBefore_twelve (year : Int) :
    daysBefore year 12 = 334 + if IsLeap year then 1 else 0 := by
  by_cases h : IsLeap year <;> simp [daysBefore, daysIn, h]

/-- The days of a year: a leap year has one more. -/
theorem daysBeforeYear_succ (year : Int) :
    daysBeforeYear (year + 1) = daysBeforeYear year + daysBefore year 12 + 31 := by
  rw [daysBefore_twelve, daysBeforeYear, daysBeforeYear]
  by_cases hleap : IsLeap year
  · rw [if_pos hleap]
    rw [IsLeap] at hleap
    omega
  · rw [if_neg hleap]
    rw [IsLeap] at hleap
    omega

/-! ### Dates -/

/-- A day of the calendar. -/
@[ext]
structure Date where
  year : Int
  month : Nat
  day : Nat
  month_pos : 1 ≤ month
  month_le : month ≤ 12
  day_pos : 1 ≤ day
  day_le : day ≤ daysIn year month
  deriving DecidableEq

theorem daysIn_pos (year : Int) (month : Nat) : 1 ≤ daysIn year month := by
  rw [daysIn]
  split_ifs <;> decide

namespace Date

/-- The day on which the count starts. -/
def epoch : Date := ⟨1970, 1, 1, by decide, by decide, by decide, by decide⟩

/-- The day after. -/
def next (d : Date) : Date :=
  if hday : d.day < daysIn d.year d.month then
    ⟨d.year, d.month, d.day + 1, d.month_pos, d.month_le, Nat.le_add_left _ _, hday⟩
  else if hmonth : d.month < 12 then
    ⟨d.year, d.month + 1, 1, Nat.le_add_left _ _, hmonth, Nat.le_refl _, daysIn_pos _ _⟩
  else ⟨d.year + 1, 1, 1, Nat.le_refl _, by decide, Nat.le_refl _, daysIn_pos _ _⟩

/-- The day of the year. -/
def dayOfYear (d : Date) : Nat :=
  daysBefore d.year d.month + d.day

/-- The number of a day. There are 719162 days from the first year to 1969. -/
def dayNumber (d : Date) : Int :=
  daysBeforeYear d.year + d.dayOfYear - 1 - 719162

/-- The day of the week, from Sunday on. The first day of the count is a Thursday. -/
def dayOfWeek (d : Date) : Int :=
  (d.dayNumber + 4) % 7

theorem dayNumber_epoch : epoch.dayNumber = 0 := by decide

theorem daysBefore_succ (year : Int) {month : Nat} (h : 1 ≤ month) :
    daysBefore year (month + 1) = daysBefore year month + daysIn year month := by
  obtain ⟨month, rfl⟩ := Nat.exists_eq_add_of_le' h
  rfl

/-- **The day after has the next number.** -/
theorem dayNumber_next (d : Date) : d.next.dayNumber = d.dayNumber + 1 := by
  have hpos := d.month_pos
  have hle := d.day_le
  rw [next]
  split_ifs with hday hmonth
  · simp only [dayNumber, dayOfYear]
    omega
  · simp only [dayNumber, dayOfYear, daysBefore_succ d.year hpos]
    omega
  · have hlast : d.month = 12 := Nat.le_antisymm d.month_le (not_lt.mp hmonth)
    have hdays : d.day = 31 := by
      rw [hlast, daysIn] at hle hday
      simp at hle hday
      omega
    simp only [dayNumber, dayOfYear, daysBeforeYear_succ, hlast, hdays]
    simp only [daysBefore]
    omega

/-! ### No two dates have one number -/

theorem dayOfYear_pos (d : Date) : 1 ≤ d.dayOfYear :=
  d.day_pos.trans (Nat.le_add_left _ _)

theorem daysBefore_mono (year : Int) {month month' : Nat} (hpos : 1 ≤ month) (h : month ≤ month') :
    daysBefore year month ≤ daysBefore year month' := by
  induction h with
  | refl => exact Nat.le_refl _
  | step h ih =>
      rw [daysBefore_succ year (hpos.trans h)]
      omega

variable {d d' : Date}

theorem dayOfYear_le_of_lt (hyear : d.year = d'.year) (hmonth : d.month < d'.month) :
    d.dayOfYear < d'.dayOfYear := by
  have hmono := daysBefore_mono d.year (Nat.le_add_left 1 d.month) hmonth
  have hday := d.day_le
  have hday' := d'.day_pos
  rw [daysBefore_succ d.year d.month_pos] at hmono
  rw [dayOfYear, dayOfYear, ← hyear]
  omega

theorem dayOfYear_le (d : Date) : d.dayOfYear ≤ daysBefore d.year 12 + 31 := by
  have hday := d.day_le
  have hmono := daysBefore_mono d.year (Nat.le_add_left 1 d.month) (Nat.succ_le_succ d.month_le)
  rw [daysBefore_succ d.year d.month_pos, daysBefore_succ d.year (by decide)] at hmono
  have hlast : daysIn d.year 12 = 31 := rfl
  rw [dayOfYear]
  omega

theorem daysBeforeYear_mono {year year' : Int} (h : year ≤ year') :
    daysBeforeYear year ≤ daysBeforeYear year' := by
  simp only [daysBeforeYear]
  omega

theorem dayNumber_lt_of_year_lt (h : d.year < d'.year) :
    d.dayNumber < d'.dayNumber := by
  have hmono := daysBeforeYear_mono (Int.add_one_le_iff.mpr h)
  have hle := d.dayOfYear_le
  have hpos := d'.dayOfYear_pos
  rw [daysBeforeYear_succ] at hmono
  rw [dayNumber, dayNumber]
  omega

/-- **No two dates have one number.** -/
theorem dayNumber_injective (h : d.dayNumber = d'.dayNumber) : d = d' := by
  have hyear : d.year = d'.year := by
    rcases lt_trichotomy d.year d'.year with hlt | heq | hlt
    · exact absurd h (dayNumber_lt_of_year_lt hlt).ne
    · exact heq
    · exact absurd h (dayNumber_lt_of_year_lt hlt).ne'
  have hday : d.dayOfYear = d'.dayOfYear := by
    rw [dayNumber, dayNumber, hyear] at h
    omega
  have hmonth : d.month = d'.month := by
    rcases lt_trichotomy d.month d'.month with hlt | heq | hlt
    · exact absurd hday (dayOfYear_le_of_lt hyear hlt).ne
    · exact heq
    · exact absurd hday (dayOfYear_le_of_lt hyear.symm hlt).ne'
  refine Date.ext hyear hmonth ?_
  rw [dayOfYear, dayOfYear, hyear, hmonth] at hday
  exact Nat.add_left_cancel hday

end Date

/-! ### Counting days -/

/-- A way to count the days: from nought on the first day, one by one. -/
structure Numbering (f : Date → Int) : Prop where
  epoch : f Date.epoch = 0
  next : ∀ d, f d.next = f d + 1

theorem numbering_dayNumber : Numbering Date.dayNumber :=
  ⟨Date.dayNumber_epoch, Date.dayNumber_next⟩

theorem Numbering.iterate {f : Date → Int} (h : Numbering f) (n : Nat) (d : Date) :
    f (Date.next^[n] d) = f d + n := by
  induction n with
  | zero => simp
  | succ n ih =>
      rw [Function.iterate_succ_apply', h.next, ih]
      push_cast
      omega

/-- **There is one way to count.** -/
theorem Numbering.eq_dayNumber {f : Date → Int} (h : Numbering f) : f = Date.dayNumber := by
  funext d
  rcases Int.eq_nat_or_neg d.dayNumber with ⟨n, hn | hn⟩
  · have hd : Date.next^[n] .epoch = d := Date.dayNumber_injective (by
      rw [numbering_dayNumber.iterate, Date.dayNumber_epoch, hn, Int.zero_add])
    rw [← hd, h.iterate, numbering_dayNumber.iterate, h.epoch, Date.dayNumber_epoch]
  · have hd : Date.next^[n] d = .epoch := Date.dayNumber_injective (by
      rw [numbering_dayNumber.iterate, Date.dayNumber_epoch, hn, Int.add_left_neg])
    have hf := h.iterate n d
    rw [hd, h.epoch] at hf
    omega

/-! ### Moments -/

/-- A second of a day. -/
@[ext]
structure Moment where
  date : Date
  hour : Nat
  minute : Nat
  second : Nat
  hour_lt : hour < 24
  minute_lt : minute < 60
  second_lt : second < 60
  deriving DecidableEq

/-- The seconds from the start of the count; none is skipped or repeated. -/
def Moment.seconds (m : Moment) : Int :=
  86400 * m.date.dayNumber + 3600 * m.hour + 60 * m.minute + m.second

theorem Moment.dayNumber_eq (m : Moment) : m.date.dayNumber = m.seconds / 86400 := by
  have hhour := m.hour_lt
  have hminute := m.minute_lt
  have hsecond := m.second_lt
  rw [seconds]
  omega

/-- **No two moments have one second.** -/
theorem Moment.seconds_injective {m m' : Moment} (h : m.seconds = m'.seconds) : m = m' := by
  have hdate : m.date = m'.date := Date.dayNumber_injective (by
    rw [m.dayNumber_eq, m'.dayNumber_eq, h])
  have hhour := m.hour_lt
  have hminute := m.minute_lt
  have hsecond := m.second_lt
  have hhour' := m'.hour_lt
  have hminute' := m'.minute_lt
  have hsecond' := m'.second_lt
  rw [seconds, seconds, hdate] at h
  refine Moment.ext hdate ?_ ?_ ?_ <;> omega

end Support.Calendar
