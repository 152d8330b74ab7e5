import Timeless.Support.Binary64
import Timeless.Support.Calendar
import Timeless.Support.Checked

/-!
# Calendar — the parts of a date

The calendar functions of the query language take a number of seconds apart. The date is found in
eras of 400 years that start in March, so that the leap day is the last one of its year.

* `era_split`: a day of an era is a day of a year of it, in one way;
* `civil_dayNumber`: the date that is found has the number of the day;
* `calendar_gregorian`: the functions give the parts of the one moment that has the second.
-/

namespace Timeless.Query

open Support Calendar

/-! ### The functions -/

/-- The last eight bits of an integer. -/
def asU8 (x : Int) : Nat := (x % 256).toNat

/-- The year, the month and the day of a second. -/
def prometheusUtcCivilDate (seconds : Int) : Int × Nat × Nat :=
  let z := seconds / 86400 + 719468
  let era := (if 0 ≤ z then z else z - 146096).tdiv 146097
  let dayOfEra := z - era * 146097
  let yearOfEra := (dayOfEra - dayOfEra.tdiv 1460 + dayOfEra.tdiv 36524 -
    dayOfEra.tdiv 146096).tdiv 365
  let year := yearOfEra + era * 400
  let dayOfYear := dayOfEra - (365 * yearOfEra + yearOfEra.tdiv 4 - yearOfEra.tdiv 100)
  let monthPrime := (5 * dayOfYear + 2).tdiv 153
  let day := dayOfYear - (153 * monthPrime + 2).tdiv 5 + 1
  let month := monthPrime + if monthPrime < 10 then 3 else -9
  (if month ≤ 2 then year + 1 else year, asU8 month, asU8 day)

def prometheusIsLeapYear (year : Int) : Bool :=
  year % 4 == 0 && (year % 100 != 0 || year % 400 == 0)

/-- The days of a month; none for a month that there is not. -/
def prometheusDaysInMonth (year : Int) : Nat → Option Nat
  | 1 | 3 | 5 | 7 | 8 | 10 | 12 => some 31
  | 4 | 6 | 9 | 11 => some 30
  | 2 => if prometheusIsLeapYear year then some 29 else some 28
  | _ => none

def daysBeforeMonth : List Nat := [0, 31, 59, 90, 120, 151, 181, 212, 243, 273, 304, 334]

/-- The day of the year; none for a month that there is not. -/
def prometheusDayOfYear (year : Int) (month day : Nat) : Option Nat :=
  if month = 0 then none
  else daysBeforeMonth[month - 1]?.map fun before =>
    before + day + if 2 < month && prometheusIsLeapYear year then 1 else 0

/-- The calendar functions. -/
inductive PromCalendarOp where
  | minute
  | hour
  | dayOfWeek
  | dayOfMonth
  | dayOfYear
  | daysInMonth
  | month
  | year
  deriving DecidableEq

namespace PromCalendarOp

/-- The second that a float stands for: it is cut off towards zero, and every float that is not within
the range is the last second there is. The word of 2^63 is `0x43e0000000000000`. -/
def seconds (value : UInt64) : Int :=
  match Binary64.number value with
  | none => i64Max
  | some n =>
      if Binary64.isFinite value && decide (-0x43e0000000000000 < n) &&
          decide (n < 0x43e0000000000000) then
        Binary64.truncated value
      else i64Max

/-- A part of the moment that has a second. -/
def part (op : PromCalendarOp) (seconds : Int) : Option Int :=
  let secondOfDay := seconds % 86400
  match op with
  | minute => some ((secondOfDay.tdiv 60).tmod 60)
  | hour => some (secondOfDay.tdiv 3600)
  | dayOfWeek => some ((seconds / 86400 + 4) % 7)
  | dayOfMonth =>
      let (_, _, d) := prometheusUtcCivilDate seconds
      some d
  | dayOfYear =>
      let (y, m, d) := prometheusUtcCivilDate seconds
      (prometheusDayOfYear y m d).map Int.ofNat
  | daysInMonth =>
      let (y, m, _) := prometheusUtcCivilDate seconds
      (prometheusDaysInMonth y m).map Int.ofNat
  | month =>
      let (_, m, _) := prometheusUtcCivilDate seconds
      some m
  | year =>
      let (y, _, _) := prometheusUtcCivilDate seconds
      some y

def apply (op : PromCalendarOp) (value : UInt64) : Option Int :=
  op.part (seconds value)

/-- What a function is to give for a moment. -/
def ofMoment (op : PromCalendarOp) (m : Moment) : Int :=
  match op with
  | minute => m.minute
  | hour => m.hour
  | dayOfWeek => m.date.dayOfWeek
  | dayOfMonth => m.date.day
  | dayOfYear => m.date.dayOfYear
  | daysInMonth => daysIn m.date.year m.date.month
  | month => m.date.month
  | year => m.date.year

end PromCalendarOp

/-! ### Eras -/

variable {d c q r n : Int}

/-- **A day of an era**: its century, the four years of it, the year of those and the day of that.
The last day of a leap year is the last one of four years, except at the end of the first three
centuries. -/
theorem era_split (hd : 0 ≤ d) (hd' : d < 146097) :
    ∃ c q r n, d = 36524 * c + 1461 * q + 365 * r + n ∧ 0 ≤ c ∧ c ≤ 3 ∧ 0 ≤ q ∧ q ≤ 24 ∧ 0 ≤ r ∧
      r ≤ 3 ∧ 0 ≤ n ∧ n ≤ 365 ∧ (n = 365 → r = 3 ∧ (q = 24 → c = 3)) := by
  obtain ⟨c, hc, hc', hlow, hhigh, hlast⟩ : ∃ c, 0 ≤ c ∧ c ≤ 3 ∧ 36524 * c ≤ d ∧
      d ≤ 36524 * c + 36524 ∧ (d = 36524 * c + 36524 → c = 3) := ⟨d / 36524 - d / 146096, by omega⟩
  obtain ⟨q, hq, hq', hlow, hhigh⟩ : ∃ q, 0 ≤ q ∧ q ≤ 24 ∧ 36524 * c + 1461 * q ≤ d ∧
      d ≤ 36524 * c + 1461 * q + 1460 := ⟨(d - 36524 * c) / 1461, by omega⟩
  obtain ⟨r, hr, hr', hlow, hhigh, hleap⟩ : ∃ r, 0 ≤ r ∧ r ≤ 3 ∧
      36524 * c + 1461 * q + 365 * r ≤ d ∧ d ≤ 36524 * c + 1461 * q + 365 * r + 365 ∧
      (d = 36524 * c + 1461 * q + 365 * r + 365 → r = 3) :=
    ⟨min ((d - 36524 * c - 1461 * q) / 365) 3, by omega⟩
  exact ⟨c, q, r, d - 36524 * c - 1461 * q - 365 * r, by omega⟩

theorem yearOfEra_eq (hd : d = 36524 * c + 1461 * q + 365 * r + n) (hc : 0 ≤ c) (hc' : c ≤ 3)
    (hq : 0 ≤ q) (hq' : q ≤ 24) (hr : 0 ≤ r) (hr' : r ≤ 3) (hn : 0 ≤ n) (hn' : n ≤ 365)
    (hleap : n = 365 → r = 3 ∧ (q = 24 → c = 3)) :
    (d - d / 1460 + d / 36524 - d / 146096) / 365 = 100 * c + 4 * q + r := by
  have hday : 1461 * q + 365 * r + n < 36524 ∨ 1461 * q + 365 * r + n = 36524 ∧ c = 3 := by omega
  have hcentury : d / 36524 - d / 146096 = c := by
    rcases hday with hday | ⟨hday, hlast⟩
    · have hwhole : d / 36524 = c := by omega
      omega
    · omega
  have hfour : d / 1460 = 25 * c + q ∨
      d / 1460 = 25 * c + q + 1 ∧ 1460 ≤ 24 * c + q + 365 * r + n := by omega
  omega

/-! ### Years that start in March -/

theorem daysBefore_from_march (year : Int) {m : Nat} (h : m < 10) :
    (daysBefore year (m + 3) : Int) =
      (153 * (m : Int) + 2) / 5 + 59 + if IsLeap year then 1 else 0 := by
  by_cases hleap : IsLeap year <;> interval_cases m <;> simp [daysBefore, daysIn, hleap]

theorem daysIn_from_march (year : Int) {m : Nat} (h : m < 10) :
    (153 * (m : Int) + 2) / 5 + daysIn year (m + 3) = (153 * ((m : Int) + 1) + 2) / 5 := by
  interval_cases m <;> rfl

theorem daysBeforeYear_march (year : Int) : daysBeforeYear (year + 1) =
    daysBeforeYear year + 365 + if IsLeap year then 1 else 0 := by
  rw [daysBeforeYear_succ, daysBefore_twelve]
  push_cast
  omega

/-- **The date of a day of a year that starts in March.** -/
theorem exists_date {y : Int} (hn : 0 ≤ n) (hn' : n ≤ 365) (hleap : n = 365 → IsLeap (y + 1))
    {mp month : Int} (hmp : mp = (5 * n + 2) / 153)
    (hmonth : month = mp + if mp < 10 then 3 else -9) :
    ∃ date : Date, date.year = (if month ≤ 2 then y + 1 else y) ∧ (date.month : Int) = month ∧
      (date.day : Int) = n - (153 * mp + 2) / 5 + 1 ∧
      date.dayNumber = daysBeforeYear (y + 1) + n - 306 - 719162 := by
  by_cases hten : mp < 10
  · obtain ⟨m, rfl⟩ : ∃ m : Nat, mp = m := ⟨mp.toNat, by omega⟩
    obtain ⟨d, hd⟩ : ∃ d : Nat, (d : Int) = n - (153 * (m : Int) + 2) / 5 + 1 :=
      ⟨(n - (153 * (m : Int) + 2) / 5 + 1).toNat, by omega⟩
    rw [if_pos hten] at hmonth
    have hin := @daysIn_from_march y m (by omega)
    have hbefore := @daysBefore_from_march y m (by omega)
    have hmarch := daysBeforeYear_march y
    refine ⟨⟨y, m + 3, d, by omega, by omega, by omega, by omega⟩, ?_, hmonth.symm, hd, ?_⟩
    · rw [if_neg (by omega)]
    · simp only [Date.dayNumber, Date.dayOfYear]
      omega
  · obtain ⟨d, hd⟩ : ∃ d : Nat, (d : Int) = n - (153 * mp + 2) / 5 + 1 :=
      ⟨(n - (153 * mp + 2) / 5 + 1).toNat, by omega⟩
    rw [if_neg hten] at hmonth
    have htwelve : mp = 10 ∨ mp = 11 := by omega
    rcases htwelve with rfl | rfl
    · have hin : daysIn (y + 1) 1 = 31 := rfl
      refine ⟨⟨y + 1, 1, d, by omega, by omega, by omega, by omega⟩, ?_, hmonth.symm, hd, ?_⟩
      · rw [if_pos (by omega)]
      · simp only [Date.dayNumber, Date.dayOfYear, daysBefore]
        omega
    · have hin : d ≤ daysIn (y + 1) 2 := by
        rw [daysIn, if_pos rfl]
        split_ifs with hyear
        · omega
        · have : n ≠ 365 := fun hlast => hyear (hleap hlast)
          omega
      refine ⟨⟨y + 1, 2, d, by omega, by omega, by omega, hin⟩, ?_, hmonth.symm, hd, ?_⟩
      · rw [if_pos (by omega)]
      · have hjanuary : daysBefore (y + 1) 2 = 31 := rfl
        simp only [Date.dayNumber, Date.dayOfYear, hjanuary]
        omega

/-! ### The date of a second -/

theorem asU8_natCast {n : Nat} (h : n < 256) : asU8 n = n := by
  rw [asU8, Int.emod_eq_of_lt (by omega) (by omega), Int.toNat_natCast]

/-- A month and a day are numbers of eight bits. -/
theorem lt_of_date (date : Date) : date.month < 256 ∧ date.day < 256 := by
  have hmonth := date.month_le
  have hday := date.day_le
  have hdays : daysIn date.year date.month ≤ 31 := by
    rw [daysIn]
    split_ifs <;> decide
  omega

theorem era_eq (z : Int) : (if 0 ≤ z then z else z - 146096).tdiv 146097 = z / 146097 := by
  split_ifs with hz
  · exact Int.tdiv_eq_ediv_of_nonneg hz
  · have hsign : Int.sign 146097 = 1 := rfl
    rw [Int.tdiv_eq_ediv, hsign]
    split_ifs <;> omega

/-- The days before a year of an era that starts in March. -/
theorem daysBeforeYear_era {era : Int} (hq : 0 ≤ q) (hq' : q ≤ 24) (hc : 0 ≤ c) (hc' : c ≤ 3)
    (hr : 0 ≤ r) (hr' : r ≤ 3) : daysBeforeYear (100 * c + 4 * q + r + era * 400 + 1) =
      146097 * era + 36524 * c + 1461 * q + 365 * r := by
  have hfour : (100 * c + 4 * q + r + era * 400) / 4 = 25 * c + q + 100 * era := by omega
  have hcentury : (100 * c + 4 * q + r + era * 400) / 100 = c + 4 * era := by omega
  have hera : (100 * c + 4 * q + r + era * 400) / 400 = era := by omega
  rw [daysBeforeYear, add_sub_cancel_right, hfour, hcentury, hera]
  omega

/-- The last year of four is a leap year, except at the end of the first three centuries. -/
theorem isLeap_era {era : Int} (hq : 0 ≤ q) (hq' : q ≤ 24) (h : q = 24 → c = 3) :
    IsLeap (100 * c + 4 * q + 3 + era * 400 + 1) := by
  refine ⟨by omega, ?_⟩
  by_cases hlast : q = 24
  · obtain rfl := h hlast
    exact Or.inr (by omega)
  · exact Or.inl (by omega)

theorem dayOfYear_eq (hd : d = 36524 * c + 1461 * q + 365 * r + n) (hq : 0 ≤ q) (hq' : q ≤ 24)
    (hr : 0 ≤ r) (hr' : r ≤ 3) :
    d - (365 * (100 * c + 4 * q + r) + (100 * c + 4 * q + r) / 4 - (100 * c + 4 * q + r) / 100) =
      n := by
  have hfour : (100 * c + 4 * q + r) / 4 = 25 * c + q := by omega
  have hcentury : (100 * c + 4 * q + r) / 100 = c := by omega
  rw [hfour, hcentury]
  omega

/-- **The date that is found has the number of the day.** -/
theorem civil_dayNumber (seconds : Int) : ∃ date : Date,
    prometheusUtcCivilDate seconds = (date.year, date.month, date.day) ∧
      date.dayNumber = seconds / 86400 := by
  obtain ⟨z, hz⟩ : ∃ z, z = seconds / 86400 + 719468 := ⟨_, rfl⟩
  obtain ⟨d, hd⟩ : ∃ d, d = z - z / 146097 * 146097 := ⟨_, rfl⟩
  have hd0 : 0 ≤ d := by omega
  obtain ⟨c, q, r, n, hsplit, hc, hc', hq, hq', hr, hr', hn, hn', hlast⟩ :=
    @era_split d hd0 (by omega)
  have hyear := yearOfEra_eq hsplit hc hc' hq hq' hr hr' hn hn' hlast
  have hday := dayOfYear_eq hsplit hq hq' hr hr'
  have hleap : n = 365 → IsLeap (100 * c + 4 * q + r + z / 146097 * 400 + 1) := by
    intro h
    obtain ⟨rfl, hq24⟩ := hlast h
    exact isLeap_era hq hq' hq24
  obtain ⟨date, hy, hm, hdd, hnumber⟩ := exists_date hn hn' hleap rfl rfl
  refine ⟨date, ?_, ?_⟩
  · have hnum : 0 ≤ d - d / 1460 + d / 36524 - d / 146096 := by omega
    have hy0 : 0 ≤ 100 * c + 4 * q + r := by omega
    have hfive : 0 ≤ 5 * n + 2 := by omega
    have hmp : 0 ≤ 153 * ((5 * n + 2) / 153) + 2 := by omega
    rw [prometheusUtcCivilDate]
    simp only [← hz, era_eq, ← hd, Int.tdiv_eq_ediv_of_nonneg hd0, Int.tdiv_eq_ediv_of_nonneg hnum,
      hyear, Int.tdiv_eq_ediv_of_nonneg hy0, hday, Int.tdiv_eq_ediv_of_nonneg hfive,
      Int.tdiv_eq_ediv_of_nonneg hmp]
    rw [hy, ← hm, ← hdd, asU8_natCast (lt_of_date date).1, asU8_natCast (lt_of_date date).2]
  · rw [hnumber, daysBeforeYear_era hq hq' hc hc' hr hr']
    omega

/-! ### The functions of a moment -/

theorem prometheusIsLeapYear_iff {year : Int} : prometheusIsLeapYear year = true ↔ IsLeap year := by
  simp [prometheusIsLeapYear, IsLeap]

/-- A month that there is has its days. -/
theorem prometheusDaysInMonth_date (date : Date) :
    prometheusDaysInMonth date.year date.month = some (daysIn date.year date.month) := by
  have hpos := date.month_pos
  have hle := date.month_le
  generalize date.month = month at hpos hle
  by_cases hleap : IsLeap date.year
  · have hyear := prometheusIsLeapYear_iff.mpr hleap
    interval_cases month <;> simp [prometheusDaysInMonth, daysIn, hleap, hyear]
  · have hyear := mt prometheusIsLeapYear_iff.mp hleap
    interval_cases month <;> simp [prometheusDaysInMonth, daysIn, hleap, hyear]

theorem prometheusDayOfYear_date (date : Date) :
    prometheusDayOfYear date.year date.month date.day = some date.dayOfYear := by
  rw [Date.dayOfYear]
  have hpos := date.month_pos
  have hle := date.month_le
  generalize date.month = month at hpos hle
  by_cases hleap : IsLeap date.year
  · have hyear := prometheusIsLeapYear_iff.mpr hleap
    interval_cases month <;>
      simp [prometheusDayOfYear, daysBeforeMonth, daysBefore, daysIn, hleap, hyear] <;> omega
  · have hyear := mt prometheusIsLeapYear_iff.mp hleap
    interval_cases month <;>
      simp [prometheusDayOfYear, daysBeforeMonth, daysBefore, daysIn, hleap, hyear]

/-- **The parts of a moment.** -/
theorem part_moment (op : PromCalendarOp) (m : Moment) : op.part m.seconds = some (op.ofMoment m) := by
  obtain ⟨date, hcivil, hnumber⟩ := civil_dayNumber m.seconds
  obtain rfl : date = m.date := Date.dayNumber_injective (hnumber.trans m.dayNumber_eq.symm)
  have hday : 0 ≤ m.seconds % 86400 := Int.emod_nonneg _ (by decide)
  have hhour := m.hour_lt
  have hminute := m.minute_lt
  have hsecond := m.second_lt
  cases op with
  | minute =>
      have hsixty : 0 ≤ m.seconds % 86400 / 60 := Int.ediv_nonneg hday (by decide)
      simp only [PromCalendarOp.part, PromCalendarOp.ofMoment, Int.tdiv_eq_ediv_of_nonneg hday,
        Int.tmod_eq_emod_of_nonneg hsixty, Option.some.injEq]
      rw [Moment.seconds]
      omega
  | hour =>
      simp only [PromCalendarOp.part, PromCalendarOp.ofMoment, Int.tdiv_eq_ediv_of_nonneg hday,
        Option.some.injEq]
      rw [Moment.seconds]
      omega
  | dayOfWeek =>
      simp only [PromCalendarOp.part, PromCalendarOp.ofMoment, Date.dayOfWeek, hnumber]
  | dayOfMonth => simp only [PromCalendarOp.part, PromCalendarOp.ofMoment, hcivil]
  | dayOfYear =>
      simp only [PromCalendarOp.part, PromCalendarOp.ofMoment, hcivil, prometheusDayOfYear_date]
      rfl
  | daysInMonth =>
      simp only [PromCalendarOp.part, PromCalendarOp.ofMoment, hcivil, prometheusDaysInMonth_date]
      rfl
  | month => simp only [PromCalendarOp.part, PromCalendarOp.ofMoment, hcivil]
  | year => simp only [PromCalendarOp.part, PromCalendarOp.ofMoment, hcivil]

theorem exists_moment (seconds : Int) : ∃ m : Moment, m.seconds = seconds := by
  obtain ⟨date, -, hnumber⟩ := civil_dayNumber seconds
  refine ⟨⟨date, (seconds % 86400 / 3600).toNat, (seconds % 86400 / 60 % 60).toNat,
    (seconds % 60).toNat, by omega, by omega, by omega⟩, ?_⟩
  rw [Moment.seconds, hnumber]
  dsimp only
  omega

/-- The parts of a moment are integers that a float stands for. -/
theorem ofMoment_bounded (op : PromCalendarOp) {m : Moment} (h : InI64 m.seconds) :
    |op.ofMoment m| ≤ 2 ^ 53 := by
  obtain ⟨hlow, hhigh⟩ := h
  rw [i64Min] at hlow
  rw [i64Max] at hhigh
  have hnumber := m.dayNumber_eq
  have hmonth := m.date.month_le
  have hday := m.date.day_le
  have hdayOfYear := m.date.dayOfYear_le
  have hdays : daysIn m.date.year m.date.month ≤ 31 := by
    rw [daysIn]
    split_ifs <;> decide
  have hyear : daysBefore m.date.year 12 ≤ 335 := by
    rw [daysBefore_twelve]
    split_ifs <;> decide
  rw [abs_le]
  cases op with
  | minute => have := m.minute_lt; simp only [PromCalendarOp.ofMoment]; omega
  | hour => have := m.hour_lt; simp only [PromCalendarOp.ofMoment]; omega
  | dayOfWeek => simp only [PromCalendarOp.ofMoment, Date.dayOfWeek]; omega
  | dayOfMonth => simp only [PromCalendarOp.ofMoment]; omega
  | dayOfYear => simp only [PromCalendarOp.ofMoment]; omega
  | daysInMonth => simp only [PromCalendarOp.ofMoment]; omega
  | month => simp only [PromCalendarOp.ofMoment]; omega
  | year =>
      simp only [PromCalendarOp.ofMoment]
      rw [Date.dayNumber, daysBeforeYear] at hnumber
      omega

/-- **The calendar functions compute the date.** A second has one moment; the date that is found is
that of the moment, whichever way the days are counted, and every function gives its part, which is an
integer that a float stands for. -/
theorem calendar_gregorian {seconds : Int} (h : InI64 seconds) :
    ∃ m : Moment, m.seconds = seconds ∧ (∀ m' : Moment, m'.seconds = seconds → m' = m) ∧
      prometheusUtcCivilDate seconds = (m.date.year, m.date.month, m.date.day) ∧
      m.date.dayNumber = seconds / 86400 ∧
      (∀ date : Date, date.dayNumber = seconds / 86400 → date = m.date) ∧
      (∀ f, Numbering f → f m.date = seconds / 86400) ∧
      ∀ op : PromCalendarOp, op.part seconds = some (op.ofMoment m) ∧ |op.ofMoment m| ≤ 2 ^ 53 := by
  obtain ⟨m, rfl⟩ := exists_moment seconds
  obtain ⟨date, hcivil, hnumber⟩ := civil_dayNumber m.seconds
  obtain rfl : date = m.date := Date.dayNumber_injective (hnumber.trans m.dayNumber_eq.symm)
  refine ⟨m, rfl, fun m' h' => Moment.seconds_injective h', hcivil, hnumber, fun date hdate => ?_,
    fun f hf => ?_, fun op => ⟨part_moment op m, ofMoment_bounded op h⟩⟩
  · exact Date.dayNumber_injective (hdate.trans hnumber.symm)
  · rw [hf.eq_dayNumber, hnumber]

theorem calendar_gregorian_last : ∃ m : Moment, m.seconds = i64Max ∧
    prometheusUtcCivilDate i64Max = (m.date.year, m.date.month, m.date.day) :=
  let ⟨m, hm, _, hcivil, _⟩ := calendar_gregorian (show InI64 i64Max by decide)
  ⟨m, hm, hcivil⟩

/-! ### Floats -/

theorem PromCalendarOp.seconds_inI64 (value : UInt64) : InI64 (seconds value) := by
  rw [seconds]
  cases hnumber : Binary64.number value with
  | none => exact show InI64 i64Max by decide
  | some n =>
      dsimp only
      split_ifs with hrange
      · rw [Bool.and_eq_true, Bool.and_eq_true, decide_eq_true_iff, decide_eq_true_iff] at hrange
        obtain ⟨⟨-, hlow⟩, hhigh⟩ := hrange
        have hmagnitude : Binary64.magnitude value < 0x43e0000000000000 := by
          rw [Binary64.number] at hnumber
          split_ifs at hnumber <;> simp only [Option.some.injEq] at hnumber <;> omega
        have := Binary64.truncated_lt hmagnitude
        constructor
        · rw [i64Min]; omega
        · rw [i64Max]; omega
      · exact show InI64 i64Max by decide

/-- **Every float has a date.** -/
theorem apply_moment (value : UInt64) : ∃ m : Moment, m.seconds = PromCalendarOp.seconds value ∧
    ∀ op : PromCalendarOp, op.apply value = some (op.ofMoment m) ∧ |op.ofMoment m| ≤ 2 ^ 53 := by
  obtain ⟨m, hm⟩ := exists_moment (PromCalendarOp.seconds value)
  refine ⟨m, hm, fun op => ⟨?_, ?_⟩⟩
  · rw [PromCalendarOp.apply, ← hm, part_moment]
  · exact ofMoment_bounded op (hm.symm ▸ PromCalendarOp.seconds_inI64 value)

/-- The float of 1709208000.0, which is on a leap day, and a float that is no number. -/
example : PromCalendarOp.dayOfYear.apply 0x41d9781c70000000 = some 60 ∧
    PromCalendarOp.year.apply 0x7ff8000000000000 = some 292277026596 := by decide +kernel

end Timeless.Query
