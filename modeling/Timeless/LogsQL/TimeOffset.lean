import Timeless.LogsQL.TimeFilter
import Timeless.Query.Calendar
import Timeless.Support.Decimal

/-!
# TimeOffset — result rows of a query with a time offset

A query with a time offset `d` shows a row of time `t` at `t + d`. The server prints the row first,
with its time as an RFC 3339 text, reads that text again and prints the shifted time. The row was
printed by chrono, which knows a quarter of a million years; the reader has the years that 64 bits of
nanoseconds have, and the sum is clamped to them. One row out of that range fails the query. Chrono is a
parameter (`Chrono`) with what is used of it.

* `queryRows_iff`: for which rows and offsets the rows of a query come out at the right time;
* `queryRows_fails`: a row of the year 4000, which the server ingests, fails the query.
-/

namespace Timeless.LogsQL

open Support Support.Calendar Codec Blocks Query

/-! ### Chrono -/

/-- A year of four digits, as RFC 3339 wants it. -/
def FourDigits (m : Moment) : Prop :=
  0 ≤ m.date.year ∧ m.date.year ≤ 9999

instance (m : Moment) : Decidable (FourDigits m) :=
  inferInstanceAs (Decidable (_ ∧ _))

def twoDigits (n : Nat) : Text := padTo 2 (decimal n)

/-- `2026-01-02T03:04:05`, the text of a moment in RFC 3339. -/
def dateTimeText (m : Moment) : Text :=
  padTo 4 (decimal m.date.year.toNat) ++ '-' :: twoDigits m.date.month ++ '-' :: twoDigits m.date.day ++
    'T' :: twoDigits m.hour ++ ':' :: twoDigits m.minute ++ ':' :: twoDigits m.second

/-- The digits behind the point of a second. -/
def fractionText (digits : Nat) (i : Int) : Text :=
  padTo digits (decimal (i % 1000000000 / 10 ^ (9 - digits)).toNat)

/-- What is used of chrono, with instants in nanoseconds from the epoch: for which ones there is a
`DateTime<Utc>`, two ways to print it, and the timestamp of the start of a month with some seconds added
to it. -/
structure Chrono where
  fromTimestamp : Int → Bool
  /-- `to_rfc3339_opts`, with so many digits of the second and `Z` -/
  toRfc3339 : Nat → Int → Text
  /-- `format("%Y-%m-%dT%H:%M:%S")` -/
  formatDateTime : Int → Text
  monthTimestamp : (year : Int) → (month : Nat) → (seconds : Int) → Option Int
  has_fourDigits : ∀ m i, m.seconds = i / 1000000000 → FourDigits m → fromTimestamp i = true
  toRfc3339_fourDigits : ∀ m i digits, m.seconds = i / 1000000000 → FourDigits m →
    toRfc3339 digits i = dateTimeText m ++ '.' :: fractionText digits i ++ ['Z']
  /-- other years have a sign -/
  toRfc3339_far : ∀ m i digits, m.seconds = i / 1000000000 → ¬FourDigits m →
    ∃ sign rest, toRfc3339 digits i = sign :: rest ∧ sign.isDigit = false
  formatDateTime_fourDigits : ∀ m i, m.seconds = i / 1000000000 → FourDigits m →
    formatDateTime i = dateTimeText m
  monthTimestamp_first : ∀ d : Date, d.day = 1 → 0 ≤ d.year ∧ d.year ≤ 9999 →
    ∀ seconds, 0 ≤ seconds → seconds < 31 * 86400 →
      monthTimestamp d.year d.month seconds = some (86400 * d.dayNumber + seconds)

variable (chrono : Chrono)

/-! ### Printing -/

/-- The digits of a fraction in the unit of the table. -/
def fractionDigits : TimestampUnit → Nat
  | .milliseconds => 3
  | .microseconds => 6

/-- A stored time as it is shown. -/
def formatTimestamp (ts : Int64) (unit : TimestampUnit) : Except String Text :=
  if chrono.fromTimestamp (instant unit ts) then
    .ok (chrono.toRfc3339 (fractionDigits unit) (instant unit ts))
  else .error s!"timestamp {ts.toInt} is outside the RFC3339 range"

/-- A shifted time, without zeros at the end of its fraction. -/
def formatVictorialogsTimestampNs (timestampNs : Int64) : Option Text :=
  if chrono.fromTimestamp timestampNs.toInt then
    let nanoseconds := timestampNs.toInt % 1000000000
    let fraction := padTo 9 (decimal nanoseconds.toNat)
    let shown := if nanoseconds = 0 then []
      else '.' :: (fraction.reverse.dropWhile (· = '0')).reverse
    some (chrono.formatDateTime timestampNs.toInt ++ shown ++ ['Z'])
  else none

/-! ### Reading -/

/-- A number of so many digits. -/
def timestampDigits (t : Text) (start length : Nat) : Option Nat :=
  let digits := (t.drop start).take length
  if digits.length = length ∧ digits.all Char.isDigit then some (decimalValue digits) else none

/-- The numbers of a text, with the fraction and the offset of the time zone in nanoseconds. -/
structure Fields where
  year : Nat
  month : Nat
  day : Nat
  hour : Nat
  minute : Nat
  second : Nat
  fraction : Int
  timezone : Int
  deriving DecidableEq

/-- The offset of a time zone, and what stands before it. -/
def readTimezone (tail : Text) : Option (Text × Int) :=
  let isSign : Char → Bool := fun ch => ch = '+' || ch = '-'
  let timezone := (tail.reverse.takeWhile (!isSign ·)).reverse
  if tail.getLast? = some 'Z' then some (tail.dropLast, 0)
  else match tail.reverse.dropWhile (!isSign ·) with
    | [] => some (tail, 0)
    | sign :: before => do
        let (hours, minutes) ←
          if timezone.length = 4 then
            pure (← timestampDigits timezone 0 2, ← timestampDigits timezone 2 2)
          else if timezone.length = 5 ∧ timezone[2]? = some ':' then
            pure (← timestampDigits timezone 0 2, ← timestampDigits timezone 3 2)
          else none
        if 24 < hours ∨ 60 < minutes then none
        else
          let offset : Int := hours * 3600000000000 + minutes * 60000000000
          some (before.reverse, if sign = '-' then -offset else offset)

/-- Nanoseconds out of up to nine digits. -/
def readFraction (fraction : Text) : Option Int :=
  let digits := if fraction.head? = some '.' then fraction.tail else fraction
  if fraction = [] then some 0
  else if digits ≠ [] ∧ digits.length ≤ 9 ∧ digits.all Char.isDigit then
    some ((decimalValue digits : Int) * 10 ^ (9 - digits.length))
  else none

/-- The parts of a time, not checked against the calendar. -/
def readFields (source : Text) : Option Fields := do
  if 19 ≤ source.length ∧ source[4]? = some '-' ∧ source[7]? = some '-' ∧
      (source[10]? = some 'T' ∨ source[10]? = some ' ') ∧ source[13]? = some ':' ∧
      source[16]? = some ':' then
    let year ← timestampDigits source 0 4
    let month ← timestampDigits source 5 2
    let day ← timestampDigits source 8 2
    let hour ← timestampDigits source 11 2
    let minute ← timestampDigits source 14 2
    let second ← timestampDigits source 17 2
    let (fraction, timezone) ← readTimezone (source.drop 19)
    return ⟨year, month, day, hour, minute, second, ← readFraction fraction, timezone⟩
  else none

/-- The months from the year 0 on. -/
def Fields.absoluteMonth (f : Fields) : Int :=
  f.year * 12 + f.month - 1

/-- The seconds from the start of the month, in whatever range. -/
def Fields.normalizedSeconds (f : Fields) : Int :=
  (f.day - 1) * 86400 + f.hour * 3600 + f.minute * 60 + f.second

/-- The first day of a month. -/
def firstOfMonth (absoluteMonth : Int) : Date :=
  ⟨absoluteMonth / 12, (absoluteMonth % 12 + 1).toNat, 1, by omega, by omega, le_refl _,
    daysIn_pos _ _⟩

/-- The second that the numbers name on the calendar. -/
def Fields.seconds (f : Fields) : Int :=
  86400 * (firstOfMonth f.absoluteMonth).dayNumber + f.normalizedSeconds

/-- The instant that a text stands for, in nanoseconds from the epoch. -/
def readInstant (source : Text) : Option Int :=
  (readFields source).map fun f => f.seconds * 1000000000 - f.timezone + f.fraction

/-- Saturating subtraction, which may leave an end of the type as it is. -/
def subVictorialogsInt64 (value offset : Int64) : Int64 :=
  if 0 ≤ offset then
    if value = Int64.maxValue then value
    else if value < Int64.minValue + offset then Int64.minValue
    else value - offset
  else
    if value = Int64.minValue then value
    else if Int64.maxValue + offset < value then Int64.maxValue
    else value - offset

/-- A time moved by an offset. -/
def addVictorialogsTime (timestampNs offsetNs : Int64) : Int64 :=
  subVictorialogsInt64 timestampNs (-offsetNs)

/-- The seconds that `i64` has in nanoseconds. -/
def InSeconds (seconds : Int) : Prop := -9223372036 ≤ seconds ∧ seconds < 9223372036

instance (seconds : Int) : Decidable (InSeconds seconds) :=
  inferInstanceAs (Decidable (_ ∧ _))

/-- A time as the server reads its own text. -/
def parseVictorialogsTimestampNs (source : Text) : Option Int64 := do
  let f ← readFields source
  if 1677 ≤ f.year ∧ f.year ≤ 2262 then
    let seconds ← chrono.monthTimestamp (f.absoluteMonth / 12) (f.absoluteMonth % 12 + 1).toNat
      f.normalizedSeconds
    if InSeconds seconds then
      return subVictorialogsInt64 (.ofInt (seconds * 1000000000)) (.ofInt f.timezone) +
        .ofInt f.fraction
    else none
  else none

/-! ### Rows -/

variable {N : Type} (js : SerdeJson N)

/-- A row as it is shown. -/
def responseRow (row : QueryRow) (unit : TimestampUnit) : Except String (Json N) := do
  let metadata ← (js.fromStr row.metadataJson).mapError fun err => s!"decode stored metadata: {err}"
  match metadata with
  | .object object =>
      let time ← formatTimestamp chrono row.ts unit
      let object := OrdMap.insert textLt "_time".toList (.string time) object
      let object := OrdMap.insert textLt "_msg".toList (.string row.message) object
      return .object (OrdMap.insert textLt "level".toList (.string row.level) object)
  | _ => .error "decode stored metadata: expected a map"

/-- The text under `_time`, if there is one. -/
def timeText : Json N → Option Text
  | .object object =>
      match OrdMap.get? textLt "_time".toList object with
      | some (.string timestamp) => some timestamp
      | _ => none
  | _ => none

/-- A row with another `_time`. -/
def withTime (time : Text) : Json N → Json N
  | .object object => .object (OrdMap.insert textLt "_time".toList (.string time) object)
  | row => row

/-- A shown row with its `_time` moved. -/
def shiftQueryTimeValue (row : Json N) (offsetNs : Int64) : Except String (Json N) := do
  match timeText row with
  | none => return row
  | some timestamp =>
      let shown := shownKey timestamp
      let timestampNs ← okOr (parseVictorialogsTimestampNs chrono timestamp)
        s!"cannot shift invalid query result timestamp {shown}"
      let shifted ← okOr
        (formatVictorialogsTimestampNs chrono (addVictorialogsTime timestampNs offsetNs))
        s!"shifted query result timestamp {shown} is out of range"
      return withTime shifted row

/-- A row of a query with an offset. -/
def responseRowWithTimeOffset (row : QueryRow) (unit : TimestampUnit) (timeOffsetNs : Int64) :
    Except String (Json N) := do
  let value ← responseRow chrono js row unit
  if timeOffsetNs ≠ 0 then shiftQueryTimeValue chrono value timeOffsetNs else return value

/-- The rows of a response; the first that fails is the response. -/
def queryRows (rows : List QueryRow) (unit : TimestampUnit) (timeOffsetNs : Int64) :
    Except String (List (Json N)) :=
  rows.mapM fun row => responseRowWithTimeOffset chrono js row unit timeOffsetNs

/-! ### What is printed is read -/

theorem timestampDigits_eq {t ds : Text} {start length : Nat} (h : (t.drop start).take length = ds)
    (hlength : ds.length = length) (hds : ∀ ch ∈ ds, ch.isDigit = true) :
    timestampDigits t start length = some (decimalValue ds) := by
  rw [timestampDigits, h, if_pos ⟨hlength, List.all_eq_true.mpr hds⟩]

variable {n : Nat}

theorem exists_two (h : n < 100) : ∃ a b, twoDigits n = [a, b] ∧
    (∀ ch ∈ [a, b], ch.isDigit = true) ∧ decimalValue [a, b] = n := by
  obtain ⟨hlength, hdigits, hvalue⟩ := @padTo_decimal 2 n (by decide) h
  obtain ⟨a, b, hds⟩ := List.length_eq_two.mp hlength
  rw [hds] at hdigits hvalue
  exact ⟨a, b, hds, hdigits, hvalue⟩

theorem exists_four {year : Int} (h : 0 ≤ year ∧ year ≤ 9999) : ∃ a b c d,
    padTo 4 (decimal year.toNat) = [a, b, c, d] ∧ (∀ ch ∈ [a, b, c, d], ch.isDigit = true) ∧
      decimalValue [a, b, c, d] = year.toNat := by
  obtain ⟨hlength, hdigits, hvalue⟩ := @padTo_decimal 4 year.toNat (by decide) (by omega)
  match hds : padTo 4 (decimal year.toNat), hlength with
  | [a, b, c, d], _ =>
      rw [hds] at hdigits hvalue
      exact ⟨a, b, c, d, rfl, hdigits, hvalue⟩

theorem readTimezone_z (t : Text) : readTimezone (t ++ ['Z']) = some (t, 0) := by
  simp [readTimezone]

/-- The numbers of a moment. -/
def Fields.ofMoment (m : Moment) (fraction : Int) : Fields :=
  ⟨m.date.year.toNat, m.date.month, m.date.day, m.hour, m.minute, m.second, fraction, 0⟩

theorem day_le_31 (d : Date) : d.day ≤ 31 := by
  have hle := d.day_le
  rw [daysIn] at hle
  split_ifs at hle <;> omega

variable {m : Moment} {t : Text}

theorem readFields_dateTimeText (hyear : FourDigits m) {fraction : Text} {n : Int}
    (hn : readFraction fraction = some n) :
    readFields (dateTimeText m ++ fraction ++ ['Z']) = some (.ofMoment m n) := by
  have hday : m.date.day < 100 := Nat.lt_of_le_of_lt (day_le_31 _) (by decide)
  obtain ⟨y₁, y₂, y₃, y₄, hy, hys, hyv⟩ := exists_four hyear
  obtain ⟨a₁, a₂, ha, has, hav⟩ := @exists_two m.date.month (by have := m.date.month_le; omega)
  obtain ⟨b₁, b₂, hb, hbs, hbv⟩ := exists_two hday
  obtain ⟨c₁, c₂, hc, hcs, hcv⟩ := @exists_two m.hour (by have := m.hour_lt; omega)
  obtain ⟨d₁, d₂, hd, hds, hdv⟩ := @exists_two m.minute (by have := m.minute_lt; omega)
  obtain ⟨e₁, e₂, he, hes, hev⟩ := @exists_two m.second (by have := m.second_lt; omega)
  obtain ⟨t, ht⟩ : ∃ t, t = dateTimeText m ++ fraction ++ ['Z'] := ⟨_, rfl⟩
  have htext : t = y₁ :: y₂ :: y₃ :: y₄ :: '-' :: a₁ :: a₂ :: '-' :: b₁ :: b₂ :: 'T' :: c₁ :: c₂ ::
      ':' :: d₁ :: d₂ :: ':' :: e₁ :: e₂ :: (fraction ++ ['Z']) := by
    rw [ht, dateTimeText, hy, ha, hb, hc, hd, he]
    simp
  have hseps : 19 ≤ t.length ∧ t[4]? = some '-' ∧ t[7]? = some '-' ∧
      (t[10]? = some 'T' ∨ t[10]? = some ' ') ∧ t[13]? = some ':' ∧ t[16]? = some ':' := by
    rw [htext]
    exact ⟨by simp, rfl, rfl, .inl rfl, rfl, rfl⟩
  have hyear : timestampDigits t 0 4 = some m.date.year.toNat :=
    hyv ▸ timestampDigits_eq (by rw [htext]; rfl) rfl hys
  have hmonth : timestampDigits t 5 2 = some m.date.month :=
    hav ▸ timestampDigits_eq (by rw [htext]; rfl) rfl has
  have hday : timestampDigits t 8 2 = some m.date.day :=
    hbv ▸ timestampDigits_eq (by rw [htext]; rfl) rfl hbs
  have hhour : timestampDigits t 11 2 = some m.hour :=
    hcv ▸ timestampDigits_eq (by rw [htext]; rfl) rfl hcs
  have hminute : timestampDigits t 14 2 = some m.minute :=
    hdv ▸ timestampDigits_eq (by rw [htext]; rfl) rfl hds
  have hsecond : timestampDigits t 17 2 = some m.second :=
    hev ▸ timestampDigits_eq (by rw [htext]; rfl) rfl hes
  have hlast : readTimezone (t.drop 19) = some (fraction, 0) := by
    rw [htext]
    exact readTimezone_z fraction
  rw [← ht, readFields, if_pos hseps, hyear, hmonth, hday, hhour, hminute, hsecond, hlast]
  simp [hn, Fields.ofMoment]

/-- A text that begins with a sign has no year. -/
theorem readFields_far {sign : Char} (h : sign.isDigit = false) (rest : Text) :
    readFields (sign :: rest) = none := by
  have hyear : timestampDigits (sign :: rest) 0 4 = none := by
    simp [timestampDigits, h]
  rw [readFields, hyear]
  split_ifs <;> rfl

/-- The month of a moment begins as many days before it as its day says. -/
theorem firstOfMonth_moment (hyear : FourDigits m) :
    (firstOfMonth (m.date.year.toNat * 12 + m.date.month - 1)).year = m.date.year ∧
      (firstOfMonth (m.date.year.toNat * 12 + m.date.month - 1)).dayNumber =
        m.date.dayNumber - m.date.day + 1 := by
  have hpos := m.date.month_pos
  have hle := m.date.month_le
  have hnonneg := hyear.1
  have hmonth : ((m.date.year.toNat * 12 + m.date.month - 1 : Int) % 12 + 1).toNat = m.date.month := by
    omega
  have hyear' : (m.date.year.toNat * 12 + m.date.month - 1 : Int) / 12 = m.date.year := by omega
  refine ⟨hyear', ?_⟩
  rw [firstOfMonth, Date.dayNumber, Date.dayOfYear, Date.dayNumber, Date.dayOfYear]
  dsimp only
  rw [hmonth, hyear']
  push_cast
  omega

theorem seconds_moment (hyear : FourDigits m) (n : Int) :
    (Fields.ofMoment m n).seconds = m.seconds := by
  rw [Fields.seconds, Fields.absoluteMonth, Fields.normalizedSeconds, Fields.ofMoment, Moment.seconds]
  dsimp only
  rw [(firstOfMonth_moment hyear).2]
  omega

/-- Chrono counts the day, the hour, the minute and the second from the start of the month. -/
theorem monthTimestamp_moment (hyear : FourDigits m) (n : Int) :
    chrono.monthTimestamp ((Fields.ofMoment m n).absoluteMonth / 12)
        ((Fields.ofMoment m n).absoluteMonth % 12 + 1).toNat (Fields.ofMoment m n).normalizedSeconds =
      some m.seconds := by
  have hin : 0 ≤ (Fields.ofMoment m n).normalizedSeconds ∧
      (Fields.ofMoment m n).normalizedSeconds < 31 * 86400 := by
    have := m.date.day_pos
    have := day_le_31 m.date
    have := m.hour_lt
    have := m.minute_lt
    have := m.second_lt
    rw [Fields.normalizedSeconds, Fields.ofMoment]
    dsimp only
    omega
  rw [← seconds_moment hyear n]
  exact chrono.monthTimestamp_first (firstOfMonth (Fields.ofMoment m n).absoluteMonth) rfl
    ((firstOfMonth_moment hyear).1.symm ▸ hyear) _ hin.1 hin.2

/-! ### Fractions -/

theorem readFraction_dot {ds : Text} (hne : ds ≠ []) (hlength : ds.length ≤ 9)
    (hds : ∀ ch ∈ ds, ch.isDigit = true) :
    readFraction ('.' :: ds) = some ((decimalValue ds : Int) * 10 ^ (9 - ds.length)) := by
  simp only [readFraction, List.head?_cons, if_true, List.tail_cons, reduceCtorEq, if_false]
  rw [if_pos ⟨hne, hlength, List.all_eq_true.mpr hds⟩]

theorem readFraction_padded {w : Nat} (hw : 0 < w) (hw' : w ≤ 9) (h : n < 10 ^ w) :
    readFraction ('.' :: padTo w (decimal n)) = some ((n : Int) * 10 ^ (9 - w)) := by
  obtain ⟨hlength, hdigits, hvalue⟩ := padTo_decimal hw h
  have hne : padTo w (decimal n) ≠ [] := List.ne_nil_of_length_pos (by rwa [hlength])
  rw [readFraction_dot hne (hlength.trans_le hw') hdigits, hlength, hvalue]

theorem decimalValue_zeros (ds : Text) (k : Nat) :
    decimalValue (ds ++ List.replicate k '0') = decimalValue ds * 10 ^ k := by
  induction k with
  | zero => simp
  | succ k ih =>
      rw [List.replicate_succ', ← List.append_assoc, decimalValue, List.foldl_append, ← decimalValue,
        ih, pow_succ, ← Nat.mul_assoc]
      rfl

/-- Zeros at the end of a fraction change nothing. -/
theorem readFraction_trimmed (h : n < 10 ^ 9) (hn : n ≠ 0) :
    readFraction ('.' :: ((padTo 9 (decimal n)).reverse.dropWhile (· = '0')).reverse) = some (n : Int) := by
  obtain ⟨hlength, hdigits, hvalue⟩ := @padTo_decimal 9 n (by decide) h
  obtain ⟨ds, hds⟩ : ∃ ds, ds = ((padTo 9 (decimal n)).reverse.dropWhile (· = '0')).reverse := ⟨_, rfl⟩
  obtain ⟨k, hk⟩ : ∃ k, padTo 9 (decimal n) = ds ++ List.replicate k '0' := by
    refine ⟨((padTo 9 (decimal n)).reverse.takeWhile (· = '0')).length, ?_⟩
    have hzeros : (padTo 9 (decimal n)).reverse.takeWhile (· = '0') =
        List.replicate ((padTo 9 (decimal n)).reverse.takeWhile (· = '0')).length '0' :=
      List.eq_replicate_iff.mpr ⟨rfl, fun ch hch => by simpa using List.mem_takeWhile_imp hch⟩
    have hsplit := congrArg List.reverse (@List.takeWhile_append_dropWhile _
      (fun ch => decide (ch = '0')) (padTo 9 (decimal n)).reverse)
    rw [hzeros, List.reverse_append, List.reverse_replicate, List.reverse_reverse, ← hds] at hsplit
    simpa using hsplit.symm
  rw [hk] at hlength hdigits hvalue
  rw [List.length_append, List.length_replicate] at hlength
  rw [decimalValue_zeros] at hvalue
  have hne : ds ≠ [] := by
    rintro rfl
    exact hn (by simpa [decimalValue] using hvalue.symm)
  rw [← hds, readFraction_dot hne (by omega) fun ch hch => hdigits ch (List.mem_append_left _ hch),
    show 9 - ds.length = k by omega]
  exact congrArg some (by exact_mod_cast hvalue)

/-! ### Texts and instants -/

theorem readInstant_dateTimeText (hyear : FourDigits m) {fraction : Text} {n : Int}
    (hn : readFraction fraction = some n) :
    readInstant (dateTimeText m ++ fraction ++ ['Z']) = some (m.seconds * 1000000000 + n) := by
  rw [readInstant, readFields_dateTimeText hyear hn, Option.map_some,
    seconds_moment hyear]
  exact congrArg some (congrArg (· + n) (Int.sub_zero _))

/-- The years that 64 bits of nanoseconds reach. -/
theorem year_of_seconds (hlow : -9223372037 ≤ m.seconds) (hhigh : m.seconds ≤ 9223372036) :
    1677 ≤ m.date.year ∧ m.date.year ≤ 2262 := by
  have hnumber := m.dayNumber_eq
  have hpos := m.date.dayOfYear_pos
  have hle := m.date.dayOfYear_le
  have hdays : daysBefore m.date.year 12 ≤ 335 := by
    rw [daysBefore_twelve]
    split_ifs <;> decide
  rw [Date.dayNumber, daysBeforeYear] at hnumber
  omega

/-- A printed timestamp has the fraction of its instant. -/
theorem readFraction_native (unit : TimestampUnit) (ts : Int64) :
    readFraction ('.' :: fractionText (fractionDigits unit) (instant unit ts)) =
      some (instant unit ts % 1000000000) := by
  rw [fractionText, readFraction_padded] <;>
    cases unit <;> simp only [fractionDigits, instant, timestampUnitNanoseconds]
  · congr 1
    omega
  · congr 1
    omega
  all_goals omega

/-- An instant whose year has four digits. -/
def FourDigitYear (i : Int) : Prop :=
  ∃ m : Moment, m.seconds = i / 1000000000 ∧ FourDigits m

/-- A text of an instant: a moment with the seconds, and the rest of the second. -/
def Shows (t : Text) (i : Int) : Prop :=
  ∃ m fraction, m.seconds = i / 1000000000 ∧ FourDigits m ∧
    readFraction fraction = some (i % 1000000000) ∧ t = dateTimeText m ++ fraction ++ ['Z']

/-- The text of a row: of a year without four digits only the sign counts. -/
def Prints (t : Text) (i : Int) : Prop :=
  Shows t i ∨ ¬FourDigitYear i ∧ ∃ sign rest, t = sign :: rest ∧ sign.isDigit = false

variable {chrono} {unit : TimestampUnit}

theorem formatTimestamp_prints {ts : Int64} (h : formatTimestamp chrono ts unit = .ok t) :
    Prints t (instant unit ts) := by
  rw [formatTimestamp] at h
  split_ifs at h
  obtain rfl := Except.ok.inj h
  obtain ⟨m, hm⟩ := exists_moment (instant unit ts / 1000000000)
  by_cases hyear : FourDigits m
  · exact .inl ⟨m, _, hm, hyear, readFraction_native unit ts, chrono.toRfc3339_fourDigits m _ _ hm hyear⟩
  · refine .inr ⟨?_, chrono.toRfc3339_far m _ _ hm hyear⟩
    rintro ⟨m', hm', hyear'⟩
    exact hyear (Moment.seconds_injective (hm.trans hm'.symm) ▸ hyear')

theorem Shows.readInstant {i : Int} (h : Shows t i) : readInstant t = some i := by
  obtain ⟨m, fraction, hm, hyear, hfraction, rfl⟩ := h
  rw [readInstant_dateTimeText hyear hfraction, hm]
  congr 1
  omega

theorem subVictorialogsInt64_zero (value : Int64) : subVictorialogsInt64 value 0 = value := by
  have hmin : ¬value < Int64.minValue + 0 := by
    rw [Int64.add_zero, Int64.not_lt]
    exact Int64.minValue_le value
  rw [subVictorialogsInt64, if_pos (by decide), if_neg hmin, Int64.sub_zero, ite_self]

/-- **Reading a printed row.** The instant comes back if its second is one of those of 64 bits; else
nothing does. -/
theorem Prints.parse {i : Int} (h : Prints t i) :
    (InSeconds (i / 1000000000) →
      ∃ ns, parseVictorialogsTimestampNs chrono t = some ns ∧ ns.toInt = i) ∧
    (¬InSeconds (i / 1000000000) → parseVictorialogsTimestampNs chrono t = none) := by
  obtain ⟨m, fraction, hm, hyear, hfraction, rfl⟩ | ⟨hfar, sign, rest, rfl, hsign⟩ := h
  · have hread := readFields_dateTimeText hyear hfraction
    rw [parseVictorialogsTimestampNs, hread, ← hm]
    simp only [Option.bind_eq_bind, Option.bind_some, monthTimestamp_moment chrono hyear]
    rw [Fields.ofMoment]
    dsimp only
    constructor
    · intro hin
      obtain ⟨hlow, hhigh⟩ := hin
      have hyears := @year_of_seconds m (by omega) (by omega)
      rw [if_pos ⟨by omega, by omega⟩, if_pos ⟨hlow, hhigh⟩]
      refine ⟨_, rfl, ?_⟩
      rw [show Int64.ofInt 0 = 0 from rfl, subVictorialogsInt64_zero, Int64.toInt_add,
        Int64.toInt_ofInt_of_le (by omega) (by omega), Int64.toInt_ofInt_of_le (by omega) (by omega),
        Int.bmod_eq_of_le (by omega) (by omega)]
      omega
    · intro hin
      rw [if_neg hin]
      split_ifs <;> rfl
  · rw [parseVictorialogsTimestampNs, readFields_far hsign]
    refine ⟨fun hin => ?_, fun _ => rfl⟩
    obtain ⟨m, hm⟩ := exists_moment (i / 1000000000)
    obtain ⟨hlow, hhigh⟩ := hin
    have hyears := @year_of_seconds m (by omega) (by omega)
    exact absurd ⟨m, hm, by omega, by omega⟩ hfar

/-- Whatever 64 bits hold is printed. -/
theorem formatVictorialogsTimestampNs_shows (ns : Int64) :
    ∃ t, formatVictorialogsTimestampNs chrono ns = some t ∧ readInstant t = some ns.toInt := by
  have hlow := ns.le_toInt
  have hhigh := ns.toInt_lt
  obtain ⟨m, hm⟩ := exists_moment (ns.toInt / 1000000000)
  have hyears := @year_of_seconds m (by omega) (by omega)
  have hyear : FourDigits m := ⟨by omega, by omega⟩
  have hfraction : readFraction (if ns.toInt % 1000000000 = 0 then [] else '.' ::
      ((padTo 9 (decimal (ns.toInt % 1000000000).toNat)).reverse.dropWhile (· = '0')).reverse) =
      some (ns.toInt % 1000000000) := by
    split_ifs with hzero
    · rw [hzero]
      rfl
    · rw [readFraction_trimmed (by omega) (by omega)]
      congr 1
      omega
  rw [formatVictorialogsTimestampNs, if_pos (chrono.has_fourDigits m _ hm hyear),
    chrono.formatDateTime_fourDigits m _ hm hyear]
  exact ⟨_, rfl, Shows.readInstant ⟨m, _, hm, hyear, hfraction, rfl⟩⟩

theorem toInt_subVictorialogsInt64 {value : Int64} (hmin : value ≠ Int64.minValue)
    (hmax : value ≠ Int64.maxValue) (offset : Int64) :
    (subVictorialogsInt64 value offset).toInt =
      max (-9223372036854775808) (min 9223372036854775807 (value.toInt - offset.toInt)) := by
  have hlow : Int64.minValue.toInt = -9223372036854775808 := by decide
  have hhigh : Int64.maxValue.toInt = 9223372036854775807 := by decide
  have hv := value.le_toInt
  have hv' := value.toInt_lt
  have ho := offset.le_toInt
  have ho' := offset.toInt_lt
  have hsub (h : -9223372036854775808 ≤ value.toInt - offset.toInt)
      (h' : value.toInt - offset.toInt ≤ 9223372036854775807) :
      (value - offset).toInt = value.toInt - offset.toInt := by
    rw [Int64.toInt_sub, Int.bmod_eq_of_le (by omega) (by omega)]
  rw [subVictorialogsInt64]
  by_cases hsign : 0 ≤ offset
  · rw [if_pos hsign, if_neg hmax]
    rw [Int64.le_iff_toInt_le, Int64.toInt_zero] at hsign
    have hbound : (Int64.minValue + offset).toInt = -9223372036854775808 + offset.toInt := by
      rw [Int64.toInt_add, hlow, Int.bmod_eq_of_le (by omega) (by omega)]
    simp only [Int64.lt_iff_toInt_lt, hbound]
    split_ifs with hclamp
    · rw [hlow]
      omega
    · rw [hsub (by omega) (by omega)]
      omega
  · rw [if_neg hsign, if_neg hmin]
    rw [Int64.le_iff_toInt_le, Int64.toInt_zero] at hsign
    have hbound : (Int64.maxValue + offset).toInt = 9223372036854775807 + offset.toInt := by
      rw [Int64.toInt_add, hhigh, Int.bmod_eq_of_le (by omega) (by omega)]
    simp only [Int64.lt_iff_toInt_lt, hbound]
    split_ifs with hclamp
    · rw [hhigh]
      omega
    · rw [hsub (by omega) (by omega)]
      omega

/-- **The clamped sum** is the sum if that is in 64 bits and the offset has a negative. -/
theorem toInt_addVictorialogsTime {ns : Int64} (h : InSeconds (ns.toInt / 1000000000)) (d : Int64) :
    (addVictorialogsTime ns d).toInt = ns.toInt + d.toInt ↔
      d ≠ Int64.minValue ∧ Int64.minValue.toInt ≤ ns.toInt + d.toInt ∧
        ns.toInt + d.toInt ≤ Int64.maxValue.toInt := by
  obtain ⟨hlow, hhigh⟩ := h
  have hmin : Int64.minValue.toInt = -9223372036854775808 := by decide
  have hmax : Int64.maxValue.toInt = 9223372036854775807 := by decide
  have hne : ns ≠ Int64.minValue := by
    rintro rfl
    omega
  have hne' : ns ≠ Int64.maxValue := by
    rintro rfl
    omega
  rw [addVictorialogsTime, toInt_subVictorialogsInt64 hne hne', hmin, hmax]
  by_cases heq : d = Int64.minValue
  · -- it is its own negative
    subst heq
    rw [show (-Int64.minValue).toInt = -9223372036854775808 by decide, hmin]
    simp only [ne_eq, not_true_eq_false, false_and, iff_false]
    omega
  · have hd := d.le_toInt
    have hd' := d.toInt_lt
    have hd'' : d.toInt ≠ -9223372036854775808 := fun hd => heq (Int64.toInt_inj.mp (hd.trans hmin.symm))
    have hneg : (-d).toInt = -d.toInt := by
      rw [Int64.toInt_neg, Int.bmod_eq_of_le (by omega) (by omega)]
    rw [hneg]
    simp only [ne_eq, heq, not_false_eq_true, true_and]
    omega

/-! ### The rows of a query -/

/-- The offsets under which a timestamp comes out right: none; or the second of the timestamp and the
shifted instant are in 64 bits of nanoseconds. -/
def Shiftable (unit : TimestampUnit) (ts d : Int64) : Prop :=
  d = 0 ∨ InSeconds (instant unit ts / 1000000000) ∧ d ≠ Int64.minValue ∧
    Int64.minValue.toInt ≤ instant unit ts + d.toInt ∧
    instant unit ts + d.toInt ≤ Int64.maxValue.toInt

/-- The row shows an instant. -/
def ShownAt (i : Int) (row : Json N) : Prop :=
  ∃ t, timeText row = some t ∧ readInstant t = some i

variable {js}

theorem timeText_withTime {row : Json N} (h : timeText row = some t) (time : Text) :
    timeText (withTime time row) = some time := by
  cases row with
  | object object =>
      rw [withTime, timeText, OrdMap.insert, OrdMap.get?_alter textLt_linear, if_pos rfl]
  | _ => cases h

variable {row : QueryRow}

theorem responseRow_eq_ok {value : Json N} (h : responseRow chrono js row unit = .ok value) :
    ∃ t, formatTimestamp chrono row.ts unit = .ok t ∧ timeText value = some t := by
  rw [responseRow] at h
  obtain ⟨metadata, -, h⟩ := of_bind h
  cases metadata with
  | object object =>
      obtain ⟨t, ht, rfl⟩ := bind_pure_eq_ok.mp h
      refine ⟨t, ht, ?_⟩
      rw [timeText, OrdMap.insert, OrdMap.insert, OrdMap.insert, OrdMap.get?_alter textLt_linear,
        if_neg (by decide), OrdMap.get?_alter textLt_linear, if_neg (by decide),
        OrdMap.get?_alter textLt_linear, if_pos rfl]
  | _ => cases h

variable {fields : List (Text × Json N)}

/-- A row with readable metadata and a year of four digits is printed. -/
theorem responseRow_ok (unit : TimestampUnit)
    (hmeta : js.fromStr row.metadataJson = .ok (.object fields))
    (hyear : FourDigitYear (instant unit row.ts)) :
    ∃ value, responseRow chrono js row unit = .ok value := by
  obtain ⟨m, hm, hyear⟩ := hyear
  rw [responseRow, hmeta, formatTimestamp, if_pos (chrono.has_fourDigits m _ hm hyear)]
  exact ⟨_, rfl⟩

theorem shiftQueryTimeValue_eq_ok {row value : Json N} (h : timeText row = some t) {d : Int64} :
    shiftQueryTimeValue chrono row d = .ok value ↔
      ∃ ns time, parseVictorialogsTimestampNs chrono t = some ns ∧
        formatVictorialogsTimestampNs chrono (addVictorialogsTime ns d) = some time ∧
        withTime time row = value := by
  rw [shiftQueryTimeValue, h]
  simp only [bind_eq_ok, okOr_eq_ok, pure, Except.pure, Except.ok.injEq]
  constructor
  · rintro ⟨ns, hns, time, htime, rfl⟩
    exact ⟨ns, time, hns, htime, rfl⟩
  · rintro ⟨ns, time, hns, htime, rfl⟩
    exact ⟨ns, hns, time, htime, rfl⟩

/-- **A shifted row.** Whether it comes out right depends on its second and on the sum. -/
theorem shift_shownAt {row : Json N} (h : timeText row = some t) {i : Int} (ht : Prints t i)
    (d : Int64) :
    (∃ value, shiftQueryTimeValue chrono row d = .ok value ∧ ShownAt (i + d.toInt) value) ↔
      InSeconds (i / 1000000000) ∧ d ≠ Int64.minValue ∧ Int64.minValue.toInt ≤ i + d.toInt ∧
        i + d.toInt ≤ Int64.maxValue.toInt := by
  by_cases hin : InSeconds (i / 1000000000)
  · obtain ⟨ns, hns, rfl⟩ := ht.parse.1 hin
    obtain ⟨time, htime, hread⟩ := formatVictorialogsTimestampNs_shows (addVictorialogsTime ns d)
    have hshift : shiftQueryTimeValue chrono row d = .ok (withTime time row) :=
      (shiftQueryTimeValue_eq_ok h).mpr ⟨ns, time, hns, htime, rfl⟩
    rw [← toInt_addVictorialogsTime hin]
    constructor
    · rintro ⟨value, hvalue, t', ht', hread'⟩
      obtain rfl := Except.ok.inj (hshift.symm.trans hvalue)
      obtain rfl := Option.some.inj ((timeText_withTime h time).symm.trans ht')
      exact ⟨hin, Option.some.inj (hread.symm.trans hread')⟩
    · rintro ⟨-, hsum⟩
      exact ⟨_, hshift, time, timeText_withTime h time, hsum ▸ hread⟩
  · refine iff_of_false ?_ fun hall => hin hall.1
    rintro ⟨value, hvalue, -⟩
    obtain ⟨ns, _, hns, -⟩ := (shiftQueryTimeValue_eq_ok h).mp hvalue
    rw [ht.parse.2 hin] at hns
    cases hns

/-- **One row.** -/
theorem responseRowWithTimeOffset_iff (chrono : Chrono) {d : Int64}
    (hmeta : js.fromStr row.metadataJson = .ok (.object fields))
    (hyear : FourDigitYear (instant unit row.ts + d.toInt)) :
    (∃ value, responseRowWithTimeOffset chrono js row unit d = .ok value ∧
      ShownAt (instant unit row.ts + d.toInt) value) ↔ Shiftable unit row.ts d := by
  by_cases hd : d = 0
  · subst hd
    rw [Int64.toInt_zero, Int.add_zero] at hyear ⊢
    obtain ⟨value, hvalue⟩ := responseRow_ok unit hmeta hyear
    obtain ⟨t, hformat, ht⟩ := responseRow_eq_ok hvalue
    refine iff_of_true ⟨value, ?_, t, ht, ?_⟩ (.inl rfl)
    · rw [responseRowWithTimeOffset, hvalue]
      rfl
    · exact ((formatTimestamp_prints hformat).resolve_right fun hfar => hfar.1 hyear).readInstant
  · rw [Shiftable, or_iff_right hd]
    constructor
    · rintro ⟨value, hvalue, hshown⟩
      rw [responseRowWithTimeOffset] at hvalue
      obtain ⟨printed, hprinted, hvalue⟩ := of_bind hvalue
      rw [if_pos hd] at hvalue
      obtain ⟨t, hformat, ht⟩ := responseRow_eq_ok hprinted
      exact (shift_shownAt ht (formatTimestamp_prints hformat) d).mp ⟨value, hvalue, hshown⟩
    · intro hshift
      obtain ⟨hlow, hhigh⟩ := hshift.1
      obtain ⟨m, hm⟩ := exists_moment (instant unit row.ts / 1000000000)
      have hyears := @year_of_seconds m (by omega) (by omega)
      obtain ⟨printed, hprinted⟩ := responseRow_ok unit hmeta ⟨m, hm, by omega, by omega⟩
      obtain ⟨t, hformat, ht⟩ := responseRow_eq_ok hprinted
      obtain ⟨value, hvalue, hshown⟩ := (shift_shownAt ht (formatTimestamp_prints hformat) d).mpr hshift
      refine ⟨value, ?_, hshown⟩
      rw [responseRowWithTimeOffset, hprinted]
      exact (if_pos hd).trans hvalue

/-- **Rows under an offset.** Where the shifted times have years of four digits, the rows of a query
are rendered, each at its shifted time, exactly if every one of them is in the range of 64 bits of
nanoseconds before and after. -/
theorem queryRows_iff (chrono : Chrono) (js : SerdeJson N) (rows : List QueryRow)
    (unit : TimestampUnit) (d : Int64)
    (hmeta : ∀ row ∈ rows, ∃ fields, js.fromStr row.metadataJson = .ok (.object fields))
    (hyear : ∀ row ∈ rows, FourDigitYear (instant unit row.ts + d.toInt)) :
    (∃ values, queryRows chrono js rows unit d = .ok values ∧
      List.Forall₂ (fun row value => ShownAt (instant unit row.ts + d.toInt) value) rows values) ↔
      ∀ row ∈ rows, Shiftable unit row.ts d := by
  simp only [queryRows, mapM_eq_ok]
  induction rows with
  | nil => exact iff_of_true ⟨[], .nil, .nil⟩ fun _ h => nomatch h
  | cons row rows ih =>
      have ih := ih (fun r hr => hmeta r (List.mem_cons_of_mem _ hr))
        fun r hr => hyear r (List.mem_cons_of_mem _ hr)
      obtain ⟨fields, hfields⟩ := hmeta row List.mem_cons_self
      have hrow := responseRowWithTimeOffset_iff chrono hfields (hyear row List.mem_cons_self)
      rw [List.forall_mem_cons, ← hrow, ← ih]
      constructor
      · rintro ⟨_, hvalues, hshown⟩
        cases hvalues with
        | cons hvalue hvalues =>
            obtain ⟨hshown, hall⟩ := List.forall₂_cons.mp hshown
            exact ⟨⟨_, hvalue, hshown⟩, _, hvalues, hall⟩
      · rintro ⟨⟨value, hvalue, hshown⟩, values, hvalues, hall⟩
        exact ⟨value :: values, .cons hvalue hvalues, .cons hshown hall⟩

def someRow (ts : Int64) : QueryRow := ⟨ts, "info".toList, "disk full".toList, "\x7b\x7d".toList⟩

/-- A library to which every text is the empty object. -/
def emptyMetadata : SerdeJson Empty := ⟨fun _ => .ok (.object []), fun _ => .ok "\x7b\x7d".toList⟩

/-- The moment of a second. -/
def momentOf (seconds : Int) : Moment where
  date := {
    year := (prometheusUtcCivilDate seconds).1
    month := (prometheusUtcCivilDate seconds).2.1
    day := (prometheusUtcCivilDate seconds).2.2
    month_pos := by
      obtain ⟨date, hdate, -⟩ := civil_dayNumber seconds
      exact hdate ▸ date.month_pos
    month_le := by
      obtain ⟨date, hdate, -⟩ := civil_dayNumber seconds
      exact hdate ▸ date.month_le
    day_pos := by
      obtain ⟨date, hdate, -⟩ := civil_dayNumber seconds
      exact hdate ▸ date.day_pos
    day_le := by
      obtain ⟨date, hdate, -⟩ := civil_dayNumber seconds
      exact hdate ▸ date.day_le }
  hour := (seconds % 86400 / 3600).toNat
  minute := (seconds % 3600 / 60).toNat
  second := (seconds % 60).toNat
  hour_lt := by omega
  minute_lt := by omega
  second_lt := by omega

theorem momentOf_seconds (seconds : Int) : (momentOf seconds).seconds = seconds := by
  obtain ⟨date, hdate, hnumber⟩ := civil_dayNumber seconds
  have hsame : (momentOf seconds).date = date := Date.ext (congrArg (·.1) hdate)
    (congrArg (·.2.1) hdate) (congrArg (·.2.2) hdate)
  rw [Moment.seconds, hsame, hnumber, momentOf]
  dsimp only
  omega

theorem eq_momentOf {i : Int} (h : m.seconds = i / 1000000000) :
    momentOf (i / 1000000000) = m :=
  Moment.seconds_injective ((momentOf_seconds _).trans h.symm)

/-- The text of a moment, in which a year outside the four digits has a sign. -/
def gregorianText (m : Moment) : Text :=
  if FourDigits m then dateTimeText m
  else (if m.date.year < 0 then '-' else '+') :: dateTimeText m

theorem gregorianText_far (h : ¬FourDigits m) (tail : Text) :
    ∃ sign rest, gregorianText m ++ tail = sign :: rest ∧ sign.isDigit = false := by
  rw [gregorianText, if_neg h]
  refine ⟨_, _, List.cons_append, ?_⟩
  split_ifs <;> rfl

theorem FourDigits.chrono_years (h : FourDigits m) :
    -262143 ≤ m.date.year ∧ m.date.year ≤ 262142 :=
  ⟨by have := h.1; omega, by have := h.2; omega⟩

theorem firstOfMonth_self {d : Date} (hday : d.day = 1) :
    firstOfMonth (d.year * 12 + d.month - 1) = d := by
  have hpos := d.month_pos
  have hle := d.month_le
  refine Date.ext ?_ ?_ hday.symm <;> simp only [firstOfMonth] <;> omega

/-- The Gregorian calendar, in the years from -262143 to 262142. -/
def gregorian : Chrono where
  fromTimestamp i := -262143 ≤ (momentOf (i / 1000000000)).date.year &&
    (momentOf (i / 1000000000)).date.year ≤ 262142
  toRfc3339 digits i :=
    gregorianText (momentOf (i / 1000000000)) ++ ('.' :: fractionText digits i ++ ['Z'])
  formatDateTime i := gregorianText (momentOf (i / 1000000000))
  monthTimestamp year month seconds :=
    some (86400 * (firstOfMonth (year * 12 + month - 1)).dayNumber + seconds)
  has_fourDigits m i h hyear := by
    rw [eq_momentOf h, Bool.and_eq_true, decide_eq_true_eq, decide_eq_true_eq]
    exact hyear.chrono_years
  toRfc3339_fourDigits m i digits h hyear := by
    rw [eq_momentOf h, gregorianText, if_pos hyear, List.append_assoc]
  toRfc3339_far m i digits h hyear := by
    rw [eq_momentOf h]
    exact gregorianText_far hyear _
  formatDateTime_fourDigits m i h hyear := by
    rw [eq_momentOf h, gregorianText, if_pos hyear]
  monthTimestamp_first d hday hyear seconds _ _ := by rw [firstOfMonth_self hday]

/-- An hour is added to two rows of 2026, with and without a fraction. -/
theorem queryRows_iff_hour : ∃ values,
    queryRows gregorian emptyMetadata [someRow 1767225600000, someRow 1767225600250] .milliseconds
        3600000000000 = .ok values ∧
      List.Forall₂ (fun row value => ShownAt (instant .milliseconds row.ts + 3600000000000) value)
        [someRow 1767225600000, someRow 1767225600250] values := by
  refine (queryRows_iff gregorian emptyMetadata [someRow 1767225600000, someRow 1767225600250]
    .milliseconds 3600000000000 (fun row hrow => ⟨_, rfl⟩) fun row hrow => ?_).mpr fun row hrow => ?_
  · refine ⟨momentOf 1767229200, ?_, by decide +kernel⟩
    rw [momentOf_seconds]
    rcases List.mem_pair.mp hrow with rfl | rfl <;> decide +kernel
  · rcases List.mem_pair.mp hrow with rfl | rfl <;> exact .inr (by decide +kernel)

/-- A row of the year 4000 is ingested, and fails the query that asks for one second later. -/
theorem queryRows_fails : normalizeIntegerTime 64060588800 .milliseconds = 64060588800000 ∧
    FourDigitYear (instant .milliseconds 64060588800000 + 1000000000) ∧
    queryRows gregorian emptyMetadata [someRow 64060588800000] .milliseconds 1000000000 =
      .error "cannot shift invalid query result timestamp \"4000-01-01T00:00:00.000Z\"" :=
  ⟨by decide +kernel, ⟨momentOf 64060588801, by decide +kernel, by decide +kernel⟩, by rfl⟩

end Timeless.LogsQL
