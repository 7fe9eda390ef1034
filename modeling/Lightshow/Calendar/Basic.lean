/-!
# The calendar

Dates of the Gregorian calendar, extended to all years, and times of day that
allow for a leap second.

* `Date`, `Date.Exists`, `TimeOfDay`, `TimeOfDay.Exists` — dates and times, and which
  of them there are.
* `Date.dayNumber` — days counted from the first of January 1970.
* `Date.text`, `TimeOfDay.text`, `Moment.text` — how they are written.
-/

namespace Lightshow

/-- A year, a month and a day of the month. -/
structure Date where
  year : Int
  month : Nat
  day : Nat
  deriving DecidableEq, Repr

/-- An hour, a minute and a second; the second 60 is a leap second. -/
structure TimeOfDay where
  hour : Nat
  minute : Nat
  second : Nat
  deriving DecidableEq, Repr

/-- A date and a time of day, without a time zone. -/
structure Moment where
  date : Date
  time : TimeOfDay
  deriving DecidableEq, Repr

/-! ### Dates -/

namespace Date

/-- The leap years: those divisible by four, but of the full centuries only those
divisible by four hundred. -/
def isLeap (year : Int) : Bool :=
  year % 4 = 0 && (year % 100 != 0 || year % 400 = 0)

/-- The length of a month, and zero if there is no such month. -/
def monthLength (year : Int) : Nat → Nat
  | 1 | 3 | 5 | 7 | 8 | 10 | 12 => 31
  | 4 | 6 | 9 | 11 => 30
  | 2 => if isLeap year then 29 else 28
  | _ => 0

/-- The first and the last year of the calendar. -/
def firstYear : Int := -262143

@[inherit_doc firstYear] def lastYear : Int := 262142

/-- The dates of the calendar. -/
def Exists (d : Date) : Prop :=
  firstYear ≤ d.year ∧ d.year ≤ lastYear ∧ 1 ≤ d.day ∧ d.day ≤ monthLength d.year d.month

instance (d : Date) : Decidable d.Exists := by unfold Exists; infer_instance

/-- The days of the years before a year, counted from the year 1. -/
def daysBeforeYear (year : Int) : Int :=
  let y := year - 1
  365 * y + y / 4 - y / 100 + y / 400

/-- The days of a year before one of its months. -/
def daysBeforeMonth (year : Int) (month : Nat) : Nat :=
  (List.range month).foldl (fun days m => days + monthLength year m) 0

/-- The day's number, the first of January 1970 being zero. -/
def dayNumber (d : Date) : Int :=
  daysBeforeYear d.year + daysBeforeMonth d.year d.month + d.day - 1 - 719162

/-- The day of the week, Sunday being zero. -/
def weekday (d : Date) : Nat := ((d.dayNumber + 4) % 7).toNat

end Date

/-! ### Times of day -/

/-- The times of day that there are. -/
def TimeOfDay.Exists (t : TimeOfDay) : Prop := t.hour < 24 ∧ t.minute < 60 ∧ t.second ≤ 60

instance (t : TimeOfDay) : Decidable t.Exists := by unfold TimeOfDay.Exists; infer_instance

/-! ### Writing -/

/-- A number in at least `width` digits. -/
def paddedTo (width n : Nat) : String :=
  let ds := Nat.toDigits 10 n
  String.ofList (List.replicate (width - ds.length) '0' ++ ds)

/-- A year has at least four digits, and outside 0 to 9999 a sign. -/
def Date.yearText (year : Int) : String :=
  let digits := paddedTo 4 year.natAbs
  if year < 0 then "-" ++ digits
  else if 9999 < year then "+" ++ digits
  else digits

/-- A date is written year, month and day, with hyphens. -/
def Date.text (d : Date) : String :=
  yearText d.year ++ "-" ++ paddedTo 2 d.month ++ "-" ++ paddedTo 2 d.day

/-- A time of day is written hour, minute and second, with colons. -/
def TimeOfDay.text (t : TimeOfDay) : String :=
  paddedTo 2 t.hour ++ ":" ++ paddedTo 2 t.minute ++ ":" ++ paddedTo 2 t.second

/-- A moment is written as its date, a space and its time. -/
def Moment.text (m : Moment) : String := m.date.text ++ " " ++ m.time.text

end Lightshow
