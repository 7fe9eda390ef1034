import Lightshow.Calendar.Basic

/-!
# Local time

A zone tells by how many seconds local time is ahead of universal time when local clocks
show a given moment. Around a change of the clocks there may be several answers, or none:
then the moment is skipped.

## Main definitions

* `UtcTime`, `UtcTime.since` — readings of a clock that shows universal time.
* `Zone`, `Zone.earliest?` — zones, and the reading that counts for a moment of local time.
* `Zone.eastern` — the zone of North America's east coast.
-/

namespace Lightshow

/-! ### Universal time -/

/-- A reading of a clock that shows universal time: the day's number, the second of the day
and the nanosecond of the second. In a leap second, which belongs to the second before it,
the nanosecond is `10 ^ 9` or more. -/
structure UtcTime where
  day : Int
  second : Nat
  nanos : Nat
  deriving DecidableEq, Repr

namespace UtcTime

/-- The seconds of a day. -/
def perDay : Nat := 86400

/-- The nanoseconds of a second. -/
def perSecond : Nat := 1000000000

/-- The reading at a number of seconds since the start of 1970. -/
def ofSeconds (seconds : Int) (nanos : Nat) : UtcTime :=
  ⟨seconds / perDay, (seconds % perDay).toNat, nanos⟩

/-- A reading within a leap second. -/
def isLeap (t : UtcTime) : Bool := perSecond ≤ t.nanos

/-- The seconds between two readings as far as they show. A leap second of the reading with
the lower second of the day is a second that has yet to be counted. -/
def secondsSince (t u : UtcTime) : Int :=
  let shown : Int := perDay * (t.day - u.day) + (t.second - u.second)
  if u.second < t.second then if u.isLeap then shown + 1 else shown
  else if t.second < u.second then if t.isLeap then shown - 1 else shown
  else shown

/-- The nanoseconds from a reading `u` to a reading `t`. -/
def since (t u : UtcTime) : Int :=
  perSecond * t.secondsSince u + (t.nanos - u.nanos)

end UtcTime

/-! ### Zones -/

/-- For each moment on local clocks, by how many seconds they may be ahead of universal time, in
the order in which the zone tells it. A zone is meant to tell the earlier reading first, but not
every one does. -/
structure Zone where
  ahead : Moment → List Int

namespace Zone

/-- The reading at which clocks that are `ahead` seconds ahead show a moment. A leap second
stands for the second before it. -/
def reading (m : Moment) (ahead : Int) : UtcTime :=
  let leap := m.time.second = 60
  let second := if leap then 59 else m.time.second
  let shown : Int := 3600 * m.time.hour + 60 * m.time.minute + second
  let t := UtcTime.ofSeconds (UtcTime.perDay * m.date.dayNumber + shown - ahead) 0
  if leap then { t with nanos := UtcTime.perSecond } else t

/-- The last day of the calendar. -/
def lastDay : Int := (Date.mk Date.lastYear 12 31).dayNumber

/-- The first day of the calendar. -/
def firstDay : Int := (Date.mk Date.firstYear 1 1).dayNumber

/-- A reading within the calendar. -/
def inCalendar (t : UtcTime) : Bool := firstDay ≤ t.day && t.day ≤ lastDay

/-- The readings at which local clocks show a moment. There are none if one of them is beyond
the calendar. -/
def readings (z : Zone) (m : Moment) : List UtcTime :=
  let ts := (z.ahead m).map (reading m)
  if ts.all inCalendar then ts else []

/-- The reading that counts for a moment: the one that the zone tells first. -/
def earliest? (z : Zone) (m : Moment) : Option UtcTime := (z.readings m).head?

/-- The day of the month of a Sunday, counted from one. -/
def sunday (year : Int) (month count : Nat) : Nat :=
  let first := (Date.mk year month 1).weekday
  1 + (7 - first) % 7 + 7 * (count - 1)

/-- A second of the day. -/
def secondOfDay (t : TimeOfDay) : Nat := 3600 * t.hour + 60 * t.minute + min 59 t.second

/-- Where a date stands in its year: month and day as one number. -/
def dayOfYear (month day : Nat) : Nat := 32 * month + day

/-- East coast time: five hours behind, and four hours behind from the second Sunday of
March to the first Sunday of November. In March clocks go from two to three, and of the
skipped hour only its two ends are read. In November they go from two back to one; the hour
between, with its two ends, is read twice, and the later reading is told first. -/
def eastern : Zone where
  ahead m :=
    let date := dayOfYear m.date.month m.date.day
    let spring := dayOfYear 3 (sunday m.date.year 3 2)
    let autumn := dayOfYear 11 (sunday m.date.year 11 1)
    let time := secondOfDay m.time
    let standard := [-(5 * 3600 : Int)]
    let summer := [-(4 * 3600 : Int)]
    if date < spring then standard
    else if date = spring then
      if time ≤ 2 * 3600 then standard else if time < 3 * 3600 then [] else summer
    else if date < autumn then summer
    else if date = autumn then
      if time < 3600 then summer
      else if time ≤ 2 * 3600 then standard ++ summer else standard
    else standard

end Zone

end Lightshow
