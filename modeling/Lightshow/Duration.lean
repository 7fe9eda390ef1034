import Lightshow.Decimal.Shortest

/-!
# Durations

A span of time is a whole number of nanoseconds. Programs and settings give spans
as floating-point seconds; the exact value of the float is rounded to the nearest
nanosecond, a half going to the even neighbour. A negative number, one that is
not a number, and `2 ^ 64` seconds or more are no spans.

Clocks fire on whole milliseconds, so an instant that is waited for is rounded up.

## Main definitions

* `Duration.ofSeconds?`, `Duration.toSeconds` — seconds to spans and back.
* `roundDiv` — division with ties to even.
* `Duration.text` — how a span is written inside a message.
* `wholeMillis` — the next whole millisecond.
-/

namespace Lightshow

open Float.Model (UnpackedFloat)

/-- A span of time, in nanoseconds. -/
abbrev Duration := Nat

/-- A point in time, in nanoseconds since a clock was started. -/
abbrev Instant := Nat

namespace Duration

/-- The nanoseconds of a second. -/
def perSecond : Nat := 1000000000

/-- The nanoseconds of a millisecond. -/
def perMilli : Nat := 1000000

/-- The first span that is too long: `2 ^ 64` seconds. -/
def limit : Duration := UInt64.size * perSecond

/-- A span that fits: shorter than `limit`. -/
def Representable (d : Duration) : Prop := d < limit

instance (d : Duration) : Decidable (Representable d) := inferInstanceAs (Decidable (d < limit))

/-- A span of whole seconds. -/
def seconds (n : Nat) : Duration := n * perSecond

/-- A span of whole milliseconds. -/
def millis (n : Nat) : Duration := n * perMilli

end Duration

/-- `num / den` rounded to the nearest whole number, a half going to the even neighbour. -/
def roundDiv (num den : Nat) : Nat :=
  let q := num / den
  let r := num % den
  if 2 * r < den then q
  else if den < 2 * r then q + 1
  else q + q % 2

/-- The number of whole units `1 / scale` nearest to `m * 2 ^ e`. -/
def roundScaled (scale m : Nat) (e : Int) : Nat :=
  roundDiv ((m <<< e.toNat) * scale) (1 <<< (-e).toNat)

namespace Duration

/-- The span of a number of seconds, to the nearest nanosecond, if it is one. -/
def ofSeconds? (x : Float) : Option Duration :=
  match x.toModel.unpack with
  | .zero _ => some 0
  | .finite .positive m e _ =>
    if m <<< e.toNat < UInt64.size <<< (-e).toNat then some (roundScaled perSecond m e) else none
  | _ => none

/-- A span as seconds: the whole seconds plus the fraction of a second. -/
def toSeconds (d : Duration) : Float :=
  Float.ofNat (d / perSecond) + Float.ofNat (d % perSecond) / Float.ofNat perSecond

/-- The fraction `part / unit` as a point and digits, trailing zeros left out. `unit`
is a power of ten with `places` zeros. -/
def pointText (places part : Nat) : List Char :=
  if part = 0 then []
  else
    let ds := Nat.toDigits 10 part
    let padded := List.replicate (places - ds.length) '0' ++ ds
    '.' :: (padded.reverse.dropWhile (· = '0')).reverse

/-- How a span is written: in the largest of the units second, millisecond,
microsecond and nanosecond that it reaches, with the rest after a point. -/
def text (d : Duration) : String :=
  if perSecond ≤ d then
    toString (d / perSecond) ++ String.ofList (pointText 9 (d % perSecond)) ++ "s"
  else if perMilli ≤ d then
    toString (d / perMilli) ++ String.ofList (pointText 6 (d % perMilli)) ++ "ms"
  else if 1000 ≤ d then
    toString (d / 1000) ++ String.ofList (pointText 3 (d % 1000)) ++ "µs"
  else toString d ++ "ns"

end Duration

/-- The first whole millisecond at or after an instant. -/
def wholeMillis (t : Instant) : Instant :=
  (t + (Duration.perMilli - 1)) / Duration.perMilli * Duration.perMilli

end Lightshow
