import Lightshow.Duration
import Lightshow.State.Brightness

/-!
# Device states

A state is what a transition asks of a light or a group. Its fields are
independent, and a field that is left out leaves the device as it is.

* `DeviceState` — the fields.
* `DeviceState.mireds`, `DeviceState.fade` — colour temperature and fade time as a
  bridge takes them.
* `DeviceState.flaw?` — the first thing wrong with a state, if anything is.
-/

namespace Lightshow

open Float.Model (UnpackedFloat)

/-- A target configuration of a device. -/
structure DeviceState where
  on : Option Bool := none
  bri : Option Brightness := none
  hue : Option UInt16 := none
  sat : Option UInt8 := none
  /-- Colour coordinates. -/
  xy : Option (Float × Float) := none
  /-- Colour temperature in mireds. -/
  ct : Option UInt16 := none
  /-- Colour temperature in kelvin; `ct` goes before it. -/
  ctk : Option UInt32 := none
  /-- Fade time in tenths of a second. -/
  transitionTime : Option UInt16 := none
  /-- Fade time in seconds; it goes before `transitionTime`. -/
  time : Option Float := none
  deriving DecidableEq, Repr

/-- What can be wrong with a state on its own. -/
inductive StateFlaw where
  | time (seconds : Float)
  | xy (x y : Float)
  | ctk
  deriving DecidableEq, Repr

/-- The wording of a flaw. -/
def StateFlaw.message : StateFlaw → String
  | .time t => "'time' must be a non-negative number, got " ++ Decimal.plainText t
  | .xy x y =>
    "'xy' components must be within 0..1, got [" ++ Decimal.plainText x ++ ", "
      ++ Decimal.plainText y ++ "]"
  | .ctk => "'ctk' must be greater than zero"

/-- The whole number nearest to a float that is at least zero, a half going up.
Infinity and whatever else is no number from zero up give `cap`, and so do numbers
above it. -/
def roundCapped (cap : Nat) (x : Float) : Nat :=
  match x.toModel.unpack with
  | .zero _ => 0
  | .finite .positive m e _ =>
    let den := 1 <<< (-e).toNat
    min cap ((2 * (m <<< e.toNat) + den) / (2 * den))
  | _ => cap

namespace DeviceState

/-- The greatest fade time and the greatest colour temperature, as a bridge counts them. -/
def wordMax : Nat := 65535

/-- The fade time of a state that gives none, in tenths of a second. -/
def defaultFade : Nat := 4

/-- No field is set. -/
def isEmpty (s : DeviceState) : Bool :=
  s.on.isNone && s.bri.isNone && s.hue.isNone && s.sat.isNone && s.xy.isNone
    && s.ct.isNone && s.ctk.isNone && s.transitionTime.isNone && s.time.isNone

/-- A colour temperature in kelvin as mireds, cut off at `wordMax`; zero has none. -/
def miredsOfKelvin (kelvin : Nat) : Option Nat :=
  if kelvin = 0 then none else some (min (1000000 / kelvin) wordMax)

/-- The colour temperature in mireds. -/
def mireds (s : DeviceState) : Option Nat :=
  match s.ct with
  | some m => some m.toNat
  | none => s.ctk.bind fun k => miredsOfKelvin k.toNat

/-- A number from zero up, and not infinite. -/
def isSpan (x : Float) : Bool := x.isFinite && 0 ≤ x

/-- The fade time in tenths of a second. A `time` that is no span counts as left out. -/
def fade (s : DeviceState) : Nat :=
  match s.time.filter isSpan with
  | some seconds => roundCapped wordMax (seconds * 10)
  | none => (s.transitionTime.map UInt16.toNat).getD defaultFade

/-- The fade time as a span. -/
def fadeDuration (s : DeviceState) : Duration := Duration.millis (s.fade * 100)

/-- Whether a colour coordinate lies within 0 and 1. -/
def isCoordinate (x : Float) : Bool := 0 ≤ x && x ≤ 1

/-- The first thing wrong with a state: its time, its colour, its temperature. -/
def flaw? (s : DeviceState) : Option StateFlaw :=
  match s.time.filter (fun t => !isSpan t) with
  | some t => some (.time t)
  | none =>
    match s.xy.filter (fun p => !(isCoordinate p.1 && isCoordinate p.2)) with
    | some p => some (.xy p.1 p.2)
    | none => if s.ctk = some 0 then some .ctk else none

end DeviceState

end Lightshow
