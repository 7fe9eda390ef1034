import Lightshow.State.Writing

/-!
# States as a bridge takes them

A bridge takes a state as a record of the fields that are to change. A brightness is a level
or a step, each under a name of its own; a colour temperature is told in mireds; and the
fade time is always told, so the fade that the run reckons with is the one that happens.

* `DeviceState.body` — the record for a state.
-/

namespace Lightshow

/-- The name under which a brightness is told. -/
def Brightness.bodyKey : Brightness → String
  | .level _ => "bri"
  | .step _ => "bri_inc"

/-- The number that tells a brightness. -/
def Brightness.bodyValue : Brightness → Int
  | .level n => n.toNat
  | .step n => n

/-- The brightness in the record for a state. -/
def brightnessEntry (b : Option Brightness) : List (Document × Document) :=
  (b.map fun b => (Document.text b.bodyKey, Document.int b.bodyValue)).toList

/-- The record for a state. -/
def DeviceState.body (s : DeviceState) : Document :=
  .record .settled <|
    fieldEntry "on" .bool s.on
      ++ brightnessEntry s.bri
      ++ fieldEntry "hue" (fun n => .int n.toNat) s.hue
      ++ fieldEntry "sat" (fun n => .int n.toNat) s.sat
      ++ fieldEntry "xy" pairDocument s.xy
      ++ fieldEntry "ct" (fun n => .int n) s.mireds
      ++ [(.text "transitiontime", .int s.fade)]

end Lightshow
