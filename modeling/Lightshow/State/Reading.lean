import Lightshow.Document.Record
import Lightshow.State.Basic

/-!
# Reading states

A brightness is a number or a text. A state is a record of optional fields that refuses
fields it does not know.

* `Brightness.ofDocument`, `DeviceState.ofDocument` — the values that documents denote.
-/

namespace Lightshow

open Document

/-- The brightness that a document denotes. -/
def Brightness.ofDocument (d : Document) : Except ReadError Brightness := do
  let choice ← firstFit
    [fun d => return Sum.inl (← d.asSigned), fun d => return Sum.inr (← d.asText)] d
  match choice with
  | .inl n => Brightness.ofNumber n
  | .inr s => Brightness.read s

/-- The fields of a state. -/
inductive StateField where
  | on
  | bri
  | hue
  | sat
  | xy
  | ct
  | ctk
  | transitionTime
  | time
  deriving DecidableEq, Repr

namespace StateField

/-- The fields in their order. -/
def all : List StateField := [on, bri, hue, sat, xy, ct, ctk, transitionTime, time]

/-- The name of a field in a document. -/
def name : StateField → String
  | on => "on"
  | bri => "bri"
  | hue => "hue"
  | sat => "sat"
  | xy => "xy"
  | ct => "ct"
  | ctk => "ctk"
  | transitionTime => "transitiontime"
  | time => "time"

/-- What a field holds when it is given. -/
def Value : StateField → Type
  | on => Bool
  | bri => Brightness
  | hue => UInt16
  | sat => UInt8
  | xy => Float × Float
  | ct => UInt16
  | ctk => UInt32
  | transitionTime => UInt16
  | time => Float

/-- The value of a field that a document denotes. -/
def read : (f : StateField) → Document → Except ReadError f.Value
  | on => asBool
  | bri => Brightness.ofDocument
  | hue => fun d => UInt16.ofNat <$> d.asWord 16
  | sat => fun d => UInt8.ofNat <$> d.asWord 8
  | xy => asPair asFloat
  | ct => fun d => UInt16.ofNat <$> d.asWord 16
  | ctk => fun d => UInt32.ofNat <$> d.asWord 32
  | transitionTime => fun d => UInt16.ofNat <$> d.asWord 16
  | time => asFloat

end StateField

/-- States as records. -/
def DeviceState.format : RecordFormat StateField where
  Value f := Option f.Value
  fields := StateField.all
  name := StateField.name
  aliases
    | .bri => ["brightness"]
    | _ => []
  read f := asOptional f.read
  required _ := false

/-- The state with the fields of a table. -/
def DeviceState.ofTable (t : DeviceState.format.Table) : DeviceState where
  on := (t .on).join
  bri := (t .bri).join
  hue := (t .hue).join
  sat := (t .sat).join
  xy := (t .xy).join
  ct := (t .ct).join
  ctk := (t .ctk).join
  transitionTime := (t .transitionTime).join
  time := (t .time).join

/-- The state that a document denotes. -/
def DeviceState.ofDocument (d : Document) : Except ReadError DeviceState :=
  DeviceState.ofTable <$> DeviceState.format.table d

end Lightshow
