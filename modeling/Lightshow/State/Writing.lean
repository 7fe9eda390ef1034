import Lightshow.Document.Json
import Lightshow.State.Basic

/-!
# Writing states

A state is written as a record of the fields that are set, in their order. A level is a
number and a step is a text, so each is read back as what it was.

* `Brightness.document`, `DeviceState.document` — the documents of values.
* `DeviceState.jsonValue` — a state as a JSON value.
-/

namespace Lightshow

/-- A brightness as a document. -/
def Brightness.document : Brightness → Document
  | .level n => .int n.toNat
  | .step n => .text (Brightness.step n).text

/-- Two numbers as a document. -/
def pairDocument (p : Float × Float) : Document := .list .settled [.float p.1, .float p.2]

/-- A field that is written only if it is set. -/
def fieldEntry {α : Type} (name : String) (write : α → Document) (value : Option α) :
    List (Document × Document) :=
  (value.map fun x => (Document.text name, write x)).toList

/-- A state as a document. -/
def DeviceState.document (s : DeviceState) : Document :=
  .record .settled <|
    fieldEntry "on" .bool s.on
      ++ fieldEntry "bri" Brightness.document s.bri
      ++ fieldEntry "hue" (fun n => .int n.toNat) s.hue
      ++ fieldEntry "sat" (fun n => .int n.toNat) s.sat
      ++ fieldEntry "xy" pairDocument s.xy
      ++ fieldEntry "ct" (fun n => .int n.toNat) s.ct
      ++ fieldEntry "ctk" (fun n => .int n.toNat) s.ctk
      ++ fieldEntry "transitiontime" (fun n => .int n.toNat) s.transitionTime
      ++ fieldEntry "time" .float s.time

/-- A state as a JSON value. -/
def DeviceState.jsonValue (s : DeviceState) : Document := s.document.jsonValue

end Lightshow
