import Lightshow.Device.Basic
import Lightshow.Device.Reference
import Std.Data.HashMap

/-!
# Rosters

A roster knows the lights and groups of a bridge and the devices that are bound to the
inputs of a run. It tells which devices a reference means.

A key names a device by its number or by its name. A key that reads as a number stands for
the device with that number if there is one, and for a name otherwise. Of several devices
with one number, or with one name, the last one counts.

## Main definitions

* `Roster`, `Roster.ofDevices`, `Roster.bind` — rosters and their making.
* `Roster.resolve` — the devices that a reference means.
* `Roster.missingLights`, `missingGroups`, `missingInputs` — references that mean nothing.
-/

namespace Lightshow

open Lightshow.Text

/-- A reference that means no device. -/
inductive Unmapped where
  | light (key : String)
  | group (key : String)
  | input (position : Nat)
  /-- All inputs are meant and there are none. -/
  | noInputs
  deriving DecidableEq, Repr

/-- The wording of a reference that means no device. -/
def Unmapped.message : Unmapped → String
  | .light key => "unmapped light '" ++ key ++ "'"
  | .group key => "unmapped group '" ++ key ++ "'"
  | .input n => "unmapped device input $" ++ toString n
  | .noInputs => "$all used but no device inputs were given"

/-- Devices of one kind, by number and by name. -/
structure Directory where
  byId : Std.HashMap UInt32 Device := {}
  byName : Std.HashMap String Device := {}

namespace Directory

/-- A directory with one more device, which takes the place of those with its number and
of those with its name. -/
def insert (d : Directory) (device : Device) : Directory :=
  ⟨d.byId.insert device.id device, d.byName.insert device.name device⟩

/-- The number that a key reads as: a numeral below `2 ^ 32` that a plus sign may precede. -/
def number? (key : String) : Option UInt32 := (word? 32 key.toList).map UInt32.ofNat

/-- The device with a key: by its number, or else by its name. -/
def find? (d : Directory) (key : String) : Option Device :=
  ((number? key).bind fun id => d.byId[id]?).or d.byName[key]?

end Directory

/-- The devices of a bridge and the inputs of a run. -/
structure Roster where
  lights : Directory := {}
  groups : Directory := {}
  inputs : List Device := []

namespace Roster

/-- A roster with one more device. -/
def insert (r : Roster) (device : Device) : Roster :=
  match device.kind with
  | .light => { r with lights := r.lights.insert device }
  | .group => { r with groups := r.groups.insert device }

/-- The roster of some devices, without inputs. -/
def ofDevices (devices : List Device) : Roster := devices.foldl insert {}

/-- The light with a key. -/
def light (r : Roster) (key : String) : Except Unmapped Device :=
  match r.lights.find? key with
  | some d => .ok d
  | none => .error (.light key)

/-- The group with a key. -/
def group (r : Roster) (key : String) : Except Unmapped Device :=
  match r.groups.find? key with
  | some d => .ok d
  | none => .error (.group key)

/-- The device of a kind with a key. -/
def device (r : Roster) (kind : DeviceKind) (key : String) : Except Unmapped Device :=
  match kind with
  | .light => r.light key
  | .group => r.group key

/-- A roster with its inputs bound to the devices with some keys, in their order. -/
def bind (r : Roster) (keys : List (DeviceKind × String)) : Except Unmapped Roster := do
  let inputs ← keys.mapM fun (kind, key) => r.device kind key
  return { r with inputs := inputs }

/-- The input at a position, counted from one. -/
def input? (r : Roster) : Nat → Option Device
  | 0 => none
  | i + 1 => r.inputs[i]?

/-- The devices that a reference means. -/
def resolve (r : Roster) : DeviceRef → Except Unmapped (List Device)
  | .light key => (r.light key).map ([·])
  | .group key => (r.group key).map ([·])
  | .input n =>
    match r.input? n with
    | some d => .ok [d]
    | none => .error (.input n)
  | .allInputs => if r.inputs.isEmpty then .error .noInputs else .ok r.inputs

/-! ### Checking references ahead -/

/-- The keys of the lights among some references that are not known. -/
def missingLights (r : Roster) (refs : List DeviceRef) : List String :=
  refs.filterMap fun
    | .light key => if (r.lights.find? key).isNone then some key else none
    | _ => none

/-- The keys of the groups among some references that are not known. -/
def missingGroups (r : Roster) (refs : List DeviceRef) : List String :=
  refs.filterMap fun
    | .group key => if (r.groups.find? key).isNone then some key else none
    | _ => none

/-- The references to inputs among some references that are not bound. -/
def missingInputs (r : Roster) (refs : List DeviceRef) : List DeviceRef :=
  refs.filter fun
    | .input n => n = 0 || r.inputs.length < n
    | .allInputs => r.inputs.isEmpty
    | _ => false

end Roster

end Lightshow
