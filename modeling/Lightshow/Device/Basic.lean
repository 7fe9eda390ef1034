/-!
# Devices

A bridge knows lights and groups, each with a number of its own kind and a name.
-/

namespace Lightshow

/-- What a device is. -/
inductive DeviceKind where
  | light
  | group
  deriving DecidableEq, Repr

/-- The word for a kind, in references and labels. -/
def DeviceKind.word : DeviceKind → String
  | .light => "light"
  | .group => "group"

/-- A light or a group as the bridge knows it. -/
structure Device where
  kind : DeviceKind
  id : UInt32
  name : String
  deriving DecidableEq, Repr

/-- What a device is called in events and reports. The number is left out, so two
devices of one kind and name share a label. -/
def Device.label (d : Device) : String := d.kind.word ++ ":" ++ d.name

end Lightshow
