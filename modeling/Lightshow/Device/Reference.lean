import Lightshow.ReadError
import Lightshow.Text.Blank
import Lightshow.Text.Numeral

/-!
# Device references

A program names its devices abstractly: by kind and name, by the position of an
input that is bound when the program runs, or all inputs at once. A reference is
written `light:name`, `group:name`, `$n` or `$all`.

* `DeviceRef.read` — the reference that a text denotes.
* `DeviceRef.text` — how a reference is written.
-/

namespace Lightshow

open Lightshow.Text

/-- The name that a program has for one or more devices. -/
inductive DeviceRef where
  | light (name : String)
  | group (name : String)
  /-- The input at a position, counted from one. -/
  | input (position : Nat)
  | allInputs
  deriving DecidableEq, Repr

namespace DeviceRef

/-- How a reference is written. -/
def text : DeviceRef → String
  | .light name => "light:" ++ name
  | .group name => "group:" ++ name
  | .input n => "$" ++ toString n
  | .allInputs => "$all"

/-- The position after a dollar sign: a numeral below `2 ^ 64` that a plus sign may
precede. No numeral that starts with a zero counts, so neither `0` nor `01` does. -/
def position? (s : List Char) : Option Nat :=
  if s.head? = some '0' then none else word? 64 s

/-- The reference to the device of a kind and a name. Both lose their outer blanks,
and the name must not be empty. -/
def named? (kind name : List Char) : Option DeviceRef :=
  let name := trim name
  if name.isEmpty then none
  else if trim kind = "light".toList then some (.light (String.ofList name))
  else if trim kind = "group".toList then some (.group (String.ofList name))
  else none

/-- The reference that a text without outer blanks denotes. -/
def ofTrimmed? (s : List Char) : Option DeviceRef :=
  if s = "$all".toList then some .allInputs
  else
    match s with
    | '$' :: n => (position? n).map .input
    | s => (splitFirst ':' s).bind fun (kind, name) => named? kind name

/-- The reference that a text denotes. A refusal quotes the text without its outer blanks. -/
def read (s : String) : Except ReadError DeviceRef :=
  match ofTrimmed? (trim s.toList) with
  | some r => .ok r
  | none => .error (.deviceRef (trimmed s))

end DeviceRef

end Lightshow
