import Lightshow.ReadError
import Lightshow.Text.Blank
import Lightshow.Text.Numeral

/-!
# Brightness

A brightness is a level from 0 to 254, or a signed step from the current level of
at most 254 either way. In text a sign makes it a step.

* `Brightness.ofNumber`, `Brightness.read` — numbers and texts as brightness.
* `Brightness.text` — how a brightness is written; a step always shows its sign.
-/

namespace Lightshow

open Lightshow.Text

/-- A brightness to set, or to change by. -/
inductive Brightness where
  | level (n : UInt8)
  | step (change : Int)
  deriving DecidableEq, Repr

namespace Brightness

/-- The greatest level, and the greatest step. -/
def top : Nat := 254

/-- The level that a number is. -/
def level? (n : Int) : Option Brightness :=
  if 0 ≤ n ∧ n ≤ top then some (.level (UInt8.ofNat n.toNat)) else none

/-- The step that a number is. -/
def step? (n : Int) : Option Brightness :=
  if n.natAbs ≤ top then some (.step n) else none

/-- A number as a level. -/
def ofNumber (n : Int) : Except ReadError Brightness :=
  match level? n with
  | some b => .ok b
  | none => .error (.brightness (toString n))

/-- The brightness that a text without outer blanks denotes. A step is read as a number of
sixteen bits and a level as one of sixty-four, before either is compared with `top`. -/
def ofTrimmed? (s : List Char) : Option Brightness :=
  match s with
  | '+' :: _ | '-' :: _ => (integer? 16 s).bind step?
  | _ => (integer? 64 s).bind level?

/-- The brightness that a text denotes. A refusal quotes the text as it stands. -/
def read (s : String) : Except ReadError Brightness :=
  match ofTrimmed? (trim s.toList) with
  | some b => .ok b
  | none => .error (.brightness s)

/-- How a brightness is written. -/
def text : Brightness → String
  | .level n => toString n.toNat
  | .step n => (if n < 0 then "-" else "+") ++ toString n.natAbs

end Brightness

end Lightshow
