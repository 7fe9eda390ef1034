import Lightshow.Calendar.Basic
import Lightshow.Text.Blank
import Lightshow.Text.Numeral

/-!
# Reading dates and times

A date is a year, a month and a day with hyphens between them; a time is an hour, a
minute and perhaps a second with colons between them. Each number may have blanks
before it. A month, a day or a part of a time has one or two digits and no sign. A
year without a sign has at most four digits; with a sign it may have any number.
-/

namespace Lightshow

open Lightshow.Text

namespace Calendar

/-- A numeral of at most `most` digits at the start of a text, and the rest. The
numeral ends after `most` digits even if more follow. -/
def takeNumber (most : Nat) (s : List Char) : Option (Nat × List Char) :=
  let ds := (s.take most).takeWhile (fun c => (digitValue? c).isSome)
  (natural? ds).map fun n => (n, s.drop ds.length)

/-- A numeral of any length at the start of a text, and the rest. -/
def takeAnyNumber (s : List Char) : Option (Nat × List Char) := takeNumber s.length s

/-- A number of one or two digits, after blanks. -/
def takePair (s : List Char) : Option (Nat × List Char) := takeNumber 2 (trimStart s)

/-- A year, after blanks. -/
def takeYear (s : List Char) : Option (Int × List Char) :=
  match trimStart s with
  | '-' :: r => (takeAnyNumber r).map fun (n, r) => (-(n : Int), r)
  | '+' :: r => (takeAnyNumber r).map fun (n, r) => ((n : Int), r)
  | r => (takeNumber 4 r).map fun (n, r) => ((n : Int), r)

/-- A separator. -/
def takeMark (mark : Char) : List Char → Option (List Char)
  | c :: r => if c = mark then some r else none
  | [] => none

/-- A text that is used up. -/
def atEnd {α : Type} (x : α) : List Char → Option α
  | [] => some x
  | _ :: _ => none

end Calendar

open Calendar

/-- The date that a text without outer blanks denotes. -/
def Date.ofTrimmed? (s : List Char) : Option Date := do
  let (year, r) ← takeYear s
  let (month, r) ← takePair (← takeMark '-' r)
  let (day, r) ← takePair (← takeMark '-' r)
  let d ← atEnd (Date.mk year month day) r
  if d.Exists then some d else none

/-- The time with a second that a text without outer blanks denotes. -/
def TimeOfDay.withSecond? (s : List Char) : Option TimeOfDay := do
  let (hour, r) ← takePair s
  let (minute, r) ← takePair (← takeMark ':' r)
  let (second, r) ← takePair (← takeMark ':' r)
  let t ← atEnd (TimeOfDay.mk hour minute second) r
  if t.Exists then some t else none

/-- The time without a second that a text without outer blanks denotes. -/
def TimeOfDay.withoutSecond? (s : List Char) : Option TimeOfDay := do
  let (hour, r) ← takePair s
  let (minute, r) ← takePair (← takeMark ':' r)
  let t ← atEnd (TimeOfDay.mk hour minute 0) r
  if t.Exists then some t else none

/-- The time that a text without outer blanks denotes. -/
def TimeOfDay.ofTrimmed? (s : List Char) : Option TimeOfDay :=
  (withSecond? s).or (withoutSecond? s)

end Lightshow
