import Lightshow.Calendar.Reading
import Lightshow.Program.Pause
import Lightshow.ReadError

/-!
# Loops

How often the steps of a composite are repeated: without end, a number of times, a
random number of times, for a while, or until a moment of the local time.

* `Timer.totalSeconds` — the length of a timer.
* `Deadline.read` — the moment that a date text and a time text denote.
* `LoopMode`, `Loop` — a policy, and a policy with a pause between iterations.
-/

namespace Lightshow

open Lightshow.Text

/-- A span given by hours, minutes and seconds. -/
structure Timer where
  hours : UInt64 := 0
  minutes : UInt64 := 0
  seconds : UInt64 := 0
  deriving DecidableEq, Repr

/-- The length of a timer in seconds, cut off below `2 ^ 64`. -/
def Timer.totalSeconds (t : Timer) : Nat :=
  min (UInt64.size - 1) (3600 * t.hours.toNat + 60 * t.minutes.toNat + t.seconds.toNat)

/-- A moment of the local time at which a loop ends. -/
abbrev Deadline := Moment

/-- The deadline that two texts denote. The date is looked at first. A refusal quotes the
text as it stands. -/
def Deadline.read (date time : String) : Except ReadError Deadline :=
  match Date.ofTrimmed? (trim date.toList) with
  | none => .error (.deadlineDate date)
  | some d =>
    match TimeOfDay.ofTrimmed? (trim time.toList) with
    | none => .error (.deadlineTime time)
    | some t => .ok ⟨d, t⟩

/-- When the repetition of a composite ends. -/
inductive LoopMode where
  | infinite
  | counted (times : UInt64)
  | random (min max : UInt64)
  | timer (t : Timer)
  | deadline (moment : Deadline)
  deriving DecidableEq, Repr

/-- The word for a mode. -/
def LoopMode.word : LoopMode → String
  | .infinite => "infinite"
  | .counted _ => "counted"
  | .random .. => "random"
  | .timer _ => "timer"
  | .deadline _ => "deadline"

/-- A mode of repetition and a pause at the end of each iteration. -/
structure Loop where
  mode : LoopMode := .counted 1
  pause : Option TimeOption := none
  deriving DecidableEq, Repr

/-- One iteration. -/
def Loop.once : Loop := {}

end Lightshow
