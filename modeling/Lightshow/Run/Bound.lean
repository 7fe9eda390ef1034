import Lightshow.Calendar.Zone
import Lightshow.Duration
import Lightshow.Program.Loop

/-!
# When a loop ends

At the moment a loop is entered its mode is turned into a bound, and between iterations
the bound alone decides. A random number of iterations is drawn once. A timer and a
deadline become an instant of the run's clock; one that lies beyond the clock's range
never comes.

## Main definitions

* `Bound`, `Bound.continues` — bounds, and whether another iteration begins.
* `LoopMode.bound` — the bound of a mode at the moment a loop is entered.
* `LoopError` — why a loop cannot be entered.
-/

namespace Lightshow

/-- Why a loop cannot be entered. -/
inductive LoopError where
  | invertedRange (min max : UInt64)
  /-- Local clocks never show the deadline. -/
  | skippedDeadline (moment : Deadline)
  deriving DecidableEq, Repr

/-- The wording of a loop that cannot be entered. -/
def LoopError.message : LoopError → String
  | .invertedRange min max =>
    "random loop range is inverted (min " ++ toString min.toNat ++ " > max "
      ++ toString max.toNat ++ ")"
  | .skippedDeadline m => "deadline " ++ m.text ++ " does not exist in the local time zone"

/-- What ends a loop. -/
inductive Bound where
  | endless
  | count (times : UInt64)
  | stop (instant : Instant)
  deriving DecidableEq, Repr

namespace Bound

/-- Whether another iteration begins, given how many are completed and the time. -/
def continues (b : Bound) (completed : Nat) (now : Instant) : Bool :=
  match b with
  | endless => true
  | count times => completed < times.toNat
  | stop t => now < t

/-- The number of iterations, where it is known. -/
def count? : Bound → Option UInt64
  | count times => some times
  | _ => none

/-- The first instant that is beyond the range of a clock: `2 ^ 63` seconds. -/
def clockRange : Instant := (1 <<< 63) * Duration.perSecond

/-- The bound that lets a span pass from an instant on. -/
def lasting (started : Instant) (span : Duration) : Bound :=
  if started + span < clockRange then stop (started + span) else endless

/-- The bound that a deadline is for a loop entered at an instant, when a clock of universal
time shows `wall`. A deadline that is past stops the loop at once. -/
def ofDeadline (started : Instant) (wall target : UtcTime) : Bound :=
  lasting started (target.since wall).toNat

end Bound

/-- The bound of a mode for a loop entered at an instant. `times` is the number drawn for a
random mode. -/
def LoopMode.bound (zone : Zone) (started : Instant) (wall : UtcTime) (times : UInt64) :
    LoopMode → Except LoopError Bound
  | .infinite => .ok .endless
  | .counted n => .ok (.count n)
  | .random min max => if max < min then .error (.invertedRange min max) else .ok (.count times)
  | .timer t => .ok (.lasting started (Duration.seconds t.totalSeconds))
  | .deadline m =>
    match zone.earliest? m with
    | some target => .ok (.ofDeadline started wall target)
    | none => .error (.skippedDeadline m)

/-- The bounds of the number that has to be drawn when a loop is entered. -/
def LoopMode.draw? : LoopMode → Option (UInt64 × UInt64)
  | .random min max => if max < min then none else some (min, max)
  | _ => none

end Lightshow
