import Lightshow.Duration

/-!
# Pauses

A time option is a number of seconds, possibly with a range from which a random
part is drawn each time it is used. A pause stands before a step, after it, or
both.

* `TimeOption.duration` — how long a time option lasts, given the random part.
* `TimeOption.flaw?` — the first thing wrong with a time option, if anything is.
-/

namespace Lightshow

/-- The range of the random part of a time option, in seconds. -/
structure Jitter where
  min : Float
  max : Float
  deriving DecidableEq, Repr

/-- A number of seconds with an optional random part. -/
structure TimeOption where
  seconds : Float := 0
  jitter : Option Jitter := none
  deriving DecidableEq, Repr

/-- What stands before and after a step. -/
structure Pause where
  before : Option TimeOption := none
  after : Option TimeOption := none
  deriving DecidableEq, Repr

/-- When the pauses of a composite that repeats its steps are made. -/
inductive PauseScope where
  /-- Before and after each iteration. -/
  | perIteration
  /-- Once before the first iteration and once after the last. -/
  | aroundLoop
  deriving DecidableEq, Repr

/-- The word for a scope. -/
def PauseScope.word : PauseScope → String
  | .perIteration => "per_iteration"
  | .aroundLoop => "around_loop"

/-- What can be wrong with a time option. -/
inductive TimeFlaw where
  | seconds (x : Float)
  | bounds
  | inverted (min max : Float)
  deriving DecidableEq, Repr

namespace TimeOption

/-- A time option without a random part. -/
def fixed (seconds : Float) : TimeOption := ⟨seconds, none⟩

/-- How long a time option lasts when `part` is drawn: the sum, or nothing if the sum
is negative, no number, or no span. -/
def duration (o : TimeOption) (part : Float) : Duration :=
  let total := o.seconds + part
  if 0 < total then (Duration.ofSeconds? total).getD 0 else 0

/-- The first thing wrong with a time option: its seconds, its bounds, their order. -/
def flaw? (o : TimeOption) : Option TimeFlaw :=
  if !(o.seconds.isFinite && 0 ≤ o.seconds) then some (.seconds o.seconds)
  else
    match o.jitter with
    | none => none
    | some j =>
      if !(j.min.isFinite && j.max.isFinite) then some .bounds
      else if j.max < j.min then some (.inverted j.min j.max)
      else none

end TimeOption

end Lightshow
