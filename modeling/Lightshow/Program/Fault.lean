import Lightshow.Program.Step

/-!
# What is wrong with a program

A program that was read may still ask for what cannot be done: a negative pause, a
composite without steps, a range with its bounds the wrong way round. `Step.faults`
lists such faults for a whole tree, a step before the steps below it.

Each part of a step gives at most one fault. A transition is looked at in the order
state, devices, pause; a composite in the order steps, loop, pause, and then its steps.

## Main definitions

* `Place` — a step and the part of it that a fault is about.
* `Fault`, `Fault.message` — the faults and their wording.
* `Step.faults` — the faults of a tree.
-/

namespace Lightshow

/-- A part of a step that has a path of its own. -/
inductive Part where
  | whole
  | pauseBefore
  | pauseAfter
  | loopRandom
  | loopPause
  deriving DecidableEq, Repr

/-- What follows the path of the step in the path of a part. -/
def Part.suffix : Part → String
  | .whole => ""
  | .pauseBefore => ".pause.before"
  | .pauseAfter => ".pause.after"
  | .loopRandom => ".loop.random"
  | .loopPause => ".loop.pause"

/-- A part of a step of a tree. -/
structure Place where
  step : Path
  part : Part := .whole
  deriving DecidableEq, Repr

/-- How a place is written. -/
def Place.text (p : Place) : String := p.step.text ++ p.part.suffix

/-- Something wrong at a place. -/
inductive Fault where
  | state (place : Place) (flaw : StateFlaw)
  | noDevices (place : Place)
  | noSteps (place : Place) (kind : StepKind)
  | time (place : Place) (flaw : TimeFlaw)
  | invertedRange (place : Place) (min max : UInt64)
  deriving DecidableEq, Repr

/-- Where a fault is. -/
def Fault.place : Fault → Place
  | .state p _ | .noDevices p | .noSteps p _ | .time p _ | .invertedRange p .. => p

/-- The wording for a range with its bounds the wrong way round. -/
def invertedText (min max : Float) : String :=
  "random range is inverted (min " ++ Decimal.plainText min ++ " > max "
    ++ Decimal.plainText max ++ ")"

/-- The wording of a flaw of a time option. -/
def TimeFlaw.message : TimeFlaw → String
  | .seconds x => "invalid time: seconds must be a non-negative number, got " ++ Decimal.plainText x
  | .bounds => "invalid time: jitter bounds must be finite"
  | .inverted min max => invertedText min max

/-- What a fault says, after the place. -/
def Fault.reason : Fault → String
  | .state _ flaw => "invalid state: " ++ flaw.message
  | .noDevices _ => "transition lists no devices"
  | .noSteps _ kind => "'" ++ kind.word ++ "' requires at least one step"
  | .time _ flaw => flaw.message
  | .invertedRange _ min max => invertedText min.toFloat max.toFloat

/-- The wording of a fault. -/
def Fault.message (f : Fault) : String := f.place.text ++ ": " ++ f.reason

/-! ### Looking for faults -/

/-- The fault of an optional time option at a place. -/
def TimeOption.fault? (step : Path) (part : Part) (o : Option TimeOption) : Option Fault :=
  (o.bind TimeOption.flaw?).map (Fault.time ⟨step, part⟩)

/-- The fault of a pause: that of its first part, or else that of its second. -/
def Pause.fault? (step : Path) (p : Pause) : Option Fault :=
  (TimeOption.fault? step .pauseBefore p.before).or (TimeOption.fault? step .pauseAfter p.after)

/-- The fault of the range of a random loop. -/
def LoopMode.fault? (step : Path) : LoopMode → Option Fault
  | .random min max => if max < min then some (.invertedRange ⟨step, .loopRandom⟩ min max) else none
  | _ => none

/-- The fault of a loop: that of its range, or else that of its pause. -/
def Loop.fault? (step : Path) (l : Loop) : Option Fault :=
  (l.mode.fault? step).or (TimeOption.fault? step .loopPause l.pause)

/-- The faults of a transition. -/
def Transition.faults (path : Path) (t : Transition) : List Fault :=
  (t.state.flaw?.map (Fault.state ⟨path, .whole⟩)).toList
    ++ (if t.devices = some [] then [.noDevices ⟨path, .whole⟩] else [])
    ++ (t.pause.fault? path).toList

mutual

/-- The faults of a tree whose root stands at `path`. -/
def Step.faultsAt (path : Path) : Step → List Fault
  | .transition t => t.faults path
  | .composite order steps loop pause =>
    (if steps.isEmpty then [.noSteps ⟨path, .whole⟩ order.kind] else [])
      ++ (loop.fault? path).toList
      ++ (pause.fault? path).toList
      ++ Step.faultsFrom path 0 steps

/-- The faults of the steps of a composite at `path`, of which the first has number `index`. -/
def Step.faultsFrom (path : Path) (index : Nat) : List Step → List Fault
  | [] => []
  | s :: rest =>
    Step.faultsAt (.child path index s.kind) s ++ Step.faultsFrom path (index + 1) rest

end

/-- The faults of a tree. -/
def Step.faults (s : Step) : List Fault := s.faultsAt s.rootPath

end Lightshow
