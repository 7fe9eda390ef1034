import Lightshow.Device.Reference
import Lightshow.Program.Loop
import Lightshow.State.Basic

/-!
# Programs

A program is a tree of steps. Its leaves are transitions, which bring devices to a
state; its inner nodes are composites, which run their steps one after the other or
all at once, as often as their loop says.

* `Transition`, `Step`, `Program` — the tree.
* `Path` — where a step stands in its tree.
* `Step.references` — the devices that the transitions of a tree name.
-/

namespace Lightshow

/-- A change of state of some devices. -/
structure Transition where
  state : DeviceState
  /-- The devices by reference, and all inputs if this is left out. -/
  devices : Option (List DeviceRef) := none
  /-- Whether to wait until each device has acknowledged the state. -/
  wait : Bool := false
  pause : Pause := {}
  deriving DecidableEq, Repr

/-- How a composite runs its steps. -/
inductive Order where
  /-- One after the other. -/
  | serial
  /-- All at once. -/
  | parallel
  deriving DecidableEq, Repr

/-- A step of a program. -/
inductive Step where
  | transition (t : Transition)
  | composite (order : Order) (steps : List Step) (loop : Loop) (pause : Pause)
  deriving Repr

/-- A step with an optional name. -/
structure Program where
  name : Option String := none
  step : Step
  deriving Repr

/-- The name of a program in events. -/
def Program.displayName (p : Program) : String := p.name.getD "unnamed"

/-! ### Kinds and paths -/

/-- What a step is. -/
inductive StepKind where
  | transition
  | serial
  | parallel
  deriving DecidableEq, Repr

/-- The word for a kind. -/
def StepKind.word : StepKind → String
  | .transition => "transition"
  | .serial => "serial"
  | .parallel => "parallel"

/-- All kinds, in the order in which they are numbered. -/
def StepKind.all : List StepKind := [.transition, .serial, .parallel]

/-- The kind with a given word. -/
def StepKind.ofWord? (word : String) : Option StepKind :=
  StepKind.all.find? (·.word = word)

/-- The kind of the composites with a given order. -/
def Order.kind : Order → StepKind
  | .serial => .serial
  | .parallel => .parallel

/-- The kind of a step. -/
def Step.kind : Step → StepKind
  | .transition _ => .transition
  | .composite order .. => order.kind

/-- The way from the root of a tree to a step, with the kinds of the steps on it. -/
inductive Path where
  | root (kind : StepKind)
  | child (parent : Path) (index : Nat) (kind : StepKind)
  deriving DecidableEq, Repr

/-- How a path is written. -/
def Path.text : Path → String
  | .root kind => kind.word
  | .child parent index kind => parent.text ++ ".steps[" ++ toString index ++ "]." ++ kind.word

/-- The path of the root of a tree. -/
def Step.rootPath (s : Step) : Path := .root s.kind

/-! ### References -/

/-- A list extended by an element that it may not have yet. -/
def addNew {α : Type} [DecidableEq α] (xs : List α) (x : α) : List α :=
  if x ∈ xs then xs else xs ++ [x]

mutual

/-- The references that a tree adds to those already seen. -/
def Step.collect (seen : List DeviceRef) : Step → List DeviceRef
  | .transition t => (t.devices.getD []).foldl addNew seen
  | .composite _ steps _ _ => Step.collectAll seen steps

/-- `Step.collect` for one tree after the other. -/
def Step.collectAll (seen : List DeviceRef) : List Step → List DeviceRef
  | [] => seen
  | s :: rest => Step.collectAll (Step.collect seen s) rest

end

/-- The references that the transitions of a tree list, each once, in the order in which
they first occur. -/
def Step.references (s : Step) : List DeviceRef := s.collect []

end Lightshow
