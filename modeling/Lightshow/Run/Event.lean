import Lightshow.Document.Basic
import Lightshow.Program.Step

/-!
# Events

An observer is shown what a run does while it does it: that it starts, that an iteration
begins, that a transition dispatches, that a device has been served, that a pause begins,
and that the run stops. Steps are named by their paths and devices by their labels.

* `Status` — how a run ends.
* `Event`, `Event.name`, `Event.document` — the events and how they are written.
-/

namespace Lightshow

/-- How a run ends. -/
inductive Status where
  /-- Every step ran; some devices may have failed. -/
  | completed
  /-- The caller cancelled the run. -/
  | cancelled
  /-- An error that leaves no way on. -/
  | fatal
  deriving DecidableEq, Repr

/-- The word for a status. -/
def Status.word : Status → String
  | completed => "completed"
  | cancelled => "cancelled"
  | fatal => "fatal"

/-- Something that happens during a run. -/
inductive Event where
  | started (run program : String)
  /-- An iteration of a composite begins. -/
  | iteration (order : Order) (path : String) (number : Nat) (mode : String)
  /-- A transition dispatches to some devices. -/
  | transition (path : String) (devices : List String)
  /-- A device has been served, possibly in vain. -/
  | applied (path device : String) (error : Option String)
  | paused (path : String) (seconds : Float)
  | stopped (run : String) (status : Status)
  deriving DecidableEq, Repr

namespace Event

/-- The name of an event. -/
def name : Event → String
  | started .. => "started"
  | iteration order .. => order.kind.word
  | transition .. => "transition"
  | applied .. => "applied"
  | paused .. => "paused"
  | stopped .. => "stopped"

/-- What an event tells besides its name. -/
def fields : Event → List (String × Document)
  | started run program => [("run_id", .text run), ("program", .text program)]
  | iteration _ path number mode =>
    [("path", .text path), ("iteration", .int number), ("mode", .text mode)]
  | transition path devices =>
    [("path", .text path), ("devices", .list .settled (devices.map .text))]
  | applied path device error =>
    [("path", .text path), ("device", .text device)]
      ++ (error.map fun e => ("error", Document.text e)).toList
  | paused path seconds => [("path", .text path), ("seconds", .float seconds)]
  | stopped run status => [("run_id", .text run), ("status", .text status.word)]

/-- An event as a document: a record that begins with the name of the event. -/
def document (e : Event) : Document :=
  .record .settled <|
    (("event", Document.text e.name) :: e.fields).map fun (key, d) => (.text key, d)

end Event

end Lightshow
