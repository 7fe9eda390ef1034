import Lightshow.Run.World

/-!
# Serving a device

A transition serves each of its devices as often as the device was named, one time after
the other. To serve a device is to call the gateway, to wait until the call returns, and, if
the transition waits, to wait for the acknowledgement until its window closes.

Before each call the queue looks whether the run is to halt. A call that has begun is seen
through. A device that cannot be served is a failure and the queue goes on, unless the
gateway cannot serve any device.

## Main definitions

* `Flow`, `Flow.merge` — how a part of a run ends.
* `Window` — the time in which an acknowledgement counts.
* `Queue`, `Queue.serve`, `Queue.poll` — queues and their progress.
-/

namespace Lightshow

/-! ### How a part of a run ends -/

/-- How a part of a run ends. -/
inductive Flow where
  | completed
  | cancelled
  | fatal (cause : RunError)
  deriving DecidableEq, Repr

namespace Flow

/-- Whether a part ended with what ends the run. -/
def isFatal : Flow → Bool
  | fatal _ => true
  | _ => false

/-- How parts that ran side by side end as a whole: with the first error that ends the run,
or else cancelled if one of them was. -/
def merge (flows : List Flow) : Flow :=
  match flows.find? isFatal with
  | some flow => flow
  | none => if flows.contains cancelled then cancelled else completed

end Flow

/-! ### Acknowledgements -/

/-- The time in which an acknowledgement counts: until the fade is over and the timeout has
passed. Fade and timeout together have to be a span that fits; a run in which they are not
comes to grief. -/
structure Window where
  /-- When the acknowledgement comes, and what it says. -/
  ack : Option (Instant × Ack)
  closes : Instant
  deriving DecidableEq, Repr

/-- What an acknowledgement means for the device. -/
def Ack.result : Ack → Except DeviceError Unit
  | succeeded => .ok ()
  | failed cause => .error (.gateway cause)
  | dropped => .error .ackDropped

namespace Window

/-- The window of a call that returns now. -/
def opened (env : Environment) (state : DeviceState) (now : Instant)
    (ack : Option (Duration × Ack)) : Window where
  ack := ack.map fun (span, a) => (now + span, a)
  closes := alarm now (state.fadeDuration + env.ackTimeout)

/-- What is known at an instant: what the acknowledgement says if it has come, or that it is
too late. -/
def result? (env : Environment) (now : Instant) (w : Window) : Option (Except DeviceError Unit) :=
  match w.ack.filter (·.1 ≤ now) with
  | some (_, ack) => some ack.result
  | none => if w.closes ≤ now then some (.error (.ackTimeout env.ackTimeout)) else none

/-- The next instant at which something happens to a window. -/
def due (w : Window) : Instant :=
  match w.ack with
  | some (t, _) => min t w.closes
  | none => w.closes

end Window

/-! ### Queues -/

/-- The serving of one device. -/
inductive Queue where
  /-- Nothing is under way. `left` calls follow, of which `call` is the first but for its
  time. -/
  | ready (call : Call) (left : Nat)
  /-- A call is under way and returns at an instant. `left` calls follow. -/
  | calling (call : Call) (left : Nat) (outcome : Dispatch) (returns : Instant)
  /-- An acknowledgement is waited for. `left` calls follow. -/
  | awaiting (call : Call) (left : Nat) (window : Window)
  | ended (flow : Flow)
  deriving DecidableEq, Repr

namespace Queue

/-- What a call that returns now comes to: a result, or a window for its acknowledgement. -/
def afterCall (env : Environment) (call : Call) (now : Instant) :
    Dispatch → Except DeviceError Unit ⊕ Window
  | .done => .inl (.ok ())
  | .failed cause => .inl (.error (.gateway cause))
  | .pending ack =>
    if call.wait then
      let window := Window.opened env call.state now ack
      match window.result? env now with
      | some result => .inl result
      | none => .inr window
    else .inl (.ok ())

/-- The error of a result, if there is one. -/
def error? : Except DeviceError Unit → Option DeviceError
  | .ok () => none
  | .error e => some e

/-- The result of a call is shown and recorded. A flow comes out if it ends the queue. -/
def settle (env : Environment) (call : Call) (result : Except DeviceError Unit) (w : World) :
    Option Flow × World :=
  let label := call.device.label
  let w := (w.note (.settled call (error? result))).emit env
    (.applied call.path.text label ((error? result).map DeviceError.message))
  match result with
  | .ok () => (none, w)
  | .error (.gateway cause) =>
    if cause.isFatal then (some (.fatal (.gateway label cause)), w.fail (.gateway label cause))
    else (none, w.record ⟨label, call.path.text, .gateway cause⟩)
  | .error e => (none, w.record ⟨label, call.path.text, e⟩)

/-- Serves a device `left` times more, as far as that goes without waiting. `call` is the
first of these calls but for its time. -/
def serve (env : Environment) : (left : Nat) → Call → World → Queue × World
  | 0, _, w => (ended .completed, w)
  | left + 1, call, w =>
    if w.halted then (ended .cancelled, w)
    else
      let call := { call with time := w.now }
      let reply := env.gateway w.journal call
      let w := w.call env call
      if reply.latency = 0 then
        let w := w.note (.returned call)
        match afterCall env call w.now reply.outcome with
        | .inr window => (awaiting call left window, w)
        | .inl result =>
          match settle env call result w with
          | (some flow, w) => (ended flow, w)
          | (none, w) => serve env left { call with turn := call.turn + 1 } w
      else (calling call left reply.outcome (w.now + reply.latency), w)

/-- Goes on after the result of a call. -/
def proceed (env : Environment) (call : Call) (left : Nat) (result : Except DeviceError Unit)
    (w : World) : Queue × World :=
  match settle env call result w with
  | (some flow, w) => (ended flow, w)
  | (none, w) => serve env left { call with turn := call.turn + 1 } w

/-- Goes on as far as that goes without waiting. -/
def poll (env : Environment) (q : Queue) (w : World) : Queue × World :=
  match q with
  | ended flow => (ended flow, w)
  | ready call left => serve env left call w
  | calling call left outcome returns =>
    if returns ≤ w.now then
      let w := w.note (.returned call)
      match afterCall env call w.now outcome with
      | .inl result => proceed env call left result w
      | .inr window => (awaiting call left window, w)
    else (calling call left outcome returns, w)
  | awaiting call left window =>
    match window.result? env w.now with
    | some result => proceed env call left result w
    | none => (awaiting call left window, w)

/-- Some queues in their order. -/
def pollAll (env : Environment) : List Queue → World → List Queue × World
  | [], w => ([], w)
  | q :: rest, w =>
    let (q, w) := poll env q w
    let (rest, w) := pollAll env rest w
    (q :: rest, w)

/-- How a queue ended. -/
def flow? : Queue → Option Flow
  | ended flow => some flow
  | _ => none

/-- The next instant at which something happens to a queue. -/
def due : Queue → Option Instant
  | calling _ _ _ returns => some returns
  | awaiting _ _ window => some window.due
  | ready .. | ended _ => none

end Queue

end Lightshow
