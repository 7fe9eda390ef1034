import Lightshow.Run.Random
import Lightshow.Run.Result

/-!
# The world of a run

A run meets a world outside: references that are looked up, a gateway that is called, random
numbers, clocks, an observer, and a caller who may cancel. `Environment` is what the world
does, and `World` is how far things have come: the time, whether the run is to halt, and a
journal of all that happened.

The gateway may answer a call in any way that depends on the call and on what happened
before it. The caller may cancel at an instant, or inside an event or a call.

## Main definitions

* `alarm`, `spanEnds` — when an alarm rings, and when a span is over.
* `Call`, `Reply`, `Gateway` — calls of the gateway and what becomes of them.
* `Journal` — what happened, the latest first.
* `Environment`, `World` — the world outside and its state.
* `World.emit`, `World.call`, `World.record`, `World.fail` — what a run does to the world.
-/

namespace Lightshow

/-! ### Alarms -/

/-- How long it takes until an alarm rings that is set to an instant which no clock shows:
thirty years of 365 days. -/
def farFuture : Duration := Duration.seconds (30 * 365 * 86400)

/-- The last instant at which an alarm rings. Its milliseconds are counted in a word, of which
two values have another meaning. -/
def lastTick : Instant := Duration.millis (UInt64.size - 3)

/-- When an alarm rings that is set at an instant and is to ring when a span has passed.
Alarms ring on whole milliseconds only. If no clock shows the end of the span then the alarm is
set to the far future, and after the last tick it rings at once. -/
def alarm (now : Instant) (span : Duration) : Instant :=
  let rings := wholeMillis (now + if now + span < Bound.clockRange then span else farFuture)
  max now (min rings lastTick)

/-- When a span is over that begins to pass at an instant: at once if it lasts no time. -/
def spanEnds (now : Instant) (span : Duration) : Instant :=
  if span = 0 then now else alarm now span

/-! ### The gateway -/

/-- One application of a state to a device. -/
structure Call where
  time : Instant
  path : Path
  device : Device
  state : DeviceState
  /-- Whether an acknowledgement is waited for. -/
  wait : Bool
  /-- How often the transition applied the state to this device before. -/
  turn : Nat
  deriving DecidableEq, Repr

/-- What an acknowledgement says when it comes. -/
inductive Ack where
  | succeeded
  | failed (cause : GatewayError)
  /-- Nobody is left who could send it. -/
  | dropped
  deriving DecidableEq, Repr

/-- What a call comes to. -/
inductive Dispatch where
  | done
  | failed (cause : GatewayError)
  /-- An acknowledgement follows after a span, or never. -/
  | pending (ack : Option (Duration × Ack))
  deriving DecidableEq, Repr

/-- How long a call takes and what it comes to. -/
structure Reply where
  latency : Duration := 0
  outcome : Dispatch := .done
  deriving DecidableEq, Repr

/-! ### The journal -/

/-- Something that happened. -/
inductive Entry where
  | event (e : Event)
  /-- A call of the gateway begins. -/
  | called (c : Call)
  /-- A call of the gateway returns. -/
  | returned (c : Call)
  /-- It is known what a call came to, its acknowledgement included: an error, or none. -/
  | settled (c : Call) (error : Option DeviceError)
  /-- A transition begins to look up its references. -/
  | dispatched (path : Path) (t : Transition)
  /-- A reference is looked up. -/
  | resolved (r : DeviceRef)
  | failed (f : Failure)
  | drew (d : Draw)
  /-- A loop is entered. -/
  | entered (path : Path) (bound : Bound)
  /-- A loop is left after some iterations, since it allows no other one. -/
  | left (path : Path) (completed : Nat)
  /-- A loop cannot be entered. -/
  | barred (path : Path) (cause : LoopError)
  /-- The caller cancels. -/
  | cancelled
  /-- The run is to halt because of an error. -/
  | halted (cause : RunError)
  deriving DecidableEq, Repr

/-- How one thing that happened changes the number of calls to some devices that are under
way. -/
def Entry.traffic (device : Device → Bool) (n : Nat) : Entry → Nat
  | .called c => if device c.device then n + 1 else n
  | .returned c => if device c.device then n - 1 else n
  | _ => n

/-- Something that happened at an instant. -/
structure Record where
  time : Instant
  entry : Entry
  deriving DecidableEq, Repr

/-- What happened so far, the latest first. -/
abbrev Journal := List Record

namespace Journal

/-- The events of a journal with their instants, the first one first. -/
def events (j : Journal) : List (Instant × Event) :=
  j.reverse.filterMap fun r =>
    match r.entry with
    | .event e => some (r.time, e)
    | _ => none

/-- The calls of a journal, the first one first. -/
def calls (j : Journal) : List Call :=
  j.reverse.filterMap fun r =>
    match r.entry with
    | .called c => some c
    | _ => none

/-- The failures of a journal, the first one first. -/
def failures (j : Journal) : List Failure :=
  j.reverse.filterMap fun r =>
    match r.entry with
    | .failed f => some f
    | _ => none

/-- The draws of a journal, the first one first. -/
def draws (j : Journal) : List Draw :=
  j.reverse.filterMap fun r =>
    match r.entry with
    | .drew d => some d
    | _ => none

/-- The number of events of a journal. -/
def eventCount (j : Journal) : Nat :=
  j.countP fun r => match r.entry with | .event _ => true | _ => false

/-- The number of calls of a journal. -/
def callCount (j : Journal) : Nat :=
  j.countP fun r => match r.entry with | .called _ => true | _ => false

/-- The number of draws of a journal. -/
def drawCount (j : Journal) : Nat :=
  j.countP fun r => match r.entry with | .drew _ => true | _ => false

/-- The number of calls to some devices that are under way after what happened so far, and
the greatest number that was. -/
def traffic (device : Device → Bool) (j : Journal) : Nat × Nat :=
  j.foldr (fun r (n, top) => (r.entry.traffic device n, max top (r.entry.traffic device n)))
    (0, 0)

/-- The greatest number of calls to some devices that were under way at once. -/
def peak (device : Device → Bool) (j : Journal) : Nat := (j.traffic device).2

end Journal

/-! ### What the world does -/

/-- How a gateway answers a call, given what happened before. -/
abbrev Gateway := Journal → Call → Reply

/-- When the caller cancels a run: at an instant, inside an event or a call with a given
number, counted from one, or before a round with a given number, counted from zero. -/
structure Cancellation where
  time : Option Instant := none
  event : Option Nat := none
  call : Option Nat := none
  round : Option Nat := none
  deriving DecidableEq, Repr

/-- What the world does, and how a run is configured. -/
structure Environment where
  resolve : DeviceRef → Except Unmapped (List Device)
  gateway : Gateway
  random : RandomSource
  zone : Zone
  /-- What a clock of universal time shows at the instants of the run. -/
  wall : Instant → UtcTime
  cancellation : Cancellation := {}
  ackTimeout : Duration
  scope : PauseScope := .perIteration
  /-- The name of the run in its events. -/
  runId : String

/-- How far things have come. -/
structure World where
  now : Instant := 0
  /-- Whether the caller has cancelled. -/
  cancelled : Bool := false
  /-- Whether something has happened that ends the run. -/
  failed : Bool := false
  /-- Whether some part of the run gave way to the others and can go on at once. -/
  yielded : Bool := false
  /-- How many rounds of the run have begun. -/
  rounds : Nat := 0
  journal : Journal := []
  deriving Repr

namespace World

/-- Whether the run is to halt: nothing new is begun. -/
def halted (w : World) : Bool := w.cancelled || w.failed

/-- A world in which something more happened. -/
def note (e : Entry) (w : World) : World := { w with journal := ⟨w.now, e⟩ :: w.journal }

/-- A world in which the caller has cancelled if `due`. -/
def cancelIf (due : Bool) (w : World) : World :=
  if due && !w.cancelled then { w.note .cancelled with cancelled := true } else w

/-- The caller cancels if the instant for it has come, or the round. -/
def cancelOnTime (env : Environment) (w : World) : World :=
  w.cancelIf (env.cancellation.time.any (· ≤ w.now) || env.cancellation.round.any (· = w.rounds))

/-- An event is shown to the observer. -/
def emit (env : Environment) (e : Event) (w : World) : World :=
  let w := w.note (.event e)
  w.cancelIf (env.cancellation.event.any (· = w.journal.eventCount))

/-- A call of the gateway begins. -/
def call (env : Environment) (c : Call) (w : World) : World :=
  let w := w.note (.called c)
  w.cancelIf (env.cancellation.call.any (· = w.journal.callCount))

/-- The failure of a device is recorded. -/
def record (f : Failure) (w : World) : World := w.note (.failed f)

/-- The run is to halt because of an error. -/
def fail (cause : RunError) (w : World) : World := { w.note (.halted cause) with failed := true }

/-- A part of the run gives way to the others. -/
def yield (w : World) : World := { w with yielded := true }

/-- A round of the run begins. -/
def nextRound (w : World) : World := { w with yielded := false, rounds := w.rounds + 1 }

/-- A whole number is drawn. -/
def drawWhole (env : Environment) (min max : UInt64) (w : World) : UInt64 × World :=
  (env.random.whole w.journal.drawCount min max, w.note (.drew (.whole min max)))

/-- A float is drawn. -/
def drawReal (env : Environment) (min max : Float) (w : World) : Float × World :=
  (env.random.real w.journal.drawCount min max, w.note (.drew (.real min max)))

/-- How long a time option lasts this time. -/
def drawDuration (env : Environment) (o : TimeOption) (w : World) : Duration × World :=
  match o.jitter with
  | none => (o.duration 0, w)
  | some j =>
    let (part, w) := w.drawReal env j.min j.max
    (o.duration part, w)

/-- The bound of a loop that is entered now. -/
def enterLoop (env : Environment) (mode : LoopMode) (w : World) : Except LoopError Bound × World :=
  match mode.draw? with
  | none => (mode.bound env.zone w.now (env.wall w.now) 0, w)
  | some (min, max) =>
    let (times, w) := w.drawWhole env min max
    (mode.bound env.zone w.now (env.wall w.now) times, w)

end World

end Lightshow
