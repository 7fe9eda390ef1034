import Lightshow.Run.Queue

/-!
# Activities

An activity is what is left to do of a step. It goes on as far as it can without waiting
when it is polled, and what is then left is an activity again. The parts of a parallel
step, and the devices of a transition, are polled in their order.

A pause that is not over ends as cancelled once the run is to halt. An iteration begins
only if the loop allows another one and the run is not to halt, and after each iteration
an activity gives way to the others.

## Main definitions

* `Activity` — what is left to do.
* `Activity.poll` — going on without waiting.
* `Activity.due` — the next instant at which something happens.
* `Step.activity` — a step of which nothing is done yet.
-/

namespace Lightshow

/-- A composite that repeats its steps. -/
structure Block where
  path : Path
  order : Order
  mode : LoopMode
  deriving DecidableEq, Repr

/-- What is left to do of a step. -/
inductive Activity where
  | ended (flow : Flow)
  /-- A pause that has not begun, if there is one. -/
  | pause (path : Path) (option : Option TimeOption)
  /-- A pause until an instant. -/
  | sleeping (wake : Instant)
  /-- A transition that has not been dispatched. -/
  | dispatch (path : Path) (t : Transition)
  /-- The devices of a transition being served. -/
  | applying (queues : List Queue)
  /-- One after the other. -/
  | seq (first rest : Activity)
  /-- Side by side. -/
  | join (branches : List Activity)
  /-- A loop that has not been entered, with pauses around it. -/
  | enter (block : Block) (before : Option TimeOption) (body : Activity) (after : Option TimeOption)
  /-- A loop between two iterations. -/
  | rounds (block : Block) (bound : Bound) (completed : Nat) (body : Activity)
  /-- A loop within an iteration. -/
  | within (block : Block) (bound : Bound) (completed : Nat) (body current : Activity)
  deriving Repr

namespace Activity

/-- An activity and the world that it leaves. -/
abbrev Progress := Activity × World

/-- How an activity ended. -/
def flow? : Activity → Option Flow
  | ended flow => some flow
  | _ => none

/-! ### Pauses -/

/-- A span passes, which is over when an alarm rings. -/
def pollSleep (wake : Instant) (w : World) : Activity :=
  if w.halted then ended .cancelled
  else if wake ≤ w.now then ended .completed
  else sleeping wake

/-- A span begins to pass. -/
def beginSleep (span : Duration) (w : World) : Progress := (pollSleep (spanEnds w.now span) w, w)

/-- A pause begins, if there is one: its length is drawn, it is announced, and the time
begins to pass. -/
def beginPause (env : Environment) (path : Path) (o : Option TimeOption) (w : World) : Progress :=
  match o with
  | none => (ended .completed, w)
  | some o =>
    let (span, w) := w.drawDuration env o
    beginSleep span (w.emit env (.paused path.text span.toSeconds))

/-! ### Transitions -/

/-- The devices of a transition, each with the number of times it is to be served, and one
more device. -/
def count (queues : List (Device × Nat)) (d : Device) : List (Device × Nat) :=
  match queues with
  | [] => [(d, 1)]
  | (e, n) :: rest => if e = d then (e, n + 1) :: rest else (e, n) :: count rest d

/-- The devices that references mean. A reference that means none is recorded as a failure. -/
def resolveAll (env : Environment) (path : Path) :
    List DeviceRef → List (Device × Nat) → World → List (Device × Nat) × World
  | [], queues, w => (queues, w)
  | r :: rest, queues, w =>
    let w := w.note (.resolved r)
    match env.resolve r with
    | .ok devices => resolveAll env path rest (devices.foldl count queues) w
    | .error cause =>
      resolveAll env path rest queues (w.record ⟨r.text, path.text, .unresolved cause⟩)

/-- The queues of a transition that is dispatched at an instant. -/
def newQueues (now : Instant) (path : Path) (t : Transition) (devices : List (Device × Nat)) :
    List Queue :=
  devices.map fun (d, n) => .ready ⟨now, path, d, t.state, t.wait, 0⟩ n

/-- The devices being served, or how that ended as a whole. -/
def ofQueues (queues : List Queue) : Activity :=
  match queues.mapM Queue.flow? with
  | some flows => ended (.merge flows)
  | none => applying queues

/-- The references of a transition. -/
def references (t : Transition) : List DeviceRef := t.devices.getD [.allInputs]

/-- The references of a transition are looked up and the observer is told of the devices. -/
def announce (env : Environment) (path : Path) (t : Transition) (w : World) :
    List (Device × Nat) × World :=
  let (devices, w) := resolveAll env path (references t) [] (w.note (.dispatched path t))
  (devices, w.emit env (.transition path.text (devices.map (·.1.label))))

/-- A transition is dispatched, unless the run is to halt. Each device begins to be served, as
far as that goes without waiting. -/
def beginDispatch (env : Environment) (path : Path) (t : Transition) (w : World) : Progress :=
  if w.halted then (ended .cancelled, w)
  else
    let (devices, w) := announce env path t w
    let (queues, w) := Queue.pollAll env (newQueues w.now path t devices) w
    (ofQueues queues, w)

/-! ### Sequences and loops -/

/-- Goes on with `rest` if what was polled first is completed. -/
def andThen (first : Progress) (rest : Activity) (pollRest : World → Progress) : Progress :=
  match first with
  | (ended .completed, w) => pollRest w
  | (ended flow, w) => (ended flow, w)
  | (a, w) => (seq a rest, w)

/-- Parts that run side by side, or how they ended as a whole. -/
def ofBranches (branches : List Activity) : Activity :=
  match branches.mapM flow? with
  | some flows => ended (.merge flows)
  | none => join branches

/-- After a poll within an iteration: if the iteration is complete, the loop gives way before
it looks for another one. -/
def afterBody (block : Block) (bound : Bound) (completed : Nat) (body : Activity) :
    Progress → Progress
  | (ended .completed, w) => (rounds block bound (completed + 1) body, w.yield)
  | (ended flow, w) => (ended flow, w)
  | (current, w) => (within block bound completed body current, w)

/-- A loop between two iterations: it is over, or cancelled, or another iteration begins. -/
def beginRound (env : Environment) (block : Block) (bound : Bound) (completed : Nat)
    (body : Activity) (pollBody : World → Progress) (w : World) : Progress :=
  if !bound.continues completed w.now then
    (ended .completed, w.note (.left block.path completed))
  else if w.halted then (ended .cancelled, w)
  else
    let w := w.emit env
      (.iteration block.order block.path.text (completed + 1) block.mode.word)
    afterBody block bound completed body (pollBody w)

/-- A loop is entered: its bound is found, and its first iteration follows the pause before
it. -/
def beginLoop (env : Environment) (block : Block) (before : Option TimeOption) (body : Activity)
    (after : Option TimeOption) (pollBody : World → Progress) (w : World) : Progress :=
  match w.enterLoop env block.mode with
  | (.error cause, w) =>
    let error := RunError.loop block.path.text cause
    (ended (.fatal error), (w.note (.barred block.path cause)).fail error)
  | (.ok bound, w) =>
    let w := w.note (.entered block.path bound)
    let start := rounds block bound 0 body
    let finish := pause block.path after
    andThen (beginPause env block.path before w) (seq start finish) fun w =>
      andThen (beginRound env block bound 0 body pollBody w) finish
        (beginPause env block.path after)

/-! ### Going on -/

mutual

/-- Goes on as far as that goes without waiting. -/
def poll (env : Environment) : Activity → World → Progress
  | ended flow, w => (ended flow, w)
  | pause path o, w => beginPause env path o w
  | sleeping wake, w => (pollSleep wake w, w)
  | dispatch path t, w => beginDispatch env path t w
  | applying queues, w =>
    let (queues, w) := Queue.pollAll env queues w
    (ofQueues queues, w)
  | seq first rest, w => andThen (poll env first w) rest (poll env rest)
  | join branches, w =>
    let (branches, w) := pollAll env branches w
    (ofBranches branches, w)
  | enter block before body after, w => beginLoop env block before body after (poll env body) w
  | rounds block bound completed body, w =>
    beginRound env block bound completed body (poll env body) w
  | within block bound completed body current, w =>
    afterBody block bound completed body (poll env current w)

/-- Activities side by side, in their order. -/
def pollAll (env : Environment) : List Activity → World → List Activity × World
  | [], w => ([], w)
  | a :: rest, w =>
    let (a, w) := poll env a w
    let (rest, w) := pollAll env rest w
    (a :: rest, w)

end

/-! ### Waiting -/

/-- The earlier of two instants that may be missing. -/
def sooner : Option Instant → Option Instant → Option Instant
  | some t, some u => some (min t u)
  | some t, none => some t
  | none, u => u

mutual

/-- The next instant at which something happens to an activity. -/
def due : Activity → Option Instant
  | sleeping wake => some wake
  | applying queues => queues.foldl (fun t q => sooner t q.due) none
  | seq first _ => due first
  | join branches => dueAll branches
  | within _ _ _ _ current => due current
  | _ => none

/-- The next instant at which something happens to one of some activities. -/
def dueAll : List Activity → Option Instant
  | [] => none
  | a :: rest => sooner (due a) (dueAll rest)

end

/-- Activities one after the other. -/
def chain (activities : List Activity) : Activity := activities.foldr seq (ended .completed)

end Activity

/-! ### Steps -/

mutual

/-- A step at a path of which nothing is done yet. -/
def Step.activity (scope : PauseScope) (path : Path) : Step → Activity
  | .transition t =>
    .seq (.pause path t.pause.before) (.seq (.dispatch path t) (.pause path t.pause.after))
  | .composite order steps loop pause =>
    let steps := Step.activities scope path 0 steps
    let once := match order with
      | .serial => Activity.chain steps
      | .parallel => Activity.join steps
    let block : Block := ⟨path, order, loop.mode⟩
    match scope with
    | .perIteration =>
      .enter block none
        (.seq (.pause path pause.before)
          (.seq once (.seq (.pause path pause.after) (.pause path loop.pause))))
        none
    | .aroundLoop => .enter block pause.before (.seq once (.pause path loop.pause)) pause.after

/-- The steps of a composite at a path, of which the first has number `index`. -/
def Step.activities (scope : PauseScope) (path : Path) (index : Nat) : List Step → List Activity
  | [] => []
  | s :: rest =>
    Step.activity scope (.child path index s.kind) s
      :: Step.activities scope path (index + 1) rest

end

end Lightshow
