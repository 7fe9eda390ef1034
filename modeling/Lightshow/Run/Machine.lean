import Lightshow.Run.Activity

/-!
# Running programs

A run goes through rounds. In a round everything that can go on does so. If something gave
way, or if the run came to halt, another round follows at once; otherwise the clock jumps to
the next instant at which something happens.

A program with faults is not run: it starts, and it stops with its faults.

## Main definitions

* `Machine`, `Machine.begin`, `Machine.round` — a run between its rounds.
* `Machine.run?` — rounds up to the end of the run.
* `Program.run?` — the result of a run and the world that it leaves.
* `Duration.sleep` — a span that passes on its own.
-/

namespace Lightshow

/-- A run between two rounds: what is left to do, and the world. -/
structure Machine where
  activity : Activity
  world : World
  deriving Repr

namespace Machine

/-- A run begins. -/
def start (env : Environment) (p : Program) : Machine :=
  let w := World.emit env (.started env.runId p.displayName) (World.cancelOnTime env {})
  match p.step.faults with
  | [] => ⟨p.step.activity env.scope p.step.rootPath, w⟩
  | faults => ⟨.ended (.fatal (.invalidProgram faults)), w⟩

/-- The next instant at which something happens to an activity, or the caller cancels. -/
def nextInstant (env : Environment) (a : Activity) (w : World) : Instant :=
  let caller := if w.cancelled then none else env.cancellation.time
  (Activity.sooner a.due caller).getD w.now

/-- The clock after a round: it stands still if another round follows at once. `before` is
the world in which the round began. -/
def advance (env : Environment) (before : World) (m : Machine) : Machine :=
  if m.world.yielded || (m.world.halted && !before.halted) then m
  else { m with world := { m.world with now := nextInstant env m.activity m.world } }

/-- One round. -/
def round (env : Environment) (m : Machine) : Machine :=
  let before := World.cancelOnTime env m.world.nextRound
  let (a, w) := m.activity.poll env before
  match a with
  | .ended flow => ⟨.ended flow, w⟩
  | a => advance env before ⟨a, w⟩

/-- Rounds up to the end of the run, if no more than `fuel` are needed. -/
def run? (env : Environment) : (fuel : Nat) → Machine → Option (Flow × World)
  | _, ⟨.ended flow, w⟩ => some (flow, w)
  | 0, _ => none
  | fuel + 1, m => run? env fuel (round env m)

end Machine

/-- The status of a run that ends in some way. -/
def Flow.status : Flow → Status
  | .completed => .completed
  | .cancelled => .cancelled
  | .fatal _ => .fatal

/-- The error that ended a run. -/
def Flow.error? : Flow → Option RunError
  | .fatal cause => some cause
  | _ => none

/-- The result of a run that ends in some way, and the world after its last event. -/
def Flow.result (env : Environment) (flow : Flow) (w : World) : RunResult × World :=
  (⟨flow.status, w.journal.failures, flow.error?⟩, w.emit env (.stopped env.runId flow.status))

/-- The result of a run and the world that it leaves, if it ends within `fuel` rounds. -/
def Program.run? (env : Environment) (fuel : Nat) (p : Program) : Option (RunResult × World) :=
  ((Machine.start env p).run? env fuel).map fun (flow, w) => flow.result env w

/-- A span that passes at the start of a clock, with nothing else to do. -/
def Machine.sleeping (env : Environment) (span : Duration) : Machine :=
  let (a, w) := Activity.beginSleep span (World.cancelOnTime env {})
  ⟨a, w⟩

/-- How a span passes at the start of a clock, and the world that it leaves. Two rounds are
enough: one to see that it is not over and one to see how it ended. -/
def Duration.sleep (env : Environment) (span : Duration) : Option (Flow × World) :=
  (Machine.sleeping env span).run? env 2

end Lightshow
