import Lightshow.Proofs.Run.Account
import Lightshow.Proofs.Run.Plain

/-!
# Acknowledgements that nobody reads

A transition that does not wait lets its calls go as soon as they return.  Whether an
acknowledgement follows, what it says and when it comes makes no difference to it, nor to any
other part of the run, although all parts share the devices, the failures and the halt.

What a run can read of a reply is a reply again, in which the acknowledgements that nobody waits
for are left out.  A run with what can be read in place of the replies goes through the same
worlds, round for round: the two runs differ only in what they keep in mind about calls under way,
and of that they use no more than can be read.  So two gateways with the same readable replies
cannot be told apart.

## Main definitions

* `Gateway.Alike` — gateways that differ in acknowledgements that nobody waits for.
* `Dispatch.read`, `Environment.read` — what can be read of replies.
* `Queue.read`, `Activity.read` — the same for calls that are under way.

## Main results

* `Activity.poll_read`, `Machine.round_read`, `Machine.after_read` — polls, rounds and runs.
* `Program.unread_acknowledgements` — **a run does not depend on acknowledgements that it does not
  wait for.**
-/

namespace Lightshow

/-! ### Replies -/

/-- Two gateways take the same time for a call, refuse it for the same causes, and, if an
acknowledgement is waited for, answer it alike in every respect. -/
structure Gateway.Alike (g g' : Gateway) : Prop where
  latency : ∀ j c, (g j c).latency = (g' j c).latency
  waited : ∀ j c, c.wait = true → (g j c).outcome = (g' j c).outcome
  refused : ∀ j c, c.wait = false →
    ∀ cause, (g j c).outcome = .failed cause ↔ (g' j c).outcome = .failed cause

/-- What can be read of what a call comes to.  If nobody waits for an acknowledgement, the call is
done. -/
def Dispatch.read (wait : Bool) : Dispatch → Dispatch
  | .pending ack => if wait then .pending ack else .done
  | outcome => outcome

/-- What can be read of a reply to a call. -/
def Reply.read (c : Call) (r : Reply) : Reply := { r with outcome := r.outcome.read c.wait }

/-- A world in which replies are no more than can be read of them. -/
def Environment.read (env : Environment) : Environment :=
  { env with gateway := fun j c => (env.gateway j c).read c }

/-- Without an acknowledgement to wait for, only refusals can be told apart. -/
theorem Dispatch.read_eq_of_refused {d d' : Dispatch}
    (h : ∀ cause, d = .failed cause ↔ d' = .failed cause) : d.read false = d'.read false := by
  cases d with
  | failed cause => rw [(h cause).mp rfl]
  | done | pending ack =>
    cases d' with
    | failed cause => exact absurd ((h cause).mpr rfl) nofun
    | done => rfl
    | pending ack => rfl

theorem Gateway.Alike.read {g g' : Gateway} (h : g.Alike g') (j : Journal) (c : Call) :
    (g j c).read c = (g' j c).read c := by
  have houtcome : (g j c).outcome.read c.wait = (g' j c).outcome.read c.wait := by
    cases hwait : c.wait with
    | true => rw [h.waited j c hwait]
    | false => exact Dispatch.read_eq_of_refused (h.refused j c hwait)
  rw [Reply.read, Reply.read, houtcome, h.latency j c]

variable {env : Environment}

/-! ### Queues -/

namespace Queue

/-- A queue that keeps in mind no more of its call than can be read. -/
def read : Queue → Queue
  | .calling call left outcome returns => .calling call left (outcome.read call.wait) returns
  | q => q

/-- A call that returns comes to what can be read of it. -/
theorem afterCall_read (env : Environment) (call : Call) (now : Instant) (outcome : Dispatch) :
    afterCall env.read call now (outcome.read call.wait) = afterCall env call now outcome := by
  cases outcome with
  | pending ack =>
    cases hwait : call.wait with
    | true => simp only [Dispatch.read, afterCall, hwait, if_true]; rfl
    | false => simp [Dispatch.read, afterCall, hwait]
  | _ => rfl

/-- Two ways to go on leave the same world, and the second one leaves what can be read of the queue
that the first one leaves. -/
def Reads (f f' : World → Queue × World) : Prop := ∀ w, f' w = ((f w).1.read, (f w).2)

theorem proceed_read {left : ℕ}
    (hserve : ∀ call, Reads (serve env left call) (serve env.read left call)) (call : Call)
    (result : Except DeviceError Unit) :
    Reads (proceed env call left result) (proceed env.read call left result) := by
  intro w
  have hsettle : settle env.read call result w = settle env call result w := rfl
  unfold proceed
  rw [hsettle]
  rcases settle env call result w with ⟨_ | flow, w'⟩
  · exact hserve _ w'
  · rfl

theorem calling_read {left : ℕ}
    (hserve : ∀ call, Reads (serve env left call) (serve env.read left call)) (call : Call)
    (outcome : Dispatch) (returns : Instant) :
    Reads (poll env (.calling call left outcome returns))
      (poll env.read (.calling call left (outcome.read call.wait) returns)) := by
  intro w
  unfold poll
  by_cases hr : returns ≤ w.now
  · simp only [if_pos hr, afterCall_read]
    cases afterCall env call (w.note (.returned call)).now outcome with
    | inl result => exact proceed_read hserve call result _
    | inr window => rfl
  · simp only [if_neg hr]
    rfl

theorem serve_read (left : ℕ) : ∀ call, Reads (serve env left call) (serve env.read left call) := by
  induction left with
  | zero => exact fun call w => rfl
  | succ left ih =>
    intro call w
    cases hw : w.halted with
    | true =>
      rw [serve, serve, if_pos hw, if_pos hw]
      rfl
    | false =>
      rw [serve_succ hw rfl, serve_succ hw rfl]
      by_cases hl : (env.gateway w.journal { call with time := w.now }).latency = 0
      · rw [if_pos hl]
        exact (if_pos hl).trans (calling_read ih _ _ _ _)
      · rw [if_neg hl]
        exact if_neg hl

theorem poll_read (q : Queue) : Reads (poll env q) (poll env.read q.read) := by
  cases q with
  | ready call left => exact serve_read left call
  | calling call left outcome returns => exact calling_read (serve_read left) call outcome returns
  | awaiting call left window =>
    intro w
    simp only [poll, read]
    have hresult : window.result? env.read w.now = window.result? env w.now := rfl
    rw [hresult]
    cases window.result? env w.now with
    | none => rfl
    | some result => exact proceed_read (serve_read left) call result w
  | ended flow => exact fun w => rfl

theorem pollAll_read (queues : List Queue) : ∀ w, pollAll env.read (queues.map read) w
    = ((pollAll env queues w).1.map read, (pollAll env queues w).2) := by
  induction queues with
  | nil => exact fun w => rfl
  | cons q queues ih =>
    intro w
    simp only [List.map_cons, pollAll, poll_read q w, ih]

theorem read_flow? (q : Queue) : q.read.flow? = q.flow? := by cases q <;> rfl

theorem read_due (q : Queue) : q.read.due = q.due := by cases q <;> rfl

end Queue

/-! ### Activities -/

mutual

/-- An activity that keeps in mind no more of its calls than can be read. -/
def Activity.read : Activity → Activity
  | .ended flow => .ended flow
  | .pause path o => .pause path o
  | .sleeping wake => .sleeping wake
  | .dispatch path t => .dispatch path t
  | .applying queues => .applying (queues.map Queue.read)
  | .seq first rest => .seq (Activity.read first) (Activity.read rest)
  | .join branches => .join (Activity.readAll branches)
  | .enter block before body after => .enter block before (Activity.read body) after
  | .rounds block bound completed body => .rounds block bound completed (Activity.read body)
  | .within block bound completed body current =>
    .within block bound completed (Activity.read body) (Activity.read current)

/-- Activities that keep in mind no more of their calls than can be read. -/
def Activity.readAll : List Activity → List Activity
  | [] => []
  | a :: rest => Activity.read a :: Activity.readAll rest

end

namespace Activity

theorem readAll_eq_map (branches : List Activity) : readAll branches = branches.map read := by
  induction branches with
  | nil => rfl
  | cons a branches ih => rw [readAll, ih, List.map_cons]

theorem read_flow? (a : Activity) : a.read.flow? = a.flow? := by
  cases a <;> simp only [read, flow?]

/-- Progress with an activity that keeps in mind no more than can be read. -/
def readProgress (x : Progress) : Progress := (x.1.read, x.2)

theorem beginSleep_read (span : Duration) (w : World) :
    readProgress (beginSleep span w) = beginSleep span w := by
  unfold beginSleep pollSleep
  split
  · rfl
  · split <;> rfl

theorem beginPause_read (path : Path) (o : Option TimeOption) (w : World) :
    beginPause env.read path o w = readProgress (beginPause env path o w) := by
  cases o with
  | none => rfl
  | some o => exact (beginSleep_read _ _).symm

theorem ofQueues_read (queues : List Queue) :
    ofQueues (queues.map Queue.read) = (ofQueues queues).read := by
  have hflows : (queues.map Queue.read).mapM Queue.flow? = queues.mapM Queue.flow? := by
    rw [List.mapM_map]
    exact congrArg (fun f => queues.mapM f) (funext Queue.read_flow?)
  unfold ofQueues
  rw [hflows]
  cases queues.mapM Queue.flow? <;> rfl

theorem ofBranches_read (branches : List Activity) :
    ofBranches (readAll branches) = (ofBranches branches).read := by
  have hflows : (readAll branches).mapM flow? = branches.mapM flow? := by
    rw [readAll_eq_map, List.mapM_map]
    exact congrArg (fun f => branches.mapM f) (funext read_flow?)
  unfold ofBranches
  rw [hflows]
  cases branches.mapM flow? <;> rfl

theorem newQueues_read (now : Instant) (path : Path) (t : Transition) (devices : List (Device × ℕ)) :
    (newQueues now path t devices).map Queue.read = newQueues now path t devices := by
  rw [newQueues, List.map_map]
  rfl

theorem beginDispatch_read (path : Path) (t : Transition) (w : World) :
    beginDispatch env.read path t w = readProgress (beginDispatch env path t w) := by
  unfold beginDispatch
  cases hw : w.halted with
  | true => rfl
  | false =>
    have hannounce : announce env.read path t w = announce env path t w := by
      rw [announce_eq, announce_eq]
      rfl
    simp only [hannounce, Bool.false_eq_true, if_false]
    conv_lhs => rw [← newQueues_read, Queue.pollAll_read]
    simp only [ofQueues_read]
    rfl

theorem andThen_read (first : Progress) (rest : Activity) {pollRest pollRest' : World → Progress}
    (hrest : ∀ w, pollRest' w = readProgress (pollRest w)) :
    andThen (readProgress first) rest.read pollRest' = readProgress (andThen first rest pollRest) := by
  obtain ⟨a, w⟩ := first
  cases a with
  | ended flow =>
    cases flow with
    | completed => exact hrest w
    | _ => rfl
  | _ => rfl

theorem afterBody_read (block : Block) (bound : Bound) (completed : ℕ) (body : Activity)
    (current : Progress) : afterBody block bound completed body.read (readProgress current)
      = readProgress (afterBody block bound completed body current) := by
  obtain ⟨a, w⟩ := current
  cases a with
  | ended flow => cases flow <;> rfl
  | _ => rfl

theorem beginRound_read (block : Block) (bound : Bound) (completed : ℕ) (body : Activity)
    {pollBody pollBody' : World → Progress} (hbody : ∀ w, pollBody' w = readProgress (pollBody w))
    (w : World) : beginRound env.read block bound completed body.read pollBody' w
      = readProgress (beginRound env block bound completed body pollBody w) := by
  unfold beginRound
  split
  · rfl
  · split
    · rfl
    · simp only [hbody]
      exact afterBody_read block bound completed body _

theorem beginLoop_read (block : Block) (before : Option TimeOption) (body : Activity)
    (after : Option TimeOption) {pollBody pollBody' : World → Progress}
    (hbody : ∀ w, pollBody' w = readProgress (pollBody w)) (w : World) :
    beginLoop env.read block before body.read after pollBody' w
      = readProgress (beginLoop env block before body after pollBody w) := by
  have henter : w.enterLoop env.read block.mode = w.enterLoop env block.mode := rfl
  unfold beginLoop
  rw [henter]
  rcases w.enterLoop env block.mode with ⟨cause | bound, w'⟩
  · rfl
  · simp only [beginPause_read]
    refine andThen_read _ (.seq (.rounds block bound 0 body) (.pause block.path after)) fun w => ?_
    rw [beginRound_read block bound 0 body hbody]
    exact andThen_read _ (.pause block.path after) (beginPause_read block.path after)

mutual

/-- **A poll uses no more of calls and replies than can be read.** -/
theorem poll_read : ∀ (a : Activity) (w : World),
    poll env.read a.read w = readProgress (poll env a w)
  | .ended flow, w => by
    rw [read, poll, poll]
    rfl
  | .pause path o, w => by
    rw [read, poll, poll]
    exact beginPause_read path o w
  | .sleeping wake, w => by
    rw [read, poll, poll, pollSleep]
    split
    · rfl
    · split <;> rfl
  | .dispatch path t, w => by
    rw [read, poll, poll]
    exact beginDispatch_read path t w
  | .applying queues, w => by
    rw [read, poll, poll, Queue.pollAll_read]
    simp only [ofQueues_read]
    rfl
  | .seq first rest, w => by
    rw [read, poll, poll, poll_read first w]
    exact andThen_read _ rest (poll_read rest)
  | .join branches, w => by
    rw [read, poll, poll, pollAll_read branches w]
    simp only [ofBranches_read]
    rfl
  | .enter block before body after, w => by
    rw [read, poll, poll]
    exact beginLoop_read block before body after (poll_read body) w
  | .rounds block bound completed body, w => by
    rw [read, poll, poll]
    exact beginRound_read block bound completed body (poll_read body) w
  | .within block bound completed body current, w => by
    rw [read, poll, poll, poll_read current w]
    exact afterBody_read block bound completed body _

theorem pollAll_read : ∀ (branches : List Activity) (w : World),
    pollAll env.read (readAll branches) w
      = (readAll (pollAll env branches w).1, (pollAll env branches w).2)
  | [], w => by
    rw [readAll, pollAll, pollAll, readAll]
  | a :: branches, w => by
    rw [readAll, pollAll, pollAll, poll_read a w]
    simp only [readProgress, pollAll_read branches, readAll]

end

mutual

theorem read_due : ∀ a : Activity, a.read.due = a.due
  | .applying queues => by
    rw [read, due, due, List.foldl_map]
    simp only [Queue.read_due]
  | .seq first rest => by rw [read, due, due, read_due first]
  | .join branches => by rw [read, due, due, readAll_due branches]
  | .within _ _ _ _ current => by rw [read, due, due, read_due current]
  | .ended _ | .pause .. | .sleeping _ | .dispatch .. => by rw [read]
  | .enter .. | .rounds .. => by simp only [read, due]

theorem readAll_due : ∀ branches : List Activity, dueAll (readAll branches) = dueAll branches
  | [] => by rw [readAll]
  | a :: branches => by rw [readAll, dueAll, dueAll, read_due a, readAll_due branches]

end

/-- Where nothing has begun, no calls are under way. -/
theorem Idle.read {a : Activity} (h : Idle a) : a.read = a := by
  induction h with
  | seq _ _ ihfirst ihrest => rw [Activity.read, ihfirst, ihrest]
  | join _ ih => rw [Activity.read, readAll_eq_map, List.map_congr_left ih, List.map_id']
  | enter _ _ _ _ ih => rw [Activity.read, ih]
  | rounds _ _ _ _ ih => rw [Activity.read, ih]
  | _ => rw [Activity.read]

end Activity

/-! ### Runs -/

namespace Machine

/-- A run that keeps in mind no more of its calls than can be read. -/
def read (m : Machine) : Machine := ⟨m.activity.read, m.world⟩

theorem advance_read (before : World) (m : Machine) :
    advance env.read before m.read = (advance env before m).read := by
  have hnext : nextInstant env.read m.activity.read m.world
      = nextInstant env m.activity m.world := by
    rw [nextInstant, nextInstant, Activity.read_due]
    rfl
  unfold advance
  rw [apply_ite read]
  refine if_congr Iff.rfl rfl ?_
  simp only [read, hnext]

theorem round_read (m : Machine) : m.read.round env.read = (m.round env).read := by
  have hpoll : Activity.poll env.read m.activity.read (World.cancelOnTime env.read m.world.nextRound)
      = Activity.readProgress (Activity.poll env m.activity _) := Activity.poll_read _ _
  have hbefore : World.cancelOnTime env.read m.world.nextRound
      = World.cancelOnTime env m.world.nextRound := rfl
  rw [hbefore] at hpoll
  unfold round
  simp only [read, hbefore, hpoll]
  rcases Activity.poll env m.activity (World.cancelOnTime env m.world.nextRound) with ⟨a, w⟩
  cases a with
  | ended flow => rfl
  | _ => exact advance_read _ ⟨_, w⟩

theorem after_read (n : ℕ) : ∀ m : Machine, m.read.after env.read n = (m.after env n).read := by
  induction n with
  | zero => exact fun m => rfl
  | succ n ih =>
    intro m
    obtain ⟨a, w⟩ := m
    cases a with
    | ended flow => rfl
    | _ => exact (congrArg (after env.read n) (round_read _)).trans (ih _)

theorem run?_read (fuel : ℕ) : ∀ m : Machine, m.read.run? env.read fuel = m.run? env fuel := by
  induction fuel with
  | zero =>
    intro m
    obtain ⟨a, w⟩ := m
    cases a <;> rfl
  | succ fuel ih =>
    intro m
    obtain ⟨a, w⟩ := m
    cases a with
    | ended flow => rfl
    | _ => exact (congrArg (run? env.read fuel) (round_read _)).trans (ih _)

end Machine

namespace Program

variable {p : Program}

theorem start_read (env : Environment) (p : Program) :
    Machine.start env.read p = (Machine.start env p).read := by
  have hscope : env.read.scope = env.scope := rfl
  have hworld : p.firstWorld env.read = p.firstWorld env := rfl
  by_cases hp : p.step.faults = []
  · rw [start_of_valid hp, start_of_valid hp, hscope, hworld, Machine.read,
      (Step.activity_idle env.scope p.step _).read]
  · rw [start_of_faults hp, start_of_faults hp, hworld]
    rfl

/-- **A run does not depend on acknowledgements that it does not wait for.**  Exchange the gateway
for one that differs from it in acknowledgements that nobody waits for: then after any number of
rounds the time is the same and the same has happened, each thing at the same instant; and either
both runs return with the same result in the same world, or none does. -/
theorem unread_acknowledgements (p : Program) {g : Gateway} (h : env.gateway.Alike g) :
    let env' := { env with gateway := g }
    (∀ n, ((Machine.start env' p).after env' n).world = ((Machine.start env p).after env n).world) ∧
      ∀ fuel, p.run? env' fuel = p.run? env fuel := by
  intro env'
  -- both runs are compared with the one in which no more is answered than can be read
  have hread : env'.read = env.read := by
    have hgateway : (fun j c => (g j c).read c) = fun j c => (env.gateway j c).read c :=
      funext fun j => funext fun c => (h.read j c).symm
    exact congrArg (fun gateway => { env with gateway := gateway }) hgateway
  have hstart : (Machine.start env' p).read = (Machine.start env p).read := by
    rw [← start_read, ← start_read, hread]
  constructor
  · intro n
    have hafter : ((Machine.start env' p).after env' n).read
        = ((Machine.start env p).after env n).read := by
      rw [← Machine.after_read, ← Machine.after_read, hstart, hread]
    have hworld := congrArg Machine.world hafter
    exact hworld
  · intro fuel
    have hrun : (Machine.start env' p).run? env' fuel = (Machine.start env p).run? env fuel :=
      calc (Machine.start env' p).run? env' fuel
          = (Machine.start env' p).read.run? env'.read fuel := (Machine.run?_read fuel _).symm
        _ = (Machine.start env p).read.run? env.read fuel := by rw [hstart, hread]
        _ = (Machine.start env p).run? env fuel := Machine.run?_read fuel _
    rw [Program.run?, Program.run?, hrun]
    rfl

/-- A lamp is served twice without waiting, while another transition waits for the spot.  Whether
the gateway reports after a nanosecond that it cannot be reached any more or is simply done with the
lamp, the run completes after ten nanoseconds. -/
theorem lamp_unread_failure :
    let quiet : Gateway := fun _ c => ⟨5, if c.wait then .pending (some (5, .succeeded)) else .done⟩
    let noisy : Gateway := fun _ c => ⟨5, .pending (some
      (if c.wait then (5, .succeeded) else (1, .failed (.unreachable "gone"))))⟩
    let env := { Environment.plain with gateway := quiet }
    let spot : Transition := { state := {}, devices := some [.light "spot"], wait := true }
    let p : Program :=
      ⟨none, .composite .parallel [.light "lamp" (.counted 2), .transition spot] {} {}⟩
    quiet.Alike noisy ∧ quiet ≠ noisy ∧ ∃ result w, p.run? env 9 = some (result, w) ∧
      p.run? { env with gateway := noisy } 9 = some (result, w) ∧ result.status = .completed ∧
        result.failures = [] ∧ w.now = 10 := by
  intro quiet noisy env spot p
  have halike : quiet.Alike noisy := by
    refine ⟨fun _ _ => rfl, fun _ c hc => ?_, fun _ c hc => ?_⟩
    · simp only [quiet, noisy, hc, if_true]
    · simp [quiet, noisy, hc]
  have hne : quiet ≠ noisy := by
    intro heq
    have hreply := congrFun (congrFun heq []) ⟨0, .root .transition, ⟨.light, 1, "lamp"⟩, {}, false, 0⟩
    exact absurd hreply (by decide)
  have hsame : p.run? { env with gateway := noisy } 9 = p.run? env 9 :=
    (unread_acknowledgements p halike).2 9
  have hruns : ((p.run? env 9).map fun x => (x.1.status, x.1.failures, x.2.now))
      = some (.completed, [], 10) := by decide +kernel
  obtain ⟨⟨result, w⟩, hrun, hseen⟩ := Option.map_eq_some_iff.mp hruns
  obtain ⟨hstatus, hrest⟩ := Prod.ext_iff.mp hseen
  obtain ⟨hfailures, hnow⟩ := Prod.ext_iff.mp hrest
  exact ⟨halike, hne, result, w, hrun, hsame.trans hrun, hstatus, hfailures, hnow⟩

end Program

end Lightshow
