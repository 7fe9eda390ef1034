import Lightshow.Proofs.Run.Answer
import Lightshow.Proofs.Run.Plain
import Lightshow.Proofs.Run.Result
import Mathlib.Algebra.Order.Group.Multiset
import Mathlib.Tactic.Abel

/-!
# Keeping account of calls and failures

Failures are recorded by all parts of a run as they come up, while other parts go on, halt or
turn out to be beyond help.  None may be lost on the way, and none may be counted twice.  So we
keep account.  A call that has begun is *in flight* until it is known what it came to, and then
it is settled, shown, and recorded as a failure or not.  A reference that means nothing is
recorded when its transition is dispatched.

The account of the world alone is kept by whatever is done to it, since what belongs together is
written together.  That calls are settled once is another matter: they are in flight in some
part of the activity, and we follow them there.  It matters here that the parts that have not
begun yet have no call in flight, or else a loop would multiply them.

## Main definitions

* `World.Balanced` — the account of a world.
* `Activity.inFlight` — the calls that are in flight.
* `Activity.Idle`, `Activity.Ready` — nothing has begun in an activity, or in what comes later.

## Main results

* `Activity.Move.handles` — a call is in flight from its beginning until it is settled.
* `Machine.Moves.accounted` — the account of a run.
* `Program.failures_of_returns` — the failures of a run.
-/

namespace Lightshow

open World

variable {env : Environment}

/-! ### The account of a world -/

/-- The event of an entry that shows what a call came to. -/
def Entry.applied? : Entry → Option Event
  | .event (.applied path device error) => some (.applied path device error)
  | _ => none

/-- The event of an entry that shows a transition. -/
def Entry.transition? : Entry → Option Event
  | .event (.transition path devices) => some (.transition path devices)
  | _ => none

/-- The failures of the references of a transition that mean no device. -/
def unresolved (env : Environment) (d : Path × Transition) : List Failure :=
  (Activity.references d.2).filterMap (DeviceRef.failure? env.resolve d.1)

/-- The event that shows a transition. -/
def announces (env : Environment) (d : Path × Transition) : Event :=
  .transition d.1.text ((Activity.announced env d.2).map (·.1.label))

namespace World

/-- What is written belongs together: settled calls are shown, dispatched transitions are shown
and their references looked up, and failures come from the one or the other. -/
structure Balanced (env : Environment) (w : World) : Prop where
  applied : w.see Entry.applied? = (w.see Entry.settled?).map fun x => x.1.applied x.2
  transitions : w.see Entry.transition? = (w.see Entry.dispatched?).map (announces env)
  resolved : w.see Entry.resolved?
    = (w.see Entry.dispatched?).flatMap fun d => Activity.references d.2
  failures : (w.see Entry.failure?).Perm ((w.see Entry.dispatched?).flatMap (unresolved env)
    ++ (w.see Entry.settled?).filterMap fun x => x.1.failure? x.2)

/-- An entry that an account depends on, and nothing for any other entry. -/
def booked? : Entry → Option Entry
  | .settled c e => some (.settled c e)
  | .dispatched p t => some (.dispatched p t)
  | .resolved r => some (.resolved r)
  | .failed f => some (.failed f)
  | .event (.applied p d e) => some (.event (.applied p d e))
  | .event (.transition p ds) => some (.event (.transition p ds))
  | _ => none

/-- The views of an account see nothing else. -/
theorem bind_booked (e : Entry) :
    e.applied? = (booked? e).bind Entry.applied? ∧
      e.transition? = (booked? e).bind Entry.transition? ∧
      e.settled? = (booked? e).bind Entry.settled? ∧
      e.dispatched? = (booked? e).bind Entry.dispatched? ∧
      e.resolved? = (booked? e).bind Entry.resolved? ∧
      e.failure? = (booked? e).bind Entry.failure? := by
  cases e with
  | event e => cases e <;> exact ⟨rfl, rfl, rfl, rfl, rfl, rfl⟩
  | _ => exact ⟨rfl, rfl, rfl, rfl, rfl, rfl⟩

/-- An account stays the same if nothing is written that it depends on. -/
theorem Balanced.of_see {w w' : World} (h : w.Balanced env)
    (hsee : w'.see booked? = w.see booked?) : w'.Balanced env := by
  have happlied := see_of_base (fun e => (bind_booked e).1) hsee
  have htransitions := see_of_base (fun e => (bind_booked e).2.1) hsee
  have hsettled := see_of_base (fun e => (bind_booked e).2.2.1) hsee
  have hdispatched := see_of_base (fun e => (bind_booked e).2.2.2.1) hsee
  have hresolved := see_of_base (fun e => (bind_booked e).2.2.2.2.1) hsee
  have hfailures := see_of_base (fun e => (bind_booked e).2.2.2.2.2) hsee
  constructor
  · rw [happlied, hsettled, h.applied]
  · rw [htransitions, hdispatched, h.transitions]
  · rw [hresolved, hdispatched, h.resolved]
  · rw [hfailures, hdispatched, hsettled]
    exact h.failures

/-- When a call is settled, it is shown, and recorded if it failed. -/
theorem Balanced.settle {w : World} (h : w.Balanced env) (c : Call)
    (result : Except DeviceError Unit) : (Queue.settle env c result w).2.Balanced env := by
  have hsettled : (Queue.settle env c result w).2.see Entry.settled?
      = w.see Entry.settled? ++ [(c, Queue.error? result)] := by
    rw [Queue.see_settle rfl]
    simp [Entry.settled?]
  have hdispatched : (Queue.settle env c result w).2.see Entry.dispatched?
      = w.see Entry.dispatched? := by
    rw [Queue.see_settle rfl]
    simp [Entry.dispatched?]
  constructor
  · rw [hsettled, Queue.see_settle rfl, h.applied]
    simp [Entry.applied?, Call.applied]
  · rw [hdispatched, Queue.see_settle rfl, h.transitions]
    simp [Entry.transition?, Call.applied]
  · rw [hdispatched, Queue.see_settle rfl, h.resolved]
    simp [Entry.resolved?]
  · have hfailure : (Queue.settle env c result w).2.see Entry.failure?
        = w.see Entry.failure? ++ (c.failure? (Queue.error? result)).toList := by
      rw [Queue.see_settle rfl]
      simp [Entry.failure?]
    rw [hsettled, hdispatched, hfailure, List.filterMap_append, ← List.append_assoc]
    refine h.failures.append (List.Perm.of_eq ?_)
    rw [List.filterMap_cons]
    cases c.failure? (Queue.error? result) <;> rfl

/-- When a transition is dispatched, its references are looked up, and those that mean nothing
are recorded. -/
theorem Balanced.announce {w : World} (h : w.Balanced env) (path : Path) (t : Transition) :
    (Activity.announce env path t w).2.Balanced env := by
  have hsettled : (Activity.announce env path t w).2.see Entry.settled?
      = w.see Entry.settled? := by
    rw [Activity.see_announce_blind rfl (fun _ => rfl) fun _ => rfl]
    exact List.append_nil _
  have hdispatched : (Activity.announce env path t w).2.see Entry.dispatched?
      = w.see Entry.dispatched? ++ [(path, t)] := by
    rw [Activity.see_announce_blind rfl (fun _ => rfl) fun _ => rfl]
    rfl
  constructor
  · rw [hsettled, Activity.see_announce_blind rfl (fun _ => rfl) fun _ => rfl, h.applied]
    exact List.append_nil _
  · rw [hdispatched, Activity.see_announce_blind rfl (fun _ => rfl) fun _ => rfl, h.transitions,
      List.map_append]
    rfl
  · have hrefs : (Activity.announce env path t w).2.see Entry.resolved?
        = w.see Entry.resolved? ++ Activity.references t := by
      have hlookup : ∀ r, (lookup env.resolve path r).filterMap Entry.resolved? = [r] := by
        intro r
        rw [lookup]
        cases r.failure? env.resolve path <;> rfl
      rw [Activity.see_announce rfl]
      simp [hlookup, Entry.resolved?]
    rw [hdispatched, hrefs, h.resolved, List.flatMap_append]
    simp
  · have hfailure : (Activity.announce env path t w).2.see Entry.failure?
        = w.see Entry.failure? ++ unresolved env (path, t) := by
      have hlookup : ∀ r, (lookup env.resolve path r).filterMap Entry.failure?
          = (r.failure? env.resolve path).toList := by
        intro r
        rw [lookup]
        cases r.failure? env.resolve path <;> rfl
      rw [Activity.see_announce rfl]
      simp [hlookup, Entry.failure?, unresolved, List.filterMap_eq_flatMap_toList]
    rw [hsettled, hdispatched, hfailure, List.flatMap_append]
    have hperm := h.failures.append_right (unresolved env (path, t))
    refine hperm.trans ?_
    rw [List.append_assoc, List.append_assoc]
    refine List.Perm.append_left _ ?_
    simpa using List.perm_append_comm

end World

/-! ### Calls -/

/-- The calls that are in flight in a queue. -/
def Queue.inFlight : Queue → List Call
  | .calling call _ _ _ | .awaiting call _ _ => [call]
  | .ready .. | .ended _ => []

mutual

/-- The calls that are in flight in an activity. -/
def Activity.inFlight : Activity → List Call
  | .applying queues => queues.flatMap Queue.inFlight
  | .seq first _ => Activity.inFlight first
  | .join branches => Activity.inFlightAll branches
  | .within _ _ _ _ current => Activity.inFlight current
  | _ => []

/-- The calls that are in flight in some activities. -/
def Activity.inFlightAll : List Activity → List Call
  | [] => []
  | a :: rest => Activity.inFlight a ++ Activity.inFlightAll rest

end

/-- Nothing has begun in an activity. -/
inductive Activity.Idle : Activity → Prop
  | ended (flow : Flow) : Idle (.ended flow)
  | pause (path : Path) (o : Option TimeOption) : Idle (.pause path o)
  | dispatch (path : Path) (t : Transition) : Idle (.dispatch path t)
  | seq {first rest : Activity} (hfirst : Idle first) (hrest : Idle rest) : Idle (.seq first rest)
  | join {branches : List Activity} (h : ∀ a ∈ branches, Idle a) : Idle (.join branches)
  | enter (block : Block) (before after : Option TimeOption) {body : Activity} (h : Idle body) :
      Idle (.enter block before body after)
  | rounds (block : Block) (bound : Bound) (completed : ℕ) {body : Activity} (h : Idle body) :
      Idle (.rounds block bound completed body)

/-- Nothing has begun in an activity of what comes later. -/
inductive Activity.Ready : Activity → Prop
  | ended (flow : Flow) : Ready (.ended flow)
  | pause (path : Path) (o : Option TimeOption) : Ready (.pause path o)
  | sleeping (wake : Instant) : Ready (.sleeping wake)
  | dispatch (path : Path) (t : Transition) : Ready (.dispatch path t)
  | applying (queues : List Queue) : Ready (.applying queues)
  | seq {first rest : Activity} (hfirst : Ready first) (hrest : Idle rest) :
      Ready (.seq first rest)
  | join {branches : List Activity} (h : ∀ a ∈ branches, Ready a) : Ready (.join branches)
  | enter (block : Block) (before after : Option TimeOption) {body : Activity} (h : Idle body) :
      Ready (.enter block before body after)
  | rounds (block : Block) (bound : Bound) (completed : ℕ) {body : Activity} (h : Idle body) :
      Ready (.rounds block bound completed body)
  | within (block : Block) (bound : Bound) (completed : ℕ) {body current : Activity}
      (hbody : Idle body) (hcurrent : Ready current) :
      Ready (.within block bound completed body current)

namespace Activity

theorem inFlightAll_eq_flatMap (branches : List Activity) :
    inFlightAll branches = branches.flatMap inFlight := by
  induction branches with
  | nil => rfl
  | cons a branches ih => rw [inFlightAll, ih, List.flatMap_cons]

theorem Idle.ready {a : Activity} (h : Idle a) : Ready a := by
  induction h with
  | ended flow => exact .ended flow
  | pause path o => exact .pause path o
  | dispatch path t => exact .dispatch path t
  | seq _ hrest ih => exact .seq ih hrest
  | join _ ih => exact .join ih
  | enter block before after h => exact .enter block before after h
  | rounds block bound completed h => exact .rounds block bound completed h

theorem Idle.inFlight {a : Activity} (h : Idle a) : a.inFlight = [] := by
  induction h with
  | seq _ _ ih => exact ih
  | join _ ih =>
    rw [Activity.inFlight, inFlightAll_eq_flatMap]
    exact List.flatMap_eq_nil_iff.mpr ih
  | _ => rfl

/-- **What comes later has not begun.** -/
theorem Move.ready {a a' : Activity} {w w' : World} (h : Move env a w a' w') (ha : Ready a) :
    Ready a' := by
  induction h with
  | pause =>
    exact beginPause_activity _ _ _ _ (fun _ => .ended _) (fun _ => .ended _) fun _ => .sleeping
  | wake => exact pollSleep_activity _ _ (fun _ => .ended _) (fun _ => .ended _) fun _ => .sleeping
  | dispatch => exact .applying _
  | serve => exact .applying _
  | first _ ih =>
    cases ha with
    | seq hfirst hrest => exact .seq (ih hfirst) hrest
  | second =>
    cases ha with
    | seq _ hrest => exact hrest.ready
  | branch before after _ ih =>
    cases ha with
    | join h => exact .join (forall_mem_replace h ih)
  | enter =>
    cases ha with
    | enter _ _ _ h => exact .seq (.pause _ _) (.seq (.rounds _ _ _ h) (.pause _ _))
  | begin =>
    cases ha with
    | rounds _ _ _ h => exact .within _ _ _ h h.ready
  | inside _ ih =>
    cases ha with
    | within _ _ _ hbody hcurrent => exact .within _ _ _ hbody (ih hcurrent)
  | again =>
    cases ha with
    | within _ _ _ hbody _ => exact .rounds _ _ _ hbody
  | _ => exact .ended _

/-- Calls begin and are settled in one part, and those of the other parts stay in flight. -/
theorem perm_frame {before after begun settled x y : List Call}
    (h : (x ++ begun).Perm (settled ++ y)) :
    (before ++ (x ++ after) ++ begun).Perm (settled ++ (before ++ (y ++ after))) := by
  rw [← Multiset.coe_eq_coe] at h ⊢
  simp only [← Multiset.coe_add] at h ⊢
  calc (↑before + (↑x + ↑after) + ↑begun : Multiset Call)
      = ↑before + ↑after + (↑x + ↑begun) := by abel
    _ = ↑before + ↑after + (↑settled + ↑y) := by rw [h]
    _ = ↑settled + (↑before + (↑y + ↑after)) := by abel

end Activity

/-- From one world to another some calls begin and some are settled, and those that are in flight
change accordingly. -/
def Handles (w w' : World) (x y : List Call) : Prop :=
  ∃ begun settled, w'.see Entry.call? = w.see Entry.call? ++ begun ∧
    w'.see Entry.settled? = w.see Entry.settled? ++ settled ∧
    (x ++ begun).Perm (settled.map Prod.fst ++ y)

/-- Nothing happens to calls. -/
theorem Handles.nothing {w w' : World} (x : List Call)
    (hcall : w'.see Entry.call? = w.see Entry.call?)
    (hsettled : w'.see Entry.settled? = w.see Entry.settled?) : Handles w w' x x := by
  refine ⟨[], [], ?_, ?_, ?_⟩
  · rw [hcall, List.append_nil]
  · rw [hsettled, List.append_nil]
  · rw [List.append_nil]
    exact List.Perm.refl x

theorem Handles.frame {w w' : World} {x y : List Call} (h : Handles w w' x y)
    (before after : List Call) :
    Handles w w' (before ++ (x ++ after)) (before ++ (y ++ after)) := by
  obtain ⟨begun, settled, hcall, hsettled, hperm⟩ := h
  exact ⟨begun, settled, hcall, hsettled, Activity.perm_frame hperm⟩

namespace Queue

theorem settle_handles (call : Call) (left : ℕ) (result : Except DeviceError Unit) {w v : World}
    (hcall : v.see Entry.call? = w.see Entry.call?)
    (hsettled : v.see Entry.settled? = w.see Entry.settled?) :
    Handles w (settle env call result v).2 [call]
      (next call left (settle env call result v).1).inFlight := by
  refine ⟨[], [(call, error? result)], ?_, ?_, ?_⟩
  · rw [see_settle rfl, hcall]
    simp [Entry.call?]
  · rw [see_settle rfl, hsettled]
    simp [Entry.settled?]
  · rw [settle_flow]
    cases call.fatal? (error? result) <;> exact List.Perm.refl _

theorem Move.handles {q q' : Queue} {w w' : World} (h : Move env q w q' w') :
    Handles w w' q.inFlight q'.inFlight := by
  cases h with
  | finish => exact .nothing _ rfl rfl
  | halt => exact .nothing _ rfl rfl
  | @call _ c _ w =>
    exact ⟨[c], [], see_call _ _ rfl _, see_call _ _ rfl _, List.Perm.refl _⟩
  | await =>
    refine .nothing _ ?_ ?_
    · exact see_note_none _ rfl
    · exact see_note_none _ rfl
  | answer =>
    refine settle_handles _ _ _ ?_ ?_
    · exact see_note_none _ rfl
    · exact see_note_none _ rfl
  | acknowledge => exact settle_handles _ _ _ rfl rfl

end Queue

namespace Activity

/-- **A call is in flight from its beginning until it is settled.** -/
theorem Move.handles {a a' : Activity} {w w' : World} (h : Move env a w a' w') (ha : Ready a) :
    Handles w w' a.inFlight a'.inFlight := by
  induction h with
  | pause =>
    rw [beginPause_nil Activity.inFlight (fun _ => rfl) fun _ => rfl]
    refine .nothing _ ?_ ?_
    · exact see_beginPause_none rfl (fun _ => rfl) (fun _ _ => rfl) _ _
    · exact see_beginPause_none rfl (fun _ => rfl) (fun _ _ => rfl) _ _
  | wake =>
    rw [pollSleep_nil Activity.inFlight (fun _ => rfl) fun _ => rfl]
    exact .nothing _ rfl rfl
  | @dispatch path t w =>
    have hflight : ∀ now devices, (applying (newQueues now path t devices)).inFlight = [] :=
      fun now devices => List.flatMap_eq_nil_iff.mpr fun q hq => by
        obtain ⟨d, -, rfl⟩ := List.mem_map.mp hq
        rfl
    rw [hflight]
    refine .nothing _ ?_ ?_
    · exact see_announce_none rfl (fun _ => rfl) (fun _ => rfl) (fun _ _ => rfl)
        (fun _ _ => rfl) _ _
    · exact see_announce_none rfl (fun _ => rfl) (fun _ => rfl) (fun _ _ => rfl)
        (fun _ _ => rfl) _ _
  | serve before after hq =>
    simp only [Activity.inFlight, List.flatMap_append, List.flatMap_cons]
    exact hq.handles.frame _ _
  | @served flows w =>
    have hflight : (applying (flows.map .ended)).inFlight = [] :=
      List.flatMap_eq_nil_iff.mpr fun q hq => by
        obtain ⟨flow, -, rfl⟩ := List.mem_map.mp hq
        rfl
    rw [hflight]
    exact .nothing _ rfl rfl
  | first _ ih =>
    cases ha with
    | seq hfirst _ => exact ih hfirst
  | second =>
    cases ha with
    | seq _ hrest =>
      -- the rest has not begun, so it has no call in flight
      rw [hrest.inFlight]
      exact .nothing _ rfl rfl
  | branch before after _ ih =>
    cases ha with
    | join h =>
      simp only [Activity.inFlight, inFlightAll_eq_flatMap, List.flatMap_append,
        List.flatMap_cons]
      exact (ih (h _ (List.mem_append_right _ List.mem_cons_self))).frame _ _
  | @joined flows w =>
    have hflight : (join (flows.map .ended)).inFlight = [] := by
      rw [Activity.inFlight, inFlightAll_eq_flatMap]
      exact List.flatMap_eq_nil_iff.mpr fun q hq => by
        obtain ⟨flow, -, rfl⟩ := List.mem_map.mp hq
        rfl
    rw [hflight]
    exact .nothing _ rfl rfl
  | bar he =>
    refine .nothing _ ?_ ?_
    · rw [see_fail_none _ rfl, see_note_none _ rfl, see_enterLoop (fun _ => rfl) he]
    · rw [see_fail_none _ rfl, see_note_none _ rfl, see_enterLoop (fun _ => rfl) he]
  | enter he =>
    refine .nothing _ ?_ ?_
    · rw [see_note_none _ rfl, see_enterLoop (fun _ => rfl) he]
    · rw [see_note_none _ rfl, see_enterLoop (fun _ => rfl) he]
  | expire => exact .nothing _ (see_note_none _ rfl) (see_note_none _ rfl)
  | begin =>
    cases ha with
    | rounds _ _ _ h =>
      -- nor has the body of the loop
      simp only [Activity.inFlight, h.inFlight]
      refine .nothing _ ?_ ?_
      · exact see_emit_none _ _ rfl rfl
      · exact see_emit_none _ _ rfl rfl
  | inside _ ih =>
    cases ha with
    | within _ _ _ _ hcurrent => exact ih hcurrent
  | _ => exact .nothing _ rfl rfl

end Activity

/-! ### Transitions -/

mutual

/-- The transitions of a step at a path, with their paths. -/
def Step.transitionsAt (path : Path) : Step → List (Path × Transition)
  | .transition t => [(path, t)]
  | .composite _ steps _ _ => Step.transitionsFrom path 0 steps

/-- The transitions of the steps of a composite at a path, of which the first has number
`index`. -/
def Step.transitionsFrom (path : Path) (index : ℕ) : List Step → List (Path × Transition)
  | [] => []
  | s :: rest =>
    Step.transitionsAt (.child path index s.kind) s ++ Step.transitionsFrom path (index + 1) rest

end

/-- The transitions of a program, with their paths. -/
def Program.transitions (p : Program) : List (Path × Transition) :=
  p.step.transitionsAt p.step.rootPath

mutual

/-- The transitions that are still to be dispatched in an activity, now or later. -/
def Activity.dispatches : Activity → List (Path × Transition)
  | .dispatch path t => [(path, t)]
  | .seq first rest => Activity.dispatches first ++ Activity.dispatches rest
  | .join branches => Activity.dispatchesAll branches
  | .enter _ _ body _ => Activity.dispatches body
  | .rounds _ _ _ body => Activity.dispatches body
  | .within _ _ _ body current => Activity.dispatches body ++ Activity.dispatches current
  | _ => []

/-- The transitions that are still to be dispatched in some activities. -/
def Activity.dispatchesAll : List Activity → List (Path × Transition)
  | [] => []
  | a :: rest => Activity.dispatches a ++ Activity.dispatchesAll rest

end

namespace Activity

theorem dispatchesAll_eq_flatMap (branches : List Activity) :
    dispatchesAll branches = branches.flatMap dispatches := by
  induction branches with
  | nil => rfl
  | cons a branches ih => rw [dispatchesAll, ih, List.flatMap_cons]

/-- A move adds no transitions to those that are to be dispatched. -/
theorem Move.dispatches {a a' : Activity} {w w' : World} (h : Move env a w a' w') :
    ∀ d ∈ a'.dispatches, d ∈ a.dispatches := by
  induction h with
  | pause =>
    rw [beginPause_nil Activity.dispatches (fun _ => rfl) fun _ => rfl]
    exact fun d hd => absurd hd List.not_mem_nil
  | wake =>
    rw [pollSleep_nil Activity.dispatches (fun _ => rfl) fun _ => rfl]
    exact fun d hd => absurd hd List.not_mem_nil
  | first _ ih =>
    intro d hd
    rcases List.mem_append.mp hd with h | h
    · exact List.mem_append_left _ (ih d h)
    · exact List.mem_append_right _ h
  | second => exact fun d hd => List.mem_append_right _ hd
  | branch before after _ ih =>
    intro d hd
    simp only [Activity.dispatches, dispatchesAll_eq_flatMap, List.flatMap_append,
      List.flatMap_cons, List.mem_append] at hd ⊢
    exact hd.imp_right fun h => h.imp_left (ih d)
  | enter =>
    intro d hd
    simp only [Activity.dispatches, List.nil_append, List.append_nil] at hd
    exact hd
  | begin => exact fun d hd => (List.mem_append.mp hd).elim id id
  | inside _ ih =>
    intro d hd
    rcases List.mem_append.mp hd with h | h
    · exact List.mem_append_left _ h
    · exact List.mem_append_right _ (ih d h)
  | again => exact fun d hd => List.mem_append_left _ hd
  | _ => exact fun d hd => absurd hd List.not_mem_nil

/-- A transition is dispatched only if it was to be. -/
theorem Move.dispatched {a a' : Activity} {w w' : World} (h : Move env a w a' w') :
    ∀ d ∈ w'.see Entry.dispatched?, d ∈ w.see Entry.dispatched? ∨ d ∈ a.dispatches := by
  have hnothing : ∀ {v v' : World} {b : Activity},
      v'.see Entry.dispatched? = v.see Entry.dispatched? →
      ∀ d ∈ v'.see Entry.dispatched?, d ∈ v.see Entry.dispatched? ∨ d ∈ b.dispatches :=
    fun hsee d hd => .inl (hsee ▸ hd)
  induction h with
  | pause => exact hnothing (see_beginPause_none rfl (fun _ => rfl) (fun _ _ => rfl) _ _)
  | dispatch =>
    rw [see_announce_blind rfl (fun _ => rfl) fun _ => rfl]
    exact fun d hd => List.mem_append.mp hd
  | serve before after hq =>
    cases hq with
    | call => exact hnothing (see_call_none _ _ rfl rfl)
    | await => exact hnothing (see_note_none _ rfl)
    | answer =>
      refine hnothing ?_
      rw [Queue.see_settle rfl, see_note_none _ rfl]
      simp [Entry.dispatched?]
    | acknowledge =>
      refine hnothing ?_
      rw [Queue.see_settle rfl]
      simp [Entry.dispatched?]
    | _ => exact hnothing rfl
  | first _ ih => exact fun d hd => (ih d hd).imp_right (List.mem_append_left _)
  | branch before after _ ih =>
    intro d hd
    simp only [Activity.dispatches, dispatchesAll_eq_flatMap, List.flatMap_append,
      List.flatMap_cons, List.mem_append]
    exact (ih d hd).imp_right fun h => .inr (.inl h)
  | bar he =>
    refine hnothing ?_
    rw [see_fail_none _ rfl, see_note_none _ rfl, see_enterLoop (fun _ => rfl) he]
  | enter he =>
    refine hnothing ?_
    rw [see_note_none _ rfl, see_enterLoop (fun _ => rfl) he]
  | expire => exact hnothing (see_note_none _ rfl)
  | begin => exact hnothing (see_emit_none _ _ rfl rfl)
  | inside _ ih => exact fun d hd => (ih d hd).imp_right (List.mem_append_right _)
  | _ => exact hnothing rfl

theorem chain_dispatches (as : List Activity) :
    (chain as).dispatches = dispatchesAll as := by
  induction as with
  | nil => rfl
  | cons a as ih =>
    rw [dispatchesAll, ← ih]
    rfl

end Activity

mutual

/-- The transitions of a step are still to be dispatched before it begins. -/
theorem Step.activity_dispatches (scope : PauseScope) : ∀ (s : Step) (path : Path),
    (Step.activity scope path s).dispatches = s.transitionsAt path
  | .transition t, path => by
    rw [Step.activity, Step.transitionsAt]
    rfl
  | .composite order steps loop pause, path => by
    have hsteps := Step.activities_dispatches scope steps path 0
    cases scope <;> cases order <;>
      simp only [Step.activity, Step.transitionsAt, Activity.dispatches,
        Activity.chain_dispatches, hsteps, List.nil_append, List.append_nil]

theorem Step.activities_dispatches (scope : PauseScope) : ∀ (steps : List Step) (path : Path)
    (index : ℕ), Activity.dispatchesAll (Step.activities scope path index steps)
      = Step.transitionsFrom path index steps
  | [], path, index => by
    rw [Step.activities, Step.transitionsFrom, Activity.dispatchesAll]
  | s :: rest, path, index => by
    rw [Step.activities, Step.transitionsFrom, Activity.dispatchesAll, Step.activity_dispatches,
      Step.activities_dispatches]

end

/-! ### The account of a run -/

theorem Queue.Move.balanced {q q' : Queue} {w w' : World} (h : Queue.Move env q w q' w')
    (hw : w.Balanced env) : w'.Balanced env := by
  cases h with
  | finish => exact hw
  | halt => exact hw
  | call => exact hw.of_see (see_call_none _ _ rfl rfl)
  | await => exact hw.of_see (see_note_none _ rfl)
  | answer => exact (hw.of_see (see_note_none _ rfl)).settle _ _
  | acknowledge => exact hw.settle _ _

theorem Activity.Move.balanced {a a' : Activity} {w w' : World} (h : Activity.Move env a w a' w')
    (hw : w.Balanced env) : w'.Balanced env := by
  induction h with
  | pause =>
    exact hw.of_see (see_beginPause_none rfl (fun _ => rfl) (fun _ _ => rfl) _ _)
  | dispatch => exact hw.announce _ _
  | serve _ _ hq => exact hq.balanced hw
  | first _ ih => exact ih hw
  | branch _ _ _ ih => exact ih hw
  | inside _ ih => exact ih hw
  | bar he =>
    refine hw.of_see ?_
    rw [see_fail_none _ rfl, see_note_none _ rfl, see_enterLoop (fun _ => rfl) he]
  | enter he =>
    refine hw.of_see ?_
    rw [see_note_none _ rfl, see_enterLoop (fun _ => rfl) he]
  | expire => exact hw.of_see (see_note_none _ rfl)
  | begin => exact hw.of_see (see_emit_none _ _ rfl rfl)
  | again => exact hw.of_see rfl
  | _ => exact hw

/-- What is true of the account of a run at any time. -/
structure Machine.Accounted (env : Environment) (p : Program) (m : Machine) : Prop where
  balanced : m.world.Balanced env
  /-- What comes later has not begun. -/
  ready : m.activity.Ready
  /-- Every call is settled once or in flight. -/
  calls : (m.world.see Entry.call?).Perm
    ((m.world.see Entry.settled?).map Prod.fst ++ m.activity.inFlight)
  /-- Only transitions of the program are dispatched. -/
  dispatches : ∀ d ∈ m.activity.dispatches, d ∈ p.transitions
  dispatched : ∀ d ∈ m.world.see Entry.dispatched?, d ∈ p.transitions

namespace Machine

variable {p : Program}

/-- Nothing changes but the world around the activity. -/
theorem Accounted.of_see {a : Activity} {w w' : World} (h : Accounted env p ⟨a, w⟩)
    (hsee : ∀ {α : Type} {view : Entry → Option α}, view .cancelled = none →
      w'.see view = w.see view) : Accounted env p ⟨a, w'⟩ where
  balanced := h.balanced.of_see (hsee rfl)
  ready := h.ready
  calls := by
    show (w'.see Entry.call?).Perm ((w'.see Entry.settled?).map Prod.fst ++ a.inFlight)
    rw [hsee rfl, hsee rfl]
    exact h.calls
  dispatches := h.dispatches
  dispatched := by
    show ∀ d ∈ w'.see Entry.dispatched?, d ∈ p.transitions
    rw [hsee rfl]
    exact h.dispatched

theorem Accounted.act {a a' : Activity} {w w' : World} (h : Accounted env p ⟨a, w⟩)
    (ha : Activity.Move env a w a' w') : Accounted env p ⟨a', w'⟩ where
  balanced := ha.balanced h.balanced
  ready := ha.ready h.ready
  calls := by
    obtain ⟨begun, settled, hcall, hsettled, hperm⟩ := ha.handles h.ready
    show (w'.see Entry.call?).Perm ((w'.see Entry.settled?).map Prod.fst ++ a'.inFlight)
    rw [hcall, hsettled, List.map_append, List.append_assoc]
    refine (h.calls.append_right begun).trans ?_
    rw [List.append_assoc]
    exact hperm.append_left _
  dispatches d hd := h.dispatches d (ha.dispatches d hd)
  dispatched d hd := (ha.dispatched d hd).elim (h.dispatched d) (h.dispatches d)

/-- **The account of a run.** -/
theorem Moves.accounted {m m' : Machine} (h : Moves env m m') (hm : m.Accounted env p) :
    m'.Accounted env p := by
  refine h.keep (Accounted env p) (fun hmove hm => ?_) hm
  cases hmove with
  | act ha => exact hm.act ha
  | wait a w t => exact hm.of_see fun _ => rfl
  | turn a w => exact hm.of_see fun _ => rfl
  | cancel a w due => exact hm.of_see fun hv => see_cancelIf w hv due

end Machine

theorem Activity.Planned.idle {N : Path × Step → Prop} {a : Activity} (h : a.Planned N) :
    a.Idle := by
  induction h with
  | nothing => exact .ended _
  | pause => exact .pause _ _
  | dispatch => exact .dispatch _ _
  | seq _ _ hfirst hrest => exact .seq hfirst hrest
  | join _ ih => exact .join ih
  | enter _ _ _ hbody => exact .enter _ _ _ hbody

/-- A step is idle before it begins. -/
theorem Step.activity_idle (scope : PauseScope) (s : Step) (path : Path) :
    (Step.activity scope path s).Idle :=
  (s.activity_planned scope path).idle

namespace Program

variable {p : Program}

theorem start_accounted (env : Environment) (p : Program) :
    (Machine.start env p).Accounted env p := by
  have hworld : (p.firstWorld env).Balanced env := by
    constructor
    · rw [see_firstWorld rfl, see_firstWorld rfl]
      rfl
    · rw [see_firstWorld rfl, see_firstWorld rfl]
      rfl
    · rw [see_firstWorld rfl, see_firstWorld rfl]
      rfl
    · rw [see_firstWorld rfl, see_firstWorld rfl, see_firstWorld rfl]
      exact List.Perm.refl _
  have hcalls : ∀ a : Activity, a.inFlight = [] → ((p.firstWorld env).see Entry.call?).Perm
      (((p.firstWorld env).see Entry.settled?).map Prod.fst ++ a.inFlight) := by
    intro a ha
    rw [see_firstWorld rfl, see_firstWorld rfl, ha]
    exact List.Perm.refl _
  have hdispatched : ∀ d ∈ (p.firstWorld env).see Entry.dispatched?, d ∈ p.transitions := by
    rw [see_firstWorld rfl]
    exact fun d hd => absurd hd List.not_mem_nil
  by_cases hp : p.step.faults = []
  · rw [start_of_valid hp]
    have hidle := Step.activity_idle env.scope p.step p.step.rootPath
    have hdispatches := Step.activity_dispatches env.scope p.step p.step.rootPath
    refine ⟨hworld, hidle.ready, hcalls _ hidle.inFlight, fun d hd => ?_, hdispatched⟩
    show d ∈ p.step.transitionsAt p.step.rootPath
    rw [← hdispatches]
    exact hd
  · rw [start_of_faults hp]
    refine ⟨hworld, .ended _, hcalls _ rfl, fun d hd => ?_, hdispatched⟩
    exact absurd hd List.not_mem_nil

/-- A failure does not end the run. -/
theorem failure_not_fatal {w : World} (h : w.Balanced env) :
    ∀ f ∈ w.see Entry.failure?, f.error.isFatal = false := by
  intro f hf
  rcases List.mem_append.mp (h.failures.mem_iff.mp hf) with hf | hf
  · obtain ⟨d, -, hf⟩ := List.mem_flatMap.mp hf
    obtain ⟨r, -, hf⟩ := List.mem_filterMap.mp hf
    unfold DeviceRef.failure? at hf
    split at hf
    · exact absurd hf nofun
    · cases hf
      rfl
  · obtain ⟨⟨c, error⟩, -, hf⟩ := List.mem_filterMap.mp hf
    cases error with
    | none => exact absurd hf nofun
    | some e =>
      by_cases he : e.isFatal = true
      · simp [Call.failure?, he] at hf
      · simp only [Call.failure?, he, Bool.false_eq_true, if_false, Option.some.injEq] at hf
        subst hf
        exact Bool.eq_false_iff.mpr he

/-- **The failures of a run.**  Every call is settled once before the run stops, with what the
gateway answered, and shown when it is.  The failures of the result are those of the references
that mean nothing in the transitions that were dispatched, and those of the calls that came to an
error which does not end the run, each as often as it came up.  By device, none is lost and none
is added. -/
theorem failures_of_returns {result : RunResult} {w : World} (h : p.Returns env result w) :
    ∃ before after, w.entries = before ++ .event (.stopped env.runId result.status) :: after ∧
      (∀ x ∈ after, x = .cancelled) ∧
      (before.filterMap Entry.call?).Perm ((before.filterMap Entry.settled?).map Prod.fst) ∧
      before.filterMap Entry.applied?
        = (before.filterMap Entry.settled?).map (fun x => x.1.applied x.2) ∧
      w.Answered env ∧
      before.filterMap Entry.transition?
        = (before.filterMap Entry.dispatched?).map (announces env) ∧
      (∀ d ∈ before.filterMap Entry.dispatched?, d ∈ p.transitions) ∧
      result.failures.Perm ((before.filterMap Entry.dispatched?).flatMap (unresolved env)
        ++ (before.filterMap Entry.settled?).filterMap fun x => x.1.failure? x.2) ∧
      (∀ f ∈ result.failures, f.error.isFatal = false) ∧
      result.perDevice.Pairwise (·.1 < ·.1) ∧
      ∀ label errors, (label, errors) ∈ result.perDevice ↔ errors ≠ [] ∧
        errors = (result.failures.filter (·.device = label)).map Failure.error := by
  have hanswered := h.answered
  obtain ⟨flow, w', hreach, hresult⟩ := h
  have haccounted := Machine.Moves.accounted hreach (start_accounted env p)
  obtain ⟨rfl, rfl⟩ := Prod.mk.inj hresult
  refine ⟨w'.entries, _, entries_emit .., ?_, ?_, haccounted.balanced.applied, hanswered,
    haccounted.balanced.transitions, haccounted.dispatched, ?_, ?_,
    (RunResult.perDevice_grouped _).sorted, fun label errors =>
      (RunResult.perDevice_grouped _).mem_iff⟩
  · exact fun x hx => eq_cancelled_of_mem hx
  · have hcalls := haccounted.calls
    rwa [show (Machine.activity ⟨.ended flow, w'⟩).inFlight = [] from rfl,
      List.append_nil] at hcalls
  · show w'.journal.failures.Perm _
    rw [Journal.failures_eq]
    exact haccounted.balanced.failures
  · show ∀ f ∈ w'.journal.failures, _
    rw [Journal.failures_eq]
    exact failure_not_fatal haccounted.balanced

/-- Two calls that time out and a reference that means nothing make three failures. -/
theorem lamp_and_hall_failures :
    let env := { Environment.plain with gateway := fun _ _ => ⟨0, .failed .timeout⟩ }
    let p : Program := ⟨none, .transition
      { state := {}, devices := some [.light "lamp", .group "hall", .light "lamp"] }⟩
    ∃ result w, p.run? env 5 = some (result, w) ∧ result.failures.length = 3 ∧
      ∃ before after, w.entries = before ++ .event (.stopped "run" .completed) :: after ∧
        (before.filterMap Entry.call?).Perm ((before.filterMap Entry.settled?).map Prod.fst) ∧
        result.failures.Perm ((before.filterMap Entry.dispatched?).flatMap (unresolved env)
          ++ (before.filterMap Entry.settled?).filterMap fun x => x.1.failure? x.2) := by
  intro env p
  have hstatus : (p.run? env 5).map (fun x => (x.1.status, x.1.failures.length))
      = some (.completed, 3) := rfl
  obtain ⟨⟨result, w⟩, hrun, hstatus⟩ := Option.map_eq_some_iff.mp hstatus
  obtain ⟨hcompleted, hlength⟩ := Prod.mk.inj hstatus
  obtain ⟨before, after, hentries, -, hcalls, -, -, -, -, hfailures, -⟩ :=
    failures_of_returns (returns_of_run? hrun)
  rw [show result.status = .completed from hcompleted] at hentries
  exact ⟨result, w, hrun, hlength, before, after, hentries, hcalls, hfailures⟩

end Program

end Lightshow
