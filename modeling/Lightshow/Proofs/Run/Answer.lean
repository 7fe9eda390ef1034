import Lightshow.Proofs.Run.Operation
import Lightshow.Proofs.Run.Planned

/-!
# What calls come to

When it is known what a call came to, the run writes this down and goes on.  Here it is shown
that what is written down is what the gateway answered.  Between the two lies some time: the
call has to return, and if the transition waits there is an acknowledgement to be waited for.
All the while the queue keeps the answer, and this is the invariant.

The gateway may answer according to all that happened before a call.  So a call is *asked* at a
place of the journal, and the answer is that to the call after what stands before this place.

## Main definitions

* `Call.ComesTo` — what a call may come to, given how the gateway answers it.
* `World.Asked`, `World.Answered` — what the gateway answered, and that this is written down.
* `Activity.queues` — the queues of an activity.

## Main results

* `Activity.Move.serves` — a move serves one queue, or leaves calls alone.
* `Program.Reaches.answered`, `Program.Returns.answered` — what is written down is what the
  gateway answered.
-/

namespace Lightshow

open Relation World

variable {env : Environment}

/-! ### Answers -/

/-- What a call may come to if the gateway answers it in a certain way.  An acknowledgement counts
only if the transition waits for it, and then it may come too late. -/
inductive Call.ComesTo (env : Environment) (c : Call) : Dispatch → Option DeviceError → Prop
  | done : ComesTo env c .done none
  | failed (cause : GatewayError) : ComesTo env c (.failed cause) (some (.gateway cause))
  | unread (ack : Option (Duration × Ack)) (hwait : c.wait = false) :
      ComesTo env c (.pending ack) none
  | told (span : Duration) (ack : Ack) (hwait : c.wait = true) :
      ComesTo env c (.pending (some (span, ack))) (Queue.error? ack.result)
  | late (ack : Option (Duration × Ack)) (hwait : c.wait = true) :
      ComesTo env c (.pending ack) (some (.ackTimeout env.ackTimeout))

namespace World

/-- The gateway was called and answered in a certain way, given all that happened before. -/
def Asked (env : Environment) (w : World) (c : Call) (outcome : Dispatch) : Prop :=
  ∃ history : Journal, ⟨c.time, .called c⟩ :: history <:+ w.journal ∧
    outcome = (env.gateway history c).outcome

/-- Of every call that has come to something the gateway's answer is known, and this is what the
call came to. -/
def Answered (env : Environment) (w : World) : Prop :=
  ∀ x ∈ w.see Entry.settled?, ∃ outcome, w.Asked env x.1 outcome ∧ x.1.ComesTo env outcome x.2

variable {w w' : World}

theorem Asked.mono {c : Call} {outcome : Dispatch} (h : w.Asked env c outcome)
    (hjournal : w.journal <:+ w'.journal) : w'.Asked env c outcome := by
  obtain ⟨history, hhistory, houtcome⟩ := h
  exact ⟨history, hhistory.trans hjournal, houtcome⟩

theorem journal_cancelIf (due : Bool) (w : World) : w.journal <:+ (w.cancelIf due).journal := by
  unfold cancelIf
  split
  · exact List.suffix_cons _ _
  · exact List.suffix_refl _

theorem journal_emit (e : Event) (w : World) : w.journal <:+ (w.emit env e).journal :=
  (List.suffix_cons _ _).trans (journal_cancelIf _ (w.note (.event e)))

/-- The journal only grows. -/
theorem Ops.journal (h : Ops w w') : w.journal <:+ w'.journal := by
  refine h.keep (fun v => w.journal <:+ v.journal) (fun hop hv => hv.trans ?_) (List.suffix_refl _)
  cases hop with
  | note => exact List.suffix_cons _ _
  | cancel => exact journal_cancelIf ..
  | fail => exact List.suffix_cons _ _
  | _ => exact List.suffix_refl _

/-- A call that begins is asked. -/
theorem asked_call {call c : Call} (hc : c = { call with time := w.now }) :
    (w.call env c).Asked env c (env.gateway w.journal c).outcome := by
  have htime : c.time = w.now := by rw [hc]
  have hjournal : (w.note (.called c)).journal <:+ (w.call env c).journal := journal_cancelIf _ _
  exact ⟨w.journal, htime ▸ hjournal, rfl⟩

/-- Nothing that was not written before needs an answer. -/
theorem Answered.of_see (h : w.Answered env) (hjournal : w.journal <:+ w'.journal)
    (hsee : w'.see Entry.settled? = w.see Entry.settled?) : w'.Answered env := by
  intro x hx
  rw [hsee] at hx
  obtain ⟨outcome, hasked, hcomes⟩ := h x hx
  exact ⟨outcome, hasked.mono hjournal, hcomes⟩

/-- When a call is settled, what it came to has to be what the gateway answered. -/
theorem Answered.settle {c : Call} {result : Except DeviceError Unit} {outcome : Dispatch}
    (h : w.Answered env) (hasked : w.Asked env c outcome)
    (hcomes : c.ComesTo env outcome (Queue.error? result)) :
    (Queue.settle env c result w).2.Answered env := by
  have hops : Ops w (Queue.settle env c result w).2 := Queue.settle_ops ..
  have hsettled : (Queue.settle env c result w).2.see Entry.settled?
      = w.see Entry.settled? ++ [(c, Queue.error? result)] := by
    rw [Queue.see_settle rfl]
    simp [Entry.settled?]
  intro x hx
  rw [hsettled] at hx
  rcases List.mem_append.mp hx with hx | hx
  · obtain ⟨outcome, hasked, hcomes⟩ := h x hx
    exact ⟨outcome, hasked.mono hops.journal, hcomes⟩
  · rw [List.mem_singleton.mp hx]
    exact ⟨outcome, hasked.mono hops.journal, hcomes⟩

end World

/-! ### Queues -/

namespace Queue

/-- What a queue keeps of an answer. -/
def Answered (env : Environment) (w : World) : Queue → Prop
  | .calling c _ outcome _ => w.Asked env c outcome
  | .awaiting c _ window => c.wait = true ∧ ∃ ack opened, w.Asked env c (.pending ack) ∧
      window = .opened env c.state opened ack
  | .ready .. | .ended _ => True

theorem Answered.mono {q : Queue} {w w' : World} (h : q.Answered env w)
    (hjournal : w.journal <:+ w'.journal) : q.Answered env w' := by
  cases q with
  | calling => exact Asked.mono h hjournal
  | awaiting =>
    obtain ⟨hwait, ack, opened, hasked, hwindow⟩ := h
    exact ⟨hwait, ack, opened, hasked.mono hjournal, hwindow⟩
  | _ => trivial

/-- What a window tells is what the acknowledgement says, or that it is too late. -/
theorem comesTo_of_window {c : Call} {opened now : Instant} {ack : Option (Duration × Ack)}
    {result : Except DeviceError Unit} (hwait : c.wait = true)
    (h : (Window.opened env c.state opened ack).result? env now = some result) :
    c.ComesTo env (.pending ack) (error? result) := by
  unfold Window.result? at h
  split at h
  · next t a hack =>
    -- the acknowledgement has come
    obtain rfl := Option.some.inj h
    have hmap := (Option.filter_eq_some_iff.mp hack).1
    obtain ⟨⟨span, a'⟩, rfl, heq⟩ := Option.map_eq_some_iff.mp hmap
    obtain ⟨-, rfl⟩ := Prod.mk.inj heq
    exact .told span a' hwait
  · split at h
    · -- it has not, and the window is closed
      obtain rfl := Option.some.inj h
      exact .late ack hwait
    · exact absurd h (Option.some_ne_none _).symm

/-- When a call returns, what it came to is what the gateway answered, or there is a window for the
acknowledgement. -/
theorem afterCall_cases (env : Environment) (c : Call) (now : Instant) (outcome : Dispatch) :
    (∃ result, afterCall env c now outcome = .inl result ∧
        c.ComesTo env outcome (error? result)) ∨
      ∃ ack, outcome = .pending ack ∧ c.wait = true ∧
        afterCall env c now outcome = .inr (.opened env c.state now ack) := by
  cases outcome with
  | done => exact .inl ⟨.ok (), rfl, .done⟩
  | failed cause => exact .inl ⟨.error (.gateway cause), rfl, .failed cause⟩
  | pending ack =>
    cases hwait : c.wait with
    | false => exact .inl ⟨.ok (), by simp [afterCall, hwait], .unread ack hwait⟩
    | true =>
      simp only [afterCall, hwait, if_true]
      cases hresult : (Window.opened env c.state now ack).result? env now with
      | some result => exact .inl ⟨result, rfl, comesTo_of_window hwait hresult⟩
      | none => exact .inr ⟨ack, rfl, trivial, rfl⟩

/-- **A queue keeps the answer until it is written down what the call came to.** -/
theorem Move.answered {q q' : Queue} {w w' : World} (h : Move env q w q' w')
    (hw : w.Answered env) (hq : q.Answered env w) : w'.Answered env ∧ q'.Answered env w' := by
  have hnext : ∀ (call : Call) (left : ℕ) (flow : Option Flow) (v : World),
      (next call left flow).Answered env v := by
    intro call left flow v
    cases flow <;> trivial
  cases h with
  | finish => exact ⟨hw, trivial⟩
  | halt => exact ⟨hw, trivial⟩
  | call hgoing hc =>
    exact ⟨hw.of_see (call_ops hgoing).journal (see_call_none _ _ rfl rfl), asked_call hc⟩
  | @await call left outcome _ window w _ ha =>
    have hops : Ops w (w.note (.returned call)) := note_ops rfl fun _ => rfl
    refine ⟨hw.of_see hops.journal (see_note_none _ rfl), ?_⟩
    -- what follows the call is a window, so its answer is pending
    rcases afterCall_cases env call w.now outcome with ⟨_, h, -⟩ | ⟨ack, rfl, hwait, h⟩
    · rw [ha] at h
      cases h
    · rw [ha] at h
      cases h
      exact ⟨hwait, ack, w.now, Asked.mono hq hops.journal, rfl⟩
  | @answer call left outcome _ result w _ ha =>
    have hops : Ops w (w.note (.returned call)) := note_ops rfl fun _ => rfl
    have hnoted := hw.of_see hops.journal (see_note_none _ rfl)
    rcases afterCall_cases env call w.now outcome with ⟨_, h, hcomes⟩ | ⟨_, _, _, h⟩
    · rw [ha] at h
      cases h
      exact ⟨hnoted.settle (Asked.mono hq hops.journal) hcomes, hnext ..⟩
    · rw [ha] at h
      cases h
  | acknowledge ha =>
    obtain ⟨hwait, ack, opened, hasked, rfl⟩ := hq
    exact ⟨hw.settle hasked (comesTo_of_window hwait ha), hnext ..⟩

end Queue

/-! ### Activities -/

mutual

/-- The queues of an activity. -/
def Activity.queues : Activity → List Queue
  | .applying queues => queues
  | .seq first rest => Activity.queues first ++ Activity.queues rest
  | .join branches => Activity.queuesAll branches
  | .enter _ _ body _ => Activity.queues body
  | .rounds _ _ _ body => Activity.queues body
  | .within _ _ _ body current => Activity.queues body ++ Activity.queues current
  | _ => []

/-- The queues of some activities. -/
def Activity.queuesAll : List Activity → List Queue
  | [] => []
  | a :: rest => Activity.queues a ++ Activity.queuesAll rest

end

namespace Activity

theorem queuesAll_eq_flatMap (branches : List Activity) :
    queuesAll branches = branches.flatMap queues := by
  induction branches with
  | nil => rfl
  | cons a branches ih => rw [queuesAll, ih, List.flatMap_cons]

/-- From one world to another either nothing is settled, and of some queues only some remain but
for new ones that are ready; or one of the queues moves. -/
inductive Tends (env : Environment) (w w' : World) (x y : List Queue) : Prop
  | rests (hsee : w'.see Entry.settled? = w.see Entry.settled?)
      (h : ∀ q ∈ y, q ∈ x ∨ ∃ call left, q = .ready call left) : Tends env w w' x y
  | serves {q q' : Queue} (hmem : q ∈ x) (hq : Queue.Move env q w q' w')
      (h : ∀ r ∈ y, r ∈ x ∨ r = q') : Tends env w w' x y

/-- More queues may stand by. -/
theorem Tends.widen {w w' : World} {x y x' y' : List Queue} (h : Tends env w w' x y)
    (hx : ∀ q ∈ x, q ∈ x') (hy : ∀ q ∈ y', q ∈ x' ∨ q ∈ y) : Tends env w w' x' y' := by
  cases h with
  | rests hsee h =>
    refine .rests hsee fun q hq => ?_
    rcases hy q hq with hq | hq
    · exact .inl hq
    · exact (h q hq).imp_left (hx q)
  | serves hmem hmove h =>
    refine .serves (hx _ hmem) hmove fun q hq => ?_
    rcases hy q hq with hq | hq
    · exact .inl hq
    · exact (h q hq).imp_left (hx q)

/-- **A move of an activity serves one of its queues, or leaves calls alone.** -/
theorem Move.serves {a a' : Activity} {w w' : World} (h : Move env a w a' w') :
    Tends env w w' a.queues a'.queues := by
  induction h with
  | pause =>
    rw [beginPause_nil Activity.queues (fun _ => rfl) fun _ => rfl]
    refine .rests ?_ fun q hq => absurd hq List.not_mem_nil
    exact see_beginPause_none rfl (fun _ => rfl) (fun _ _ => rfl) _ _
  | wake =>
    rw [pollSleep_nil Activity.queues (fun _ => rfl) fun _ => rfl]
    exact .rests rfl fun q hq => absurd hq List.not_mem_nil
  | dispatch =>
    refine .rests ?_ fun q hq => .inr ?_
    · exact see_announce_none rfl (fun _ => rfl) (fun _ => rfl) (fun _ _ => rfl)
        (fun _ _ => rfl) _ _
    · obtain ⟨d, -, rfl⟩ := List.mem_map.mp hq
      exact ⟨_, _, rfl⟩
  | @serve q _ _ _ before after hq =>
    refine .serves (List.mem_append_right _ List.mem_cons_self) hq fun r hr => ?_
    exact (mem_replace hr).symm
  | first _ ih =>
    refine ih.widen (fun q hq => List.mem_append_left _ hq) fun q hq => ?_
    exact (List.mem_append.mp hq).symm.imp_left (List.mem_append_right _)
  | second => exact .rests rfl fun q hq => .inl (List.mem_append_right _ hq)
  | branch before after _ ih =>
    simp only [Activity.queues, queuesAll_eq_flatMap, List.flatMap_append, List.flatMap_cons]
    refine ih.widen (fun q hq => ?_) fun q hq => ?_
    · exact List.mem_append_right _ (List.mem_append_left _ hq)
    · rcases List.mem_append.mp hq with hq | hq
      · exact .inl (List.mem_append_left _ hq)
      · rcases List.mem_append.mp hq with hq | hq
        · exact .inr hq
        · exact .inl (List.mem_append_right _ (List.mem_append_right _ hq))
  | bar he =>
    refine .rests ?_ fun q hq => absurd hq List.not_mem_nil
    rw [see_fail_none _ rfl, see_note_none _ rfl, see_enterLoop (fun _ => rfl) he]
  | enter he =>
    refine .rests ?_ fun q hq => .inl ?_
    · rw [see_note_none _ rfl, see_enterLoop (fun _ => rfl) he]
    · simpa [Activity.queues] using hq
  | expire => exact .rests (see_note_none _ rfl) fun q hq => absurd hq List.not_mem_nil
  | begin =>
    refine .rests (see_emit_none _ _ rfl rfl) fun q hq => .inl ?_
    exact (List.mem_append.mp hq).elim id id
  | inside _ ih =>
    refine ih.widen (fun q hq => List.mem_append_right _ hq) fun q hq => ?_
    exact (List.mem_append.mp hq).imp_left (List.mem_append_left _)
  | again => exact .rests rfl fun q hq => .inl (List.mem_append_left _ hq)
  | _ => exact .rests rfl fun q hq => absurd hq List.not_mem_nil

/-- The queues of an activity keep their answers. -/
theorem Move.answered {a a' : Activity} {w w' : World} (h : Move env a w a' w')
    (hw : w.Answered env) (ha : ∀ q ∈ a.queues, q.Answered env w) :
    w'.Answered env ∧ ∀ q ∈ a'.queues, q.Answered env w' := by
  have hkeep : ∀ q ∈ a.queues, q.Answered env w' := fun q hq => (ha q hq).mono h.ops.journal
  cases h.serves with
  | rests hsee hqueues =>
    refine ⟨hw.of_see h.ops.journal hsee, fun q hq => ?_⟩
    rcases hqueues q hq with hq | ⟨call, left, rfl⟩
    · exact hkeep q hq
    · trivial
  | serves hmem hmove hqueues =>
    -- the queue that moves is one of those that had their answers
    obtain ⟨hw', hq'⟩ := hmove.answered hw (ha _ hmem)
    refine ⟨hw', fun q hq => ?_⟩
    rcases hqueues q hq with hq | rfl
    · exact hkeep q hq
    · exact hq'

end Activity

/-! ### Runs -/

/-- What is written down in a run, and what its queues keep, is what the gateway answered. -/
structure Machine.Answered (env : Environment) (m : Machine) : Prop where
  world : m.world.Answered env
  queues : ∀ q ∈ m.activity.queues, q.Answered env m.world

namespace Machine

theorem Answered.of_world {a : Activity} {w w' : World} (h : Answered env ⟨a, w⟩)
    (hops : Ops w w') (hsee : w'.see Entry.settled? = w.see Entry.settled?) :
    Answered env ⟨a, w'⟩ where
  world := h.world.of_see hops.journal hsee
  queues q hq := (h.queues q hq).mono hops.journal

/-- **A run writes down what the gateway answered.** -/
theorem Moves.answered {m m' : Machine} (h : Moves env m m') (hm : m.Answered env) :
    m'.Answered env := by
  refine h.keep (Answered env) (fun hmove hm => ?_) hm
  cases hmove with
  | act ha =>
    obtain ⟨hw, hqueues⟩ := ha.answered hm.world hm.queues
    exact ⟨hw, hqueues⟩
  | wait a w t => exact hm.of_world (.single (.clock t w)) rfl
  | turn a w => exact hm.of_world (.single (.turn w)) rfl
  | cancel a w due => exact hm.of_world (.single (.cancel due w)) (see_cancelIf w rfl due)

end Machine

/-- Nothing that is planned has queues. -/
theorem Activity.Planned.queues {N : Path × Step → Prop} {a : Activity} (h : a.Planned N) :
    a.queues = [] := by
  induction h with
  | nothing | pause | dispatch => rfl
  | seq _ _ hfirst hrest =>
    rw [Activity.queues, hfirst, hrest]
    rfl
  | join _ ih => rw [Activity.queues, queuesAll_eq_flatMap, List.flatMap_eq_nil_iff.mpr ih]
  | enter _ _ _ hbody => rw [Activity.queues, hbody]

namespace Program

variable {p : Program} {m : Machine}

/-- Nothing is asked before a run begins. -/
theorem start_answered (env : Environment) (p : Program) : (Machine.start env p).Answered env := by
  have hworld : (p.firstWorld env).Answered env := by
    intro x hx
    rw [see_firstWorld rfl] at hx
    exact absurd hx List.not_mem_nil
  by_cases hp : p.step.faults = []
  · rw [start_of_valid hp]
    refine ⟨hworld, fun q hq => ?_⟩
    rw [show (Machine.activity ⟨_, _⟩).queues = [] from (p.step.activity_planned ..).queues] at hq
    exact absurd hq List.not_mem_nil
  · rw [start_of_faults hp]
    exact ⟨hworld, fun q hq => absurd hq List.not_mem_nil⟩

/-- **What calls came to is what the gateway answered.** -/
theorem Reaches.answered (h : p.Reaches env m) : m.world.Answered env :=
  (Machine.Moves.answered h (start_answered env p)).world

/-- So it is when the run has stopped. -/
theorem Returns.answered {result : RunResult} {w : World} (h : p.Returns env result w) :
    w.Answered env := by
  obtain ⟨flow, w', h, hresult⟩ := h
  obtain ⟨-, rfl⟩ := Prod.mk.inj hresult
  exact h.answered.of_see (journal_emit _ _) (see_emit_none _ _ rfl rfl)

end Program

end Lightshow
