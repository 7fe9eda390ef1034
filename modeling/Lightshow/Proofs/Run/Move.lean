import Lightshow.Proofs.Run.Journal
import Lightshow.Run.Machine
import Mathlib.Data.Nat.Notation
import Mathlib.Logic.Relation

/-!
# Runs as sequences of moves

A poll does many things at once: it wakes what has slept, goes on with what comes next, begins
iterations and calls.  Here it is taken apart.  A *move* is one such thing, done by one part of
an activity while everything else stays what it is, and a poll is a sequence of moves.  So is a
run, if the clock, the count of the rounds and the caller may move as well.

What a move can do is said once, by the constructors below.  A property that every move keeps
is a property of every run, in whatever order the parts of a run go on.

## Main definitions

* `Queue.Move`, `Activity.Move`, `Machine.Move` — single moves.
* `Queue.Moves`, `Activity.Moves`, `Machine.Moves` — sequences of moves.
* `Program.Reaches`, `Program.Returns` — what runs come to by moves.

## Main results

* `Queue.poll_moves`, `Activity.poll_moves` — a poll is a sequence of moves.
* `Machine.round_moves`, `Machine.after_moves` — so are a round and a number of rounds.
* `Machine.Moves.keep` — what every move keeps holds after every run.
* `Program.returns_of_run?` — the runs of `Program.run?` are such runs.
-/

namespace Lightshow

open Relation World

variable {env : Environment}

/-- A list that is read off as a whole is what it is read as. -/
theorem eq_map_of_mapM {α β : Type} {f : α → Option β} {g : β → α}
    (hfg : ∀ {a b}, f a = some b → a = g b) :
    ∀ {xs : List α} {ys : List β}, xs.mapM f = some ys → xs = ys.map g := by
  intro xs
  induction xs with
  | nil => intro ys h; simp_all
  | cons x xs ih =>
    intro ys h
    simp only [List.mapM_cons, Option.bind_eq_bind, Option.bind_eq_some_iff, Option.pure_def,
      Option.some.injEq] at h
    obtain ⟨y, hy, ys', hys, rfl⟩ := h
    rw [List.map_cons, ← hfg hy, ← ih hys]

/-- Where one part is replaced there is the new part, and otherwise only what was there before. -/
theorem mem_replace {α : Type} {before after : List α} {x y z : α}
    (h : z ∈ before ++ y :: after) : z = y ∨ z ∈ before ++ x :: after := by
  rcases List.mem_append.mp h with h | h
  · exact .inr (List.mem_append_left _ h)
  · exact (List.mem_cons.mp h).imp_right fun h =>
      List.mem_append_right _ (List.mem_cons_of_mem x h)

/-- So what is true of all parts remains so, if it does for the one that is replaced. -/
theorem forall_mem_replace {α : Type} {P : α → Prop} {before after : List α} {x y : α}
    (h : ∀ z ∈ before ++ x :: after, P z) (hy : P x → P y) : ∀ z ∈ before ++ y :: after, P z := by
  intro z hz
  rcases mem_replace hz with rfl | hz
  · exact hy (h x (List.mem_append_right _ List.mem_cons_self))
  · exact h z hz

/-! ### Queues -/

namespace Queue

/-- What follows the result of a call: the end of the queue, if a flow came out, or the calls
that are left. -/
def next (call : Call) (left : ℕ) : Option Flow → Queue
  | some flow => .ended flow
  | none => .ready { call with turn := call.turn + 1 } left

/-- One move of a queue. -/
inductive Move (env : Environment) : Queue → World → Queue → World → Prop
  /-- No call is left. -/
  | finish (call : Call) (w : World) : Move env (.ready call 0) w (.ended .completed) w
  /-- A call is left, but the run is to halt. -/
  | halt {call : Call} {left : ℕ} {w : World} (hw : w.halted = true) :
      Move env (.ready call (left + 1)) w (.ended .cancelled) w
  /-- The gateway is called. -/
  | call {call c : Call} {left : ℕ} {w : World} (hw : w.halted = false)
      (hc : c = { call with time := w.now }) :
      Move env (.ready call (left + 1)) w
        (.calling c left (env.gateway w.journal c).outcome
          (w.now + (env.gateway w.journal c).latency)) (w.call env c)
  /-- The call returns, and its acknowledgement is waited for. -/
  | await {call : Call} {left : ℕ} {outcome : Dispatch} {returns : Instant} {window : Window}
      {w : World} (hr : returns ≤ w.now) (ha : afterCall env call w.now outcome = .inr window) :
      Move env (.calling call left outcome returns) w (.awaiting call left window)
        (w.note (.returned call))
  /-- The call returns, and it is known what it came to. -/
  | answer {call : Call} {left : ℕ} {outcome : Dispatch} {returns : Instant}
      {result : Except DeviceError Unit} {w : World} (hr : returns ≤ w.now)
      (ha : afterCall env call w.now outcome = .inl result) :
      Move env (.calling call left outcome returns) w
        (next call left (settle env call result (w.note (.returned call))).1)
        (settle env call result (w.note (.returned call))).2
  /-- The window of the acknowledgement tells what the call came to. -/
  | acknowledge {call : Call} {left : ℕ} {window : Window} {result : Except DeviceError Unit}
      {w : World} (ha : window.result? env w.now = some result) :
      Move env (.awaiting call left window) w (next call left (settle env call result w).1)
        (settle env call result w).2

/-- A sequence of moves of a queue. -/
def Moves (env : Environment) : Queue × World → Queue × World → Prop :=
  ReflTransGen fun x y => Move env x.1 x.2 y.1 y.2

theorem Move.moves {q q' : Queue} {w w' : World} (h : Move env q w q' w') :
    Moves env (q, w) (q', w') := ReflTransGen.single h

/-- `ready` queues with `left` calls to go are served by moves. -/
def Served (env : Environment) (left : ℕ) : Prop :=
  ∀ (call : Call) (w : World), Moves env (.ready call left, w) (serve env left call w)

theorem next_moves {left : ℕ} (hs : Served env left) (call : Call)
    (result : Except DeviceError Unit) (w : World) :
    Moves env (next call left (settle env call result w).1, (settle env call result w).2)
      (proceed env call left result w) := by
  unfold proceed
  rcases settle env call result w with ⟨_ | flow, w'⟩
  · exact hs _ w'
  · exact ReflTransGen.refl

theorem calling_moves {left : ℕ} (hs : Served env left) (call : Call) (outcome : Dispatch)
    (returns : Instant) (w : World) :
    Moves env (.calling call left outcome returns, w)
      (poll env (.calling call left outcome returns) w) := by
  unfold poll
  by_cases hr : returns ≤ w.now
  · simp only [if_pos hr, now_note]
    cases ha : afterCall env call w.now outcome with
    | inl result => exact (next_moves hs call result _).head (Move.answer hr ha)
    | inr window => exact (Move.await hr ha).moves
  · simp only [if_neg hr]
    exact ReflTransGen.refl

/-- A call that returns at once is polled at once. -/
theorem serve_succ {left : ℕ} {call c : Call} {w : World} (hw : w.halted = false)
    (hc : c = { call with time := w.now }) :
    serve env (left + 1) call w =
      if (env.gateway w.journal c).latency = 0 then
        poll env (.calling c left (env.gateway w.journal c).outcome (w.now + 0)) (w.call env c)
      else (.calling c left (env.gateway w.journal c).outcome
        (w.now + (env.gateway w.journal c).latency), w.call env c) := by
  subst hc
  simp only [serve, hw, Bool.false_eq_true, if_false, now_call, poll, Nat.add_zero,
    Nat.le_refl, if_true, now_note]
  congr 1
  cases afterCall env { call with time := w.now } w.now _ <;> rfl

theorem serve_moves (left : ℕ) : Served env left := by
  induction left with
  | zero => exact fun call w => (Move.finish call w).moves
  | succ left ih =>
    intro call w
    cases hw : w.halted with
    | true =>
      rw [serve, if_pos hw]
      exact (Move.halt hw).moves
    | false =>
      rw [serve_succ hw rfl]
      split
      · next hl =>
        have hcall : Move env (.ready call (left + 1)) w _ _ := .call hw rfl
        rw [hl] at hcall
        exact (calling_moves ih _ _ _ _).head hcall
      · exact (Move.call hw rfl).moves

/-- **A poll of a queue is a sequence of moves.** -/
theorem poll_moves (q : Queue) (w : World) : Moves env (q, w) (poll env q w) := by
  cases q with
  | ready call left => exact serve_moves left call w
  | calling call left outcome returns =>
    exact calling_moves (serve_moves left) call outcome returns w
  | awaiting call left window =>
    simp only [poll]
    cases ha : window.result? env w.now with
    | none => exact ReflTransGen.refl
    | some result =>
      exact (next_moves (serve_moves left) call result w).head (Move.acknowledge ha)
  | ended flow => exact ReflTransGen.refl

theorem eq_ended_of_flow? {q : Queue} {flow : Flow} (h : q.flow? = some flow) :
    q = .ended flow := by
  cases q <;> simp_all [flow?]

end Queue

/-! ### Activities -/

namespace Activity

/-- One move of an activity. -/
inductive Move (env : Environment) : Activity → World → Activity → World → Prop
  /-- There is no pause to make. -/
  | rest {path : Path} {w : World} : Move env (.pause path none) w (.ended .completed) w
  /-- A pause begins. -/
  | pause {path : Path} {o : TimeOption} {w : World} :
      Move env (.pause path (some o)) w (beginPause env path (some o) w).1
        (beginPause env path (some o) w).2
  /-- A pause is looked at. -/
  | wake {instant : Instant} {w : World} :
      Move env (.sleeping instant) w (pollSleep instant w) w
  /-- A transition is not dispatched, since the run is to halt. -/
  | withhold {path : Path} {t : Transition} {w : World} (hw : w.halted = true) :
      Move env (.dispatch path t) w (.ended .cancelled) w
  /-- A transition is dispatched, and nothing is done for its devices yet. -/
  | dispatch {path : Path} {t : Transition} {w : World} (hw : w.halted = false) :
      Move env (.dispatch path t) w
        (.applying (newQueues (announce env path t w).2.now path t (announce env path t w).1))
        (announce env path t w).2
  /-- One of the devices of a transition is served. -/
  | serve {q q' : Queue} {w w' : World} (before after : List Queue)
      (hq : Queue.Move env q w q' w') :
      Move env (.applying (before ++ q :: after)) w (.applying (before ++ q' :: after)) w'
  /-- All devices of a transition have been served. -/
  | served {flows : List Flow} {w : World} :
      Move env (.applying (flows.map .ended)) w (.ended (.merge flows)) w
  /-- The first part of a sequence goes on. -/
  | first {a a' rest : Activity} {w w' : World} (ha : Move env a w a' w') :
      Move env (.seq a rest) w (.seq a' rest) w'
  /-- The rest of a sequence begins. -/
  | second {rest : Activity} {w : World} : Move env (.seq (.ended .completed) rest) w rest w
  /-- The rest of a sequence is left out. -/
  | skip {flow : Flow} {rest : Activity} {w : World} (hf : flow ≠ .completed) :
      Move env (.seq (.ended flow) rest) w (.ended flow) w
  /-- One of several branches goes on. -/
  | branch {a a' : Activity} {w w' : World} (before after : List Activity)
      (ha : Move env a w a' w') :
      Move env (.join (before ++ a :: after)) w (.join (before ++ a' :: after)) w'
  /-- All branches have ended. -/
  | joined {flows : List Flow} {w : World} :
      Move env (.join (flows.map .ended)) w (.ended (.merge flows)) w
  /-- A loop cannot be entered. -/
  | bar {block : Block} {before after : Option TimeOption} {body : Activity} {cause : LoopError}
      {w w' : World} (he : w.enterLoop env block.mode = (.error cause, w')) :
      Move env (.enter block before body after) w
        (.ended (.fatal (.loop block.path.text cause)))
        ((w'.note (.barred block.path cause)).fail (.loop block.path.text cause))
  /-- A loop is entered, and the pauses around it are made before and after. -/
  | enter {block : Block} {before after : Option TimeOption} {body : Activity} {bound : Bound}
      {w w' : World} (he : w.enterLoop env block.mode = (.ok bound, w')) :
      Move env (.enter block before body after) w
        (.seq (.pause block.path before)
          (.seq (.rounds block bound 0 body) (.pause block.path after)))
        (w'.note (.entered block.path bound))
  /-- A loop is over. -/
  | expire {block : Block} {bound : Bound} {completed : ℕ} {body : Activity} {w : World}
      (hb : bound.continues completed w.now = false) :
      Move env (.rounds block bound completed body) w (.ended .completed)
        (w.note (.left block.path completed))
  /-- A loop would go on, but the run is to halt. -/
  | stop {block : Block} {bound : Bound} {completed : ℕ} {body : Activity} {w : World}
      (hb : bound.continues completed w.now = true) (hw : w.halted = true) :
      Move env (.rounds block bound completed body) w (.ended .cancelled) w
  /-- An iteration begins. -/
  | begin {block : Block} {bound : Bound} {completed : ℕ} {body : Activity} {w : World}
      (hb : bound.continues completed w.now = true) (hw : w.halted = false) :
      Move env (.rounds block bound completed body) w (.within block bound completed body body)
        (w.emit env (.iteration block.order block.path.text (completed + 1) block.mode.word))
  /-- An iteration goes on. -/
  | inside {block : Block} {bound : Bound} {completed : ℕ} {body a a' : Activity}
      {w w' : World} (ha : Move env a w a' w') :
      Move env (.within block bound completed body a) w (.within block bound completed body a') w'
  /-- An iteration is complete. -/
  | again {block : Block} {bound : Bound} {completed : ℕ} {body : Activity} {w : World} :
      Move env (.within block bound completed body (.ended .completed)) w
        (.rounds block bound (completed + 1) body) w.yield
  /-- An iteration ends its loop. -/
  | leave {block : Block} {bound : Bound} {completed : ℕ} {body : Activity} {flow : Flow}
      {w : World} (hf : flow ≠ .completed) :
      Move env (.within block bound completed body (.ended flow)) w (.ended flow) w

/-- A sequence of moves of an activity. -/
def Moves (env : Environment) : Progress → Progress → Prop :=
  ReflTransGen fun x y => Move env x.1 x.2 y.1 y.2

theorem Move.moves {a a' : Activity} {w w' : World} (h : Move env a w a' w') :
    Moves env (a, w) (a', w') := ReflTransGen.single h

theorem eq_ended_of_flow? {a : Activity} {flow : Flow} (h : a.flow? = some flow) :
    a = .ended flow := by
  cases a <;> simp_all [flow?]

/-! #### Moves of a part are moves of the whole -/

theorem Moves.first {a a' : Activity} {w w' : World} (rest : Activity)
    (h : Moves env (a, w) (a', w')) : Moves env (.seq a rest, w) (.seq a' rest, w') :=
  ReflTransGen.lift (fun x : Progress => (Activity.seq x.1 rest, x.2))
    (fun _ _ => Move.first) _ _ h

theorem Moves.inside {a a' : Activity} {w w' : World} (block : Block) (bound : Bound)
    (completed : ℕ) (body : Activity) (h : Moves env (a, w) (a', w')) :
    Moves env (.within block bound completed body a, w)
      (.within block bound completed body a', w') :=
  ReflTransGen.lift (fun x : Progress => (Activity.within block bound completed body x.1, x.2))
    (fun _ _ => Move.inside) _ _ h

theorem Moves.branch {a a' : Activity} {w w' : World} (before after : List Activity)
    (h : Moves env (a, w) (a', w')) :
    Moves env (.join (before ++ a :: after), w) (.join (before ++ a' :: after), w') :=
  ReflTransGen.lift (fun x : Progress => (Activity.join (before ++ x.1 :: after), x.2))
    (fun _ _ => Move.branch before after) _ _ h

theorem Moves.serve {q q' : Queue} {w w' : World} (before after : List Queue)
    (h : Queue.Moves env (q, w) (q', w')) :
    Moves env (.applying (before ++ q :: after), w) (.applying (before ++ q' :: after), w') :=
  ReflTransGen.lift (fun x : Queue × World => (Activity.applying (before ++ x.1 :: after), x.2))
    (fun _ _ => Move.serve before after) _ _ h

/-! #### Pauses and transitions -/

theorem beginPause_moves (path : Path) (o : Option TimeOption) (w : World) :
    Moves env (.pause path o, w) (beginPause env path o w) := by
  cases o with
  | none => exact Move.rest.moves
  | some o => exact Move.pause.moves

theorem ofQueues_moves (queues : List Queue) (w : World) :
    Moves env (.applying queues, w) (ofQueues queues, w) := by
  unfold ofQueues
  split
  · next flows h =>
    rw [eq_map_of_mapM Queue.eq_ended_of_flow? h]
    exact Move.served.moves
  · exact ReflTransGen.refl

/-- The queues are polled in their order; `done` are those that have been. -/
theorem applying_moves : ∀ (queues done : List Queue) (w : World),
    Moves env (.applying (done ++ queues), w)
      (.applying (done ++ (Queue.pollAll env queues w).1), (Queue.pollAll env queues w).2) := by
  intro queues
  induction queues with
  | nil => exact fun done w => ReflTransGen.refl
  | cons q queues ih =>
    intro done w
    have hq : Moves env _ _ := Moves.serve done queues (Queue.poll_moves q w)
    have hrest := ih (done ++ [(Queue.poll env q w).1]) (Queue.poll env q w).2
    rw [List.append_assoc, List.append_assoc] at hrest
    exact hq.trans hrest

theorem pollQueues_moves (queues : List Queue) (w : World) :
    Moves env (.applying queues, w)
      (ofQueues (Queue.pollAll env queues w).1, (Queue.pollAll env queues w).2) :=
  (applying_moves queues [] w).trans (ofQueues_moves _ _)

theorem beginDispatch_moves (path : Path) (t : Transition) (w : World) :
    Moves env (.dispatch path t, w) (beginDispatch env path t w) := by
  unfold beginDispatch
  cases hw : w.halted with
  | true => exact (Move.withhold hw).moves
  | false => exact (pollQueues_moves _ _).head (Move.dispatch hw)

/-! #### Sequences and loops -/

theorem andThen_moves {a : Activity} {w : World} {first : Progress} (rest : Activity)
    {pollRest : World → Progress} (hfirst : Moves env (a, w) first)
    (hrest : ∀ w, Moves env (rest, w) (pollRest w)) :
    Moves env (.seq a rest, w) (andThen first rest pollRest) := by
  obtain ⟨a', w'⟩ := first
  have h := hfirst.first rest
  cases a' with
  | ended flow =>
    cases flow with
    | completed => exact h.trans ((hrest w').head Move.second)
    | cancelled => exact h.tail (Move.skip nofun)
    | fatal cause => exact h.tail (Move.skip nofun)
  | _ => exact h

theorem afterBody_moves {a : Activity} {w : World} {current : Progress} (block : Block)
    (bound : Bound) (completed : ℕ) (body : Activity) (h : Moves env (a, w) current) :
    Moves env (.within block bound completed body a, w)
      (afterBody block bound completed body current) := by
  obtain ⟨a', w'⟩ := current
  have h := h.inside block bound completed body
  cases a' with
  | ended flow =>
    cases flow with
    | completed => exact h.tail Move.again
    | cancelled => exact h.tail (Move.leave nofun)
    | fatal cause => exact h.tail (Move.leave nofun)
  | _ => exact h

theorem beginRound_moves (block : Block) (bound : Bound) (completed : ℕ) (body : Activity)
    {pollBody : World → Progress} (hbody : ∀ w, Moves env (body, w) (pollBody w)) (w : World) :
    Moves env (.rounds block bound completed body, w)
      (beginRound env block bound completed body pollBody w) := by
  unfold beginRound
  cases hb : bound.continues completed w.now with
  | false => exact (Move.expire hb).moves
  | true =>
    cases hw : w.halted with
    | true => exact (Move.stop hb hw).moves
    | false =>
      exact (afterBody_moves block bound completed body (hbody _)).head (Move.begin hb hw)

theorem beginLoop_moves (block : Block) (before : Option TimeOption) (body : Activity)
    (after : Option TimeOption) {pollBody : World → Progress}
    (hbody : ∀ w, Moves env (body, w) (pollBody w)) (w : World) :
    Moves env (.enter block before body after, w)
      (beginLoop env block before body after pollBody w) := by
  unfold beginLoop
  split
  · next he => exact (Move.bar he).moves
  · next bound w' he =>
    refine (andThen_moves _ (beginPause_moves _ _ _) fun w => ?_).head (Move.enter he)
    exact andThen_moves _ (beginRound_moves _ _ _ _ hbody w) (beginPause_moves _ _)

theorem ofBranches_moves (branches : List Activity) (w : World) :
    Moves env (.join branches, w) (ofBranches branches, w) := by
  unfold ofBranches
  split
  · next flows h =>
    rw [eq_map_of_mapM eq_ended_of_flow? h]
    exact Move.joined.moves
  · exact ReflTransGen.refl

/-! #### Polls -/

mutual

/-- **A poll of an activity is a sequence of moves.** -/
theorem poll_moves : ∀ (a : Activity) (w : World), Moves env (a, w) (poll env a w)
  | .ended _, w => by
    rw [poll]
    exact ReflTransGen.refl
  | .pause path o, w => by
    rw [poll]
    exact beginPause_moves path o w
  | .sleeping wake, w => by
    rw [poll]
    exact Move.wake.moves
  | .dispatch path t, w => by
    rw [poll]
    exact beginDispatch_moves path t w
  | .applying queues, w => by
    rw [poll]
    exact pollQueues_moves queues w
  | .seq first rest, w => by
    rw [poll]
    exact andThen_moves rest (poll_moves first w) (poll_moves rest)
  | .join branches, w => by
    rw [poll]
    exact (pollAll_moves branches [] w).trans (ofBranches_moves _ _)
  | .enter block before body after, w => by
    rw [poll]
    exact beginLoop_moves block before body after (poll_moves body) w
  | .rounds block bound completed body, w => by
    rw [poll]
    exact beginRound_moves block bound completed body (poll_moves body) w
  | .within block bound completed body current, w => by
    rw [poll]
    exact afterBody_moves block bound completed body (poll_moves current w)

/-- The branches are polled in their order; `done` are those that have been. -/
theorem pollAll_moves : ∀ (branches done : List Activity) (w : World),
    Moves env (.join (done ++ branches), w)
      (.join (done ++ (pollAll env branches w).1), (pollAll env branches w).2)
  | [], done, w => by
    rw [pollAll]
    exact ReflTransGen.refl
  | a :: branches, done, w => by
    have ha := (poll_moves a w).branch done branches
    have hrest := pollAll_moves branches (done ++ [(poll env a w).1]) (poll env a w).2
    rw [List.append_assoc, List.append_assoc] at hrest
    rw [pollAll]
    exact ha.trans hrest

end

end Activity

/-! ### Runs -/

namespace Machine

/-- One move of a run: its activity moves, or the world around it. -/
inductive Move (env : Environment) : Machine → Machine → Prop
  /-- A part of the activity goes on. -/
  | act {a a' : Activity} {w w' : World} (ha : Activity.Move env a w a' w') :
      Move env ⟨a, w⟩ ⟨a', w'⟩
  /-- The clock moves. -/
  | wait (a : Activity) (w : World) (t : Instant) : Move env ⟨a, w⟩ ⟨a, { w with now := t }⟩
  /-- A round begins. -/
  | turn (a : Activity) (w : World) : Move env ⟨a, w⟩ ⟨a, w.nextRound⟩
  /-- The caller cancels, or does not. -/
  | cancel (a : Activity) (w : World) (due : Bool) : Move env ⟨a, w⟩ ⟨a, w.cancelIf due⟩

/-- A sequence of moves of a run. -/
def Moves (env : Environment) : Machine → Machine → Prop := ReflTransGen (Move env)

/-- **What every move keeps holds after every run.** -/
theorem Moves.keep (I : Machine → Prop) {m m' : Machine} (h : Moves env m m')
    (hI : ∀ {m m' : Machine}, Move env m m' → I m → I m') (hm : I m) : I m' := by
  induction h with
  | refl => exact hm
  | tail _ hmove ih => exact hI hmove ih

/-- What has ended stays so, and nothing more is seen of it. -/
theorem Moves.of_ended {flow : Flow} {w : World} {m : Machine} (h : Moves env ⟨.ended flow, w⟩ m) :
    m.activity = .ended flow ∧ ∀ {α : Type} {view : Entry → Option α}, view .cancelled = none →
      m.world.see view = w.see view := by
  induction h with
  | refl => exact ⟨rfl, fun _ => rfl⟩
  | tail _ hmove ih =>
    obtain ⟨hended, hsee⟩ := ih
    cases hmove with
    | act ha =>
      -- an activity that has ended has no moves
      subst hended
      cases ha
    | wait a w t => exact ⟨hended, hsee⟩
    | turn a w => exact ⟨hended, hsee⟩
    | cancel a w due => exact ⟨hended, fun hv => (see_cancelIf _ hv due).trans (hsee hv)⟩

theorem Moves.act {a a' : Activity} {w w' : World} (h : Activity.Moves env (a, w) (a', w')) :
    Moves env ⟨a, w⟩ ⟨a', w'⟩ :=
  ReflTransGen.lift (fun x : Activity.Progress => (⟨x.1, x.2⟩ : Machine))
    (fun _ _ => Move.act) _ _ h

theorem advance_moves (before : World) (m : Machine) : Moves env m (advance env before m) := by
  unfold advance
  split
  · exact ReflTransGen.refl
  · exact ReflTransGen.single (Move.wait m.activity m.world _)

theorem round_moves (m : Machine) : Moves env m (m.round env) := by
  obtain ⟨a, w⟩ := m
  -- the round is counted, the caller may cancel, all parts are polled, and the clock moves
  have hturn : Moves env ⟨a, w⟩ ⟨a, w.nextRound⟩ := ReflTransGen.single (Move.turn a w)
  have hcancel : Moves env ⟨a, w.nextRound⟩ ⟨a, World.cancelOnTime env w.nextRound⟩ :=
    ReflTransGen.single (Move.cancel a w.nextRound _)
  have hpoll := (hturn.trans hcancel).trans (Moves.act (Activity.poll_moves a _))
  rcases hp : Activity.poll env a (World.cancelOnTime env w.nextRound) with ⟨a', w'⟩
  rw [hp] at hpoll
  simp only [round, hp]
  cases a' with
  | ended flow => exact hpoll
  | _ => exact hpoll.trans (advance_moves _ _)

/-- A run after a number of rounds, or where it ended before. -/
def after (env : Environment) : ℕ → Machine → Machine
  | 0, m => m
  | n + 1, m =>
    match m.activity with
    | .ended _ => m
    | _ => after env n (m.round env)

theorem after_moves (n : ℕ) : ∀ m : Machine, Moves env m (m.after env n) := by
  induction n with
  | zero => exact fun m => ReflTransGen.refl
  | succ n ih =>
    intro m
    unfold after
    split
    · exact ReflTransGen.refl
    · exact (round_moves m).trans (ih _)

theorem run?_eq_some_iff (fuel : ℕ) : ∀ (m : Machine) (flow : Flow) (w : World),
    m.run? env fuel = some (flow, w) ↔ m.after env fuel = ⟨.ended flow, w⟩ := by
  induction fuel with
  | zero =>
    intro m flow w
    obtain ⟨a, w'⟩ := m
    cases a <;> simp [run?, after]
  | succ fuel ih =>
    intro m flow w
    obtain ⟨a, w'⟩ := m
    cases a with
    | ended flow' => simp [run?, after]
    | _ => exact ih _ flow w

end Machine

namespace Program

/-- What a run of a program may come to, in whatever order its parts go on, however the clock
moves, and whenever the caller cancels. -/
def Reaches (env : Environment) (p : Program) : Machine → Prop :=
  Machine.Moves env (Machine.start env p)

/-- A run of a program may return a result and leave a world. -/
def Returns (env : Environment) (p : Program) (result : RunResult) (w : World) : Prop :=
  ∃ flow w', p.Reaches env ⟨.ended flow, w'⟩ ∧ flow.result env w' = (result, w)

variable {p : Program}

/-- The world in which a run begins. -/
def firstWorld (env : Environment) (p : Program) : World :=
  World.emit env (.started env.runId p.displayName) (World.cancelOnTime env {})

/-- All that is seen of a run in the beginning is that it starts. -/
theorem see_firstWorld {α : Type} {view : Entry → Option α} (hv : view .cancelled = none) :
    (p.firstWorld env).see view = (view (.event (.started env.runId p.displayName))).toList := by
  rw [firstWorld, see_emit _ _ hv, cancelOnTime, see_cancelIf _ hv]
  rfl

/-- A program without faults begins with its step. -/
theorem start_of_valid (hp : p.step.faults = []) : Machine.start env p
    = ⟨p.step.activity env.scope p.step.rootPath, p.firstWorld env⟩ := by
  unfold Machine.start
  rw [hp]
  rfl

/-- A program with faults has ended before it begins. -/
theorem start_of_faults (hp : p.step.faults ≠ []) : Machine.start env p
    = ⟨.ended (.fatal (.invalidProgram p.step.faults)), p.firstWorld env⟩ := by
  unfold Machine.start
  cases hf : p.step.faults with
  | nil => exact absurd hf hp
  | cons f fs => rfl

theorem reaches_after (n : ℕ) : p.Reaches env (Machine.after env n (Machine.start env p)) :=
  Machine.after_moves n _

/-- **What a run returns is something that a run may return.** -/
theorem returns_of_run? {fuel : ℕ} {result : RunResult} {w : World}
    (h : p.run? env fuel = some (result, w)) : p.Returns env result w := by
  rw [Program.run?, Option.map_eq_some_iff] at h
  obtain ⟨⟨flow, w'⟩, hrun, hresult⟩ := h
  have hafter := (Machine.run?_eq_some_iff fuel _ flow w').mp hrun
  exact ⟨flow, w', hafter ▸ reaches_after fuel, hresult⟩

end Program

end Lightshow
