import Lightshow.Proofs.Run.Serving
import Lightshow.Proofs.Time.Alarm
import Lightshow.Proofs.Time.Clock

/-!
# Waiting

A poll goes on as far as it can.  What is left of an activity that was polled *waits*: each of its
parts has ended or is due at a later instant, unless an iteration has just been completed or the
run has come to halt during the poll, and then another round follows at once.  So the clock of a
run moves only if there is nothing to do before the instant to which it jumps, and it never passes
an instant at which something is due.

## Main definitions

* `Queue.Waits`, `Activity.Waits` — what can do nothing more at an instant.
* `Activity.Settled` — polls after which all parts wait.
* `Activity.dues` — the instants at which something happens.
* `Machine.Tick`, `Program.Runs` — the moves of a run with the clock that it has.

## Main results

* `Queue.poll_waits`, `Activity.poll_settled` — what was polled waits.
* `Activity.due_eq`, `Activity.Waits.dues` — an activity that waits is due later.
* `Machine.round_cases` — no time passes in a round until everything waits.
* `Machine.after_ticks` — **a run goes through ticks.**
-/

namespace Lightshow

open Relation World

variable {env : Environment}

/-- A list that cannot be read off as a whole has an element that cannot. -/
theorem exists_none_of_mapM {α β : Type} {f : α → Option β} {xs : List α}
    (h : xs.mapM f = none) : ∃ x ∈ xs, f x = none := by
  induction xs with
  | nil => exact absurd h nofun
  | cons x xs ih =>
    cases hx : f x with
    | none => exact ⟨x, List.mem_cons_self, hx⟩
    | some y =>
      have hxs : xs.mapM f = none := by
        rw [List.mapM_cons, hx] at h
        cases hxs : xs.mapM f with
        | none => rfl
        | some ys =>
          rw [hxs] at h
          exact absurd h nofun
      obtain ⟨z, hz, hnone⟩ := ih hxs
      exact ⟨z, List.mem_cons_of_mem x hz, hnone⟩

/-! ### Queues -/

/-- A moment in which nothing is known yet is before the window is due. -/
theorem Window.result?_eq_none_iff (env : Environment) (now : Instant) (window : Window) :
    window.result? env now = none ↔ now < window.due := by
  unfold Window.result? Window.due
  cases window.ack with
  | none =>
    by_cases hcloses : window.closes ≤ now
    · simp [hcloses]
    · simp [hcloses, Nat.lt_of_not_le hcloses]
  | some a =>
    obtain ⟨t, ack⟩ := a
    by_cases hack : t ≤ now
    · have hlate : ¬now < t := Nat.not_lt.mpr hack
      simp [Option.filter, hack, hlate]
    · by_cases hcloses : window.closes ≤ now
      · simp [Option.filter, hack, hcloses]
      · simp [Option.filter, hack, hcloses, Nat.lt_of_not_le hack, Nat.lt_of_not_le hcloses]

/-- When something is known then the window is due. -/
theorem Window.due_le_of_result {window : Window} {now : Instant}
    {result : Except DeviceError Unit} (h : window.result? env now = some result) :
    window.due ≤ now := by
  refine Nat.le_of_not_lt fun hlater => ?_
  rw [(Window.result?_eq_none_iff env now window).mpr hlater] at h
  cases h

namespace Queue

/-- A queue has ended, or it is due later. -/
def Waits (now : Instant) : Queue → Prop
  | .ended _ => True
  | .ready .. => False
  | .calling _ _ _ returns => now < returns
  | .awaiting _ _ window => now < window.due

/-- A window that is opened when a call returns is due later. -/
theorem window_waits {c : Call} {now : Instant} {outcome : Dispatch} {window : Window}
    (h : afterCall env c now outcome = .inr window) : now < window.due := by
  rcases afterCall_cases env c now outcome with ⟨result, hresult, -⟩ | ⟨ack, rfl, hwait, hwindow⟩
  · rw [hresult] at h
    cases h
  · obtain rfl : window = _ := Sum.inr.inj (h.symm.trans hwindow)
    refine (Window.result?_eq_none_iff env now _).mp ?_
    simp only [afterCall, hwait, if_true] at hwindow
    split at hwindow
    · cases hwindow
    · next hnone => exact hnone

/-- What follows the result of a call waits if the calls that are left do. -/
theorem proceed_waits {left : ℕ} (hs : ∀ (call : Call) (w : World),
    (serve env left call w).1.Waits w.now) (call : Call) (result : Except DeviceError Unit)
    (w : World) : (proceed env call left result w).1.Waits w.now := by
  have hnow : (settle env call result w).2.now = w.now := (settle_grows call result w).1
  unfold proceed
  rcases hsettle : settle env call result w with ⟨_ | flow, w'⟩
  · rw [hsettle] at hnow
    have hwaits := hs { call with turn := call.turn + 1 } w'
    rw [hnow] at hwaits
    exact hwaits
  · trivial

theorem calling_waits {left : ℕ} (hs : ∀ (call : Call) (w : World),
    (serve env left call w).1.Waits w.now) (call : Call) (outcome : Dispatch) (returns : Instant)
    (w : World) : (poll env (.calling call left outcome returns) w).1.Waits w.now := by
  unfold poll
  by_cases hr : returns ≤ w.now
  · simp only [if_pos hr, now_note]
    cases ha : afterCall env call w.now outcome with
    | inl result => exact proceed_waits hs call result (w.note (.returned call))
    | inr window => exact window_waits ha
  · simp only [if_neg hr]
    exact Nat.lt_of_not_le hr

/-- Queues that are served wait afterwards. -/
theorem serve_waits (left : ℕ) : ∀ (call : Call) (w : World),
    (serve env left call w).1.Waits w.now := by
  induction left with
  | zero => exact fun call w => trivial
  | succ left ih =>
    intro call w
    cases hw : w.halted with
    | true =>
      rw [serve, if_pos hw]
      trivial
    | false =>
      rw [serve_succ hw rfl]
      split
      · have hwaits := calling_waits ih { call with time := w.now }
          (env.gateway w.journal { call with time := w.now }).outcome (w.now + 0)
          (w.call env { call with time := w.now })
        rwa [now_call] at hwaits
      · next hlatency =>
        exact Nat.lt_add_of_pos_right (Nat.pos_of_ne_zero hlatency)

/-- **A queue that was polled waits.** -/
theorem poll_waits (q : Queue) (w : World) : (poll env q w).1.Waits w.now := by
  cases q with
  | ready call left => exact serve_waits left call w
  | calling call left outcome returns =>
    exact calling_waits (serve_waits left) call outcome returns w
  | awaiting call left window =>
    simp only [poll]
    cases ha : window.result? env w.now with
    | none => exact (Window.result?_eq_none_iff env w.now window).mp ha
    | some result => exact proceed_waits (serve_waits left) call result w
  | ended flow => trivial

theorem pollAll_waits (queues : List Queue) :
    ∀ w : World, ∀ q ∈ (pollAll env queues w).1, q.Waits w.now := by
  induction queues with
  | nil => exact fun w q hq => absurd hq List.not_mem_nil
  | cons q queues ih =>
    intro w r hr
    have hnow : (poll env q w).2.now = w.now := (Moves.grows (poll_moves q w)).1
    rcases List.mem_cons.mp hr with rfl | hr
    · exact poll_waits q w
    · rw [← hnow]
      exact ih _ r hr

end Queue

/-! ### Worlds -/

namespace World

/-- From one world to another nothing has given way to other parts, and the run has not come to
halt. -/
def Steady (w w' : World) : Prop := w'.yielded = false ∧ w'.halted = w.halted

/-- From one world to another no time has passed, and what gave way or was to halt still does. -/
structure Leads (w w' : World) : Prop where
  now : w'.now = w.now
  yielded : w.yielded = true → w'.yielded = true
  halted : w.halted = true → w'.halted = true

variable {u v w : World}

theorem Leads.refl (w : World) : w.Leads w := ⟨rfl, id, id⟩

theorem Leads.trans (huv : u.Leads v) (hvw : v.Leads w) : u.Leads w :=
  ⟨hvw.now.trans huv.now, hvw.yielded ∘ huv.yielded, hvw.halted ∘ huv.halted⟩

/-- What is steady as a whole is steady in its parts. -/
theorem Steady.split (h : Steady u w) (huv : u.Leads v) (hvw : v.Leads w) :
    Steady u v ∧ Steady v w := by
  obtain ⟨hyielded, hhalted⟩ := h
  have hquiet : v.yielded = false := by
    refine Bool.eq_false_iff.mpr fun hv => ?_
    exact absurd (hvw.yielded hv) (Bool.eq_false_iff.mp hyielded)
  have hmiddle : v.halted = u.halted := by
    refine Bool.eq_iff_iff.mpr ⟨fun hv => ?_, huv.halted⟩
    rw [← hhalted]
    exact hvw.halted hv
  exact ⟨⟨hquiet, hmiddle⟩, hyielded, hhalted.trans hmiddle.symm⟩

theorem note_leads (e : Entry) (w : World) : w.Leads (w.note e) := ⟨rfl, id, id⟩

theorem cancelIf_leads (due : Bool) (w : World) : w.Leads (w.cancelIf due) := by
  refine ⟨now_cancelIf w due, fun hw => ?_, fun hw => ?_⟩
  · unfold cancelIf
    split <;> exact hw
  · rw [halted_cancelIf, hw, Bool.true_or]

theorem emit_leads (env : Environment) (e : Event) (w : World) : w.Leads (w.emit env e) :=
  (note_leads _ w).trans (cancelIf_leads _ _)

theorem call_leads (env : Environment) (c : Call) (w : World) : w.Leads (w.call env c) :=
  (note_leads _ w).trans (cancelIf_leads _ _)

theorem fail_leads (cause : RunError) (w : World) : w.Leads (w.fail cause) :=
  ⟨rfl, id, fun _ => Bool.or_true _⟩

theorem yield_leads (w : World) : w.Leads w.yield := ⟨rfl, fun _ => rfl, id⟩

theorem notes_leads (es : List Entry) : ∀ w : World, w.Leads (w.notes es) := by
  induction es with
  | nil => exact Leads.refl
  | cons e es ih => exact fun w => (note_leads e w).trans (ih _)

end World

namespace Queue

theorem settle_leads (c : Call) (result : Except DeviceError Unit) (w : World) :
    w.Leads (settle env c result w).2 := by
  have hshown : ∀ error, w.Leads (shown env c error w) := fun error =>
    (note_leads _ w).trans (emit_leads env _ _)
  rcases settle_cases env c result w with ⟨-, h⟩ | ⟨e, -, -, h⟩ | ⟨cause, -, -, h⟩
  · rw [h]
    exact hshown none
  · rw [h]
    exact (hshown (some e)).trans (note_leads _ _)
  · rw [h]
    exact (hshown (some (.gateway cause))).trans (fail_leads _ _)

theorem Move.leads {q q' : Queue} {w w' : World} (h : Move env q w q' w') : w.Leads w' := by
  cases h with
  | finish => exact .refl w
  | halt => exact .refl w
  | call => exact call_leads env _ w
  | await => exact note_leads _ w
  | answer => exact (note_leads _ w).trans (settle_leads ..)
  | acknowledge => exact settle_leads ..

end Queue

/-! ### Activities -/

/-- An activity can do nothing more at an instant, while the run is to halt or not: each of its
parts that have begun has ended or is due later, and one of them is. -/
inductive Activity.Waits (halted : Bool) (now : Instant) : Activity → Prop
  | sleeping {wake : Instant} (hgoing : halted = false) (h : now < wake) :
      Waits halted now (.sleeping wake)
  | applying {queues : List Queue} (h : ∀ q ∈ queues, q.Waits now)
      (hlive : ∃ q ∈ queues, q.flow? = none) : Waits halted now (.applying queues)
  | first {first : Activity} (rest : Activity) (h : Waits halted now first) :
      Waits halted now (.seq first rest)
  | join {branches : List Activity} (h : ∀ a ∈ branches, a.flow? = none → Waits halted now a)
      (hlive : ∃ a ∈ branches, a.flow? = none) : Waits halted now (.join branches)
  | within (block : Block) (bound : Bound) (completed : ℕ) (body : Activity) {current : Activity}
      (h : Waits halted now current) : Waits halted now (.within block bound completed body current)

namespace Activity

/-- An activity has ended, or it waits. -/
def Rests (halted : Bool) (now : Instant) (a : Activity) : Prop :=
  a.flow? = none → a.Waits halted now

/-- From a world something leads on, and what is left rests unless there is reason for another
round. -/
def Settled (w : World) (x : Progress) : Prop :=
  w.Leads x.2 ∧ (w.Steady x.2 → x.1.Rests w.halted w.now)

theorem rests_ended {halted : Bool} {now : Instant} {flow : Flow} :
    (ended flow).Rests halted now := fun h => absurd h nofun

theorem enterLoop_leads {mode : LoopMode} {result : Except LoopError Bound} {w w' : World}
    (h : w.enterLoop env mode = (result, w')) : w.Leads w' := by
  obtain ⟨draws, times, -, heq⟩ := enterLoop_eq env mode w
  rw [heq] at h
  obtain ⟨-, rfl⟩ := Prod.mk.inj h
  exact notes_leads _ w

theorem Move.leads {a a' : Activity} {w w' : World} (h : Move env a w a' w') : w.Leads w' := by
  induction h with
  | @pause path o w =>
    obtain ⟨draws, span, h⟩ := beginPause_eq env path o w
    rw [h, beginSleep_world]
    exact (notes_leads _ w).trans (emit_leads env _ _)
  | @dispatch path t w =>
    rw [announce_eq]
    exact ((note_leads _ w).trans (notes_leads _ _)).trans (emit_leads env _ _)
  | serve _ _ hq => exact hq.leads
  | first _ ih => exact ih
  | branch _ _ _ ih => exact ih
  | inside _ ih => exact ih
  | bar he =>
    exact ((enterLoop_leads he).trans (note_leads _ _)).trans (fail_leads _ _)
  | enter he =>
    exact (enterLoop_leads he).trans (note_leads _ _)
  | expire => exact note_leads _ _
  | begin => exact emit_leads env _ _
  | again => exact yield_leads _
  | _ => exact .refl _

theorem Moves.leads {x y : Progress} (h : Moves env x y) : x.2.Leads y.2 := by
  induction h with
  | refl => exact .refl _
  | tail _ hmove ih => exact ih.trans hmove.leads

/-! #### Polls settle -/

theorem settled_ended {v w : World} {flow : Flow} (h : w.Leads v) : Settled w (ended flow, v) :=
  ⟨h, fun _ => rests_ended⟩

/-- What comes after something that takes no time. -/
theorem Settled.after {v w : World} {x : Progress} (h : Settled v x) (hleads : w.Leads v) :
    Settled w x := by
  obtain ⟨hleads', hrests⟩ := h
  refine ⟨hleads.trans hleads', fun hsteady => ?_⟩
  obtain ⟨hsteady, hsteady'⟩ := hsteady.split hleads hleads'
  rw [← hleads.now, ← hsteady.2]
  exact hrests hsteady'

theorem pollSleep_settled (wake : Instant) (w : World) : Settled w (pollSleep wake w, w) := by
  unfold pollSleep
  split
  · exact settled_ended (.refl w)
  · next hw =>
    split
    · exact settled_ended (.refl w)
    · next hwake =>
      exact ⟨.refl w, fun _ _ => .sleeping (Bool.eq_false_iff.mpr hw) (Nat.lt_of_not_le hwake)⟩

theorem beginPause_settled (path : Path) (o : Option TimeOption) (w : World) :
    Settled w (beginPause env path o w) := by
  cases o with
  | none => exact settled_ended (.refl w)
  | some o =>
    obtain ⟨draws, span, h⟩ := beginPause_eq env path o w
    rw [h]
    exact (pollSleep_settled _ _).after ((notes_leads _ w).trans (emit_leads env _ _))

/-- Queues that wait rest as a whole. -/
theorem ofQueues_rests {queues : List Queue} {now : Instant} (h : ∀ q ∈ queues, q.Waits now)
    (halted : Bool) : (ofQueues queues).Rests halted now := by
  unfold ofQueues
  split
  · exact rests_ended
  · next hnone => exact fun _ => .applying h (exists_none_of_mapM hnone)

theorem pollQueues_settled (queues : List Queue) (w : World) :
    Settled w (ofQueues (Queue.pollAll env queues w).1, (Queue.pollAll env queues w).2) :=
  ⟨(pollQueues_moves queues w).leads, fun _ => ofQueues_rests (Queue.pollAll_waits queues w) _⟩

theorem beginDispatch_settled (path : Path) (t : Transition) (w : World) :
    Settled w (beginDispatch env path t w) := by
  unfold beginDispatch
  split
  · exact settled_ended (.refl w)
  · next hw =>
    have hdispatch : Move env (.dispatch path t) w _ _ := .dispatch (Bool.eq_false_iff.mpr hw)
    exact (pollQueues_settled _ _).after hdispatch.leads

/-- What settles is followed by what settles. -/
theorem andThen_settled {w : World} {first : Progress} (rest : Activity)
    {pollRest : World → Progress} (hfirst : Settled w first)
    (hrest : ∀ w, Settled w (pollRest w)) : Settled w (andThen first rest pollRest) := by
  obtain ⟨a, w'⟩ := first
  obtain ⟨hleads, hrests⟩ := hfirst
  have hlive : a.flow? = none → Settled w (seq a rest, w') := fun hlive =>
    ⟨hleads, fun hsteady _ => .first rest (hrests hsteady hlive)⟩
  cases a with
  | ended flow =>
    cases flow with
    | completed => exact (hrest w').after hleads
    | _ => exact settled_ended hleads
  | _ => exact hlive rfl

/-- An iteration settles, and when it is complete there is reason for another round. -/
theorem afterBody_settled {w : World} {current : Progress} (block : Block) (bound : Bound)
    (completed : ℕ) (body : Activity) (h : Settled w current) :
    Settled w (afterBody block bound completed body current) := by
  obtain ⟨a, w'⟩ := current
  obtain ⟨hleads, hrests⟩ := h
  have hlive : a.flow? = none → Settled w (within block bound completed body a, w') := fun hlive =>
    ⟨hleads, fun hsteady _ => .within block bound completed body (hrests hsteady hlive)⟩
  cases a with
  | ended flow =>
    cases flow with
    | completed => exact ⟨hleads.trans (yield_leads w'), fun hsteady => absurd hsteady.1 nofun⟩
    | _ => exact settled_ended hleads
  | _ => exact hlive rfl

theorem beginRound_settled (block : Block) (bound : Bound) (completed : ℕ) (body : Activity)
    {pollBody : World → Progress} (hbody : ∀ w, Settled w (pollBody w)) (w : World) :
    Settled w (beginRound env block bound completed body pollBody w) := by
  unfold beginRound
  split
  · exact settled_ended (note_leads _ w)
  · split
    · exact settled_ended (.refl w)
    · exact (afterBody_settled block bound completed body (hbody _)).after (emit_leads env _ w)

theorem beginLoop_settled (block : Block) (before : Option TimeOption) (body : Activity)
    (after : Option TimeOption) {pollBody : World → Progress}
    (hbody : ∀ w, Settled w (pollBody w)) (w : World) :
    Settled w (beginLoop env block before body after pollBody w) := by
  unfold beginLoop
  split
  · next he =>
    have hbar : Move env (.enter block before body after) w _ _ := .bar he
    exact settled_ended hbar.leads
  · next he =>
    have henter : Move env (.enter block before body after) w _ _ := .enter he
    refine Settled.after ?_ henter.leads
    refine andThen_settled _ (beginPause_settled _ _ _) fun w => ?_
    exact andThen_settled _ (beginRound_settled block _ 0 body hbody w) (beginPause_settled _ _)

/-- Branches that rest rest as a whole. -/
theorem ofBranches_rests {branches : List Activity} {halted : Bool} {now : Instant}
    (h : ∀ a ∈ branches, a.Rests halted now) : (ofBranches branches).Rests halted now := by
  unfold ofBranches
  split
  · exact rests_ended
  · next hnone => exact fun _ => .join h (exists_none_of_mapM hnone)

mutual

/-- **What was polled waits**, unless there is reason for another round. -/
theorem poll_settled : ∀ (a : Activity) (w : World), Settled w (poll env a w)
  | .ended flow, w => by
    rw [poll]
    exact settled_ended (.refl w)
  | .pause path o, w => by
    rw [poll]
    exact beginPause_settled path o w
  | .sleeping wake, w => by
    rw [poll]
    exact pollSleep_settled wake w
  | .dispatch path t, w => by
    rw [poll]
    exact beginDispatch_settled path t w
  | .applying queues, w => by
    rw [poll]
    exact pollQueues_settled queues w
  | .seq first rest, w => by
    rw [poll]
    exact andThen_settled rest (poll_settled first w) (poll_settled rest)
  | .join branches, w => by
    obtain ⟨hleads, hrests⟩ := pollAll_settled branches w
    rw [poll]
    exact ⟨hleads, fun hsteady => ofBranches_rests (hrests hsteady)⟩
  | .enter block before body after, w => by
    rw [poll]
    exact beginLoop_settled block before body after (poll_settled body) w
  | .rounds block bound completed body, w => by
    rw [poll]
    exact beginRound_settled block bound completed body (poll_settled body) w
  | .within block bound completed body current, w => by
    rw [poll]
    exact afterBody_settled block bound completed body (poll_settled current w)

/-- The branches that were polled wait. -/
theorem pollAll_settled : ∀ (branches : List Activity) (w : World),
    w.Leads (pollAll env branches w).2 ∧ (w.Steady (pollAll env branches w).2 →
      ∀ a ∈ (pollAll env branches w).1, a.Rests w.halted w.now)
  | [], w => by
    rw [pollAll]
    exact ⟨.refl w, fun _ a ha => absurd ha List.not_mem_nil⟩
  | a :: branches, w => by
    obtain ⟨hleads, hrests⟩ := poll_settled a w
    obtain ⟨hleads', hrests'⟩ := pollAll_settled branches (poll env a w).2
    rw [pollAll]
    refine ⟨hleads.trans hleads', fun hsteady b hb => ?_⟩
    obtain ⟨hsteady, hsteady'⟩ := hsteady.split hleads hleads'
    rcases List.mem_cons.mp hb with rfl | hb
    · exact hrests hsteady
    · rw [← hleads.now, ← hsteady.2]
      exact hrests' hsteady' b hb

end

end Activity

/-! ### When something happens next -/

mutual

/-- The instants at which something happens to an activity. -/
def Activity.dues : Activity → List Instant
  | .sleeping wake => [wake]
  | .applying queues => queues.filterMap Queue.due
  | .seq first _ => Activity.dues first
  | .join branches => Activity.duesAll branches
  | .within _ _ _ _ current => Activity.dues current
  | _ => []

/-- The instants at which something happens to one of some activities. -/
def Activity.duesAll : List Activity → List Instant
  | [] => []
  | a :: rest => Activity.dues a ++ Activity.duesAll rest

end

namespace Activity

theorem duesAll_eq_flatMap (branches : List Activity) :
    duesAll branches = branches.flatMap dues := by
  induction branches with
  | nil => rfl
  | cons a branches ih => rw [duesAll, ih, List.flatMap_cons]

/-- The earlier of two instants that may be missing is the least of both. -/
theorem sooner_min? (xs ys : List Instant) : sooner xs.min? ys.min? = (xs ++ ys).min? := by
  induction xs with
  | nil =>
    rw [List.nil_append]
    cases ys.min? <;> rfl
  | cons x xs ih =>
    rw [List.cons_append, List.min?_cons, List.min?_cons, ← ih]
    cases xs.min? <;> cases ys.min? <;> simp [sooner, Nat.min_assoc]

theorem foldl_sooner (queues : List Queue) : ∀ xs : List Instant,
    queues.foldl (fun t q => sooner t q.due) xs.min? = (xs ++ queues.filterMap Queue.due).min? := by
  induction queues with
  | nil =>
    intro xs
    rw [List.filterMap_nil, List.append_nil]
    rfl
  | cons q queues ih =>
    intro xs
    have hq : q.due = q.due.toList.min? := by cases q.due <;> rfl
    have hqueues : (q :: queues).filterMap Queue.due
        = q.due.toList ++ queues.filterMap Queue.due := by
      rw [List.filterMap_cons]
      cases q.due <;> rfl
    rw [List.foldl_cons, hq, sooner_min?, ih, hqueues, List.append_assoc]

mutual

/-- **An activity is due when something happens first.** -/
theorem due_eq : ∀ a : Activity, a.due = a.dues.min?
  | .applying queues => by
    rw [due, dues]
    exact foldl_sooner queues []
  | .seq first _ => by
    rw [due, dues]
    exact due_eq first
  | .join branches => by
    rw [due, dues]
    exact dueAll_eq branches
  | .within _ _ _ _ current => by
    rw [due, dues]
    exact due_eq current
  | .sleeping _ | .ended _ | .pause .. | .dispatch .. | .enter .. | .rounds .. => rfl

theorem dueAll_eq : ∀ branches : List Activity, dueAll branches = (duesAll branches).min?
  | [] => rfl
  | a :: rest => by
    rw [dueAll, duesAll, ← sooner_min?, due_eq a, dueAll_eq rest]

end

/-- **What waits is due, and due later.** -/
theorem Waits.dues {halted : Bool} {now : Instant} {a : Activity} (h : a.Waits halted now) :
    a.dues ≠ [] ∧ ∀ t ∈ a.dues, now < t := by
  induction h with
  | sleeping _ h => exact ⟨List.cons_ne_nil _ _, fun t ht => List.mem_singleton.mp ht ▸ h⟩
  | applying h hlive =>
    refine ⟨?_, fun t ht => ?_⟩
    · obtain ⟨q, hq, hflow⟩ := hlive
      have hwaits := h q hq
      obtain ⟨t, ht⟩ : ∃ t, q.due = some t := by
        cases q with
        | ready => exact hwaits.elim
        | calling => exact ⟨_, rfl⟩
        | awaiting => exact ⟨_, rfl⟩
        | ended => exact absurd hflow nofun
      exact List.ne_nil_of_mem (List.mem_filterMap.mpr ⟨q, hq, ht⟩)
    · obtain ⟨q, hq, hdue⟩ := List.mem_filterMap.mp ht
      have hwaits := h q hq
      cases q with
      | calling => exact Option.some.inj hdue ▸ hwaits
      | awaiting => exact Option.some.inj hdue ▸ hwaits
      | _ => exact absurd hdue nofun
  | first _ _ ih => exact ih
  | @join branches _ hlive ih =>
    rw [Activity.dues, duesAll_eq_flatMap]
    refine ⟨?_, fun t ht => ?_⟩
    · obtain ⟨a, ha, hflow⟩ := hlive
      obtain ⟨t, ht⟩ := List.exists_mem_of_ne_nil _ (ih a ha hflow).1
      exact List.ne_nil_of_mem (List.mem_flatMap.mpr ⟨a, ha, ht⟩)
    · obtain ⟨a, ha, ht⟩ := List.mem_flatMap.mp ht
      cases hflow : a.flow? with
      | none => exact (ih a ha hflow).2 t ht
      | some flow =>
        -- what has ended is not due
        rw [eq_ended_of_flow? hflow] at ht
        exact absurd ht List.not_mem_nil
  | within _ _ _ _ _ ih => exact ih

end Activity

/-! ### Ticks -/

namespace Machine

/-- The clock never passes an instant at which something happens. -/
theorem nextInstant_le (env : Environment) {a : Activity} (w : World) {t : Instant}
    (ht : t ∈ a.dues) : nextInstant env a w ≤ t := by
  cases hmin : a.dues.min? with
  | none => exact absurd ht (List.min?_eq_none_iff.mp hmin ▸ List.not_mem_nil)
  | some u =>
    have hle : u ≤ t := (List.min?_eq_some_iff.mp hmin).2 t ht
    unfold nextInstant
    rw [a.due_eq, hmin]
    cases (if w.cancelled = true then none else env.cancellation.time) with
    | none => exact hle
    | some v => exact Nat.le_trans (Nat.min_le_left u v) hle

/-- If the caller does not interfere the clock moves to an instant at which something happens. -/
theorem nextInstant_mem {a : Activity} {w : World}
    (hcaller : w.cancelled = true ∨ env.cancellation.time = none) (hdues : a.dues ≠ []) :
    nextInstant env a w ∈ a.dues := by
  have hnone : (if w.cancelled = true then none else env.cancellation.time) = none := by
    rcases hcaller with h | h
    · exact if_pos h
    · rw [h]
      exact ite_self _
  cases hmin : a.dues.min? with
  | none => exact absurd (List.min?_eq_none_iff.mp hmin) hdues
  | some u =>
    have hmem : u ∈ a.dues := (List.min?_eq_some_iff.mp hmin).1
    unfold nextInstant
    rw [a.due_eq, hmin, hnone]
    exact hmem

/-- One move of a run with the clock that it has: the caller cancels when it is time, and the clock
moves when everything waits, to the instant at which something happens first. -/
inductive Tick (env : Environment) : Machine → Machine → Prop
  | act {a a' : Activity} {w w' : World} (ha : Activity.Move env a w a' w') :
      Tick env ⟨a, w⟩ ⟨a', w'⟩
  | turn (a : Activity) (w : World) : Tick env ⟨a, w⟩ ⟨a, w.nextRound⟩
  | cancel (a : Activity) (w : World) : Tick env ⟨a, w⟩ ⟨a, w.cancelOnTime env⟩
  | wait {a : Activity} {w : World} (h : a.Waits w.halted w.now) :
      Tick env ⟨a, w⟩ ⟨a, { w with now := nextInstant env a w }⟩

/-- A sequence of ticks. -/
def Ticks (env : Environment) : Machine → Machine → Prop := ReflTransGen (Tick env)

theorem Tick.move {m m' : Machine} (h : Tick env m m') : Move env m m' := by
  cases h with
  | act ha => exact .act ha
  | turn a w => exact .turn a w
  | cancel a w => exact .cancel a w _
  | wait => exact .wait _ _ _

theorem Ticks.moves {m m' : Machine} (h : Ticks env m m') : Moves env m m' :=
  h.lift id fun _ _ => Tick.move

/-- **What every tick keeps holds after every run.** -/
theorem Ticks.keep (I : Machine → Prop) {m m' : Machine} (h : Ticks env m m')
    (hI : ∀ {m m' : Machine}, Tick env m m' → I m → I m') (hm : I m) : I m' := by
  induction h with
  | refl => exact hm
  | tail _ htick ih => exact hI htick ih

theorem Ticks.act {a a' : Activity} {w w' : World} (h : Activity.Moves env (a, w) (a', w')) :
    Ticks env ⟨a, w⟩ ⟨a', w'⟩ :=
  ReflTransGen.lift (fun x : Activity.Progress => (⟨x.1, x.2⟩ : Machine))
    (fun _ _ => Tick.act) _ _ h

/-- The clock moves only if everything waits, and then to the next instant. -/
theorem advance_cases {before : World} {m : Machine}
    (hsettled : Activity.Settled before (m.activity, m.world)) (hlive : m.activity.flow? = none) :
    advance env before m = m ∨ (m.activity.Waits m.world.halted m.world.now ∧
      advance env before m
        = ⟨m.activity, { m.world with now := nextInstant env m.activity m.world }⟩) := by
  obtain ⟨hleads, hrests⟩ := hsettled
  unfold advance
  split
  · exact .inl rfl
  · next hagain =>
    rw [Bool.or_eq_true, Bool.and_eq_true, not_or, not_and, Bool.not_eq_true] at hagain
    obtain ⟨hyielded, hhalted⟩ := hagain
    have hsame : m.world.halted = before.halted := by
      refine Bool.eq_iff_iff.mpr ⟨fun h => ?_, hleads.halted⟩
      simpa using hhalted h
    have hwaits := hrests ⟨hyielded, hsame⟩ hlive
    rw [← hsame, ← hleads.now] at hwaits
    exact .inr ⟨hwaits, rfl⟩

/-- **In a round no time passes**, until everything waits and the clock moves. -/
theorem round_cases (env : Environment) (m : Machine) : ∃ m', Ticks env m m' ∧
    m'.world.now = m.world.now ∧ (m.round env = m' ∨
      (m'.activity.Waits m'.world.halted m'.world.now ∧
        m.round env = ⟨m'.activity, { m'.world with
          now := nextInstant env m'.activity m'.world }⟩)) := by
  obtain ⟨a, w⟩ := m
  -- the round is counted, the caller may cancel, and all parts are polled
  have hturn : Ticks env ⟨a, w⟩ ⟨a, w.nextRound⟩ := .single (.turn a w)
  have hcancel : Ticks env ⟨a, w.nextRound⟩ ⟨a, World.cancelOnTime env w.nextRound⟩ :=
    .single (.cancel a _)
  have hpoll := (hturn.trans hcancel).trans (Ticks.act (Activity.poll_moves a _))
  have hsettled : Activity.Settled _ (Activity.poll env a (World.cancelOnTime env w.nextRound)) :=
    Activity.poll_settled a _
  have hnow : (World.cancelOnTime env w.nextRound).now = w.now := now_cancelIf _ _
  rcases hp : Activity.poll env a (World.cancelOnTime env w.nextRound) with ⟨a', w'⟩
  rw [hp] at hpoll hsettled
  refine ⟨⟨a', w'⟩, hpoll, hsettled.1.now.trans hnow, ?_⟩
  simp only [round, hp]
  cases a' with
  | ended flow => exact .inl rfl
  | _ => exact advance_cases hsettled rfl

/-- **A round is a sequence of ticks.** -/
theorem round_ticks (m : Machine) : Ticks env m (m.round env) := by
  obtain ⟨m', hticks, -, hround | ⟨hwaits, hround⟩⟩ := round_cases env m
  · exact hround ▸ hticks
  · rw [hround]
    exact hticks.tail (.wait hwaits)

/-- **A run goes through ticks.** -/
theorem after_ticks (n : ℕ) : ∀ m : Machine, Ticks env m (m.after env n) := by
  induction n with
  | zero => exact fun m => .refl
  | succ n ih =>
    intro m
    unfold after
    split
    · exact .refl
    · exact (round_ticks m).trans (ih _)

/-- A run that has ended stays what it is. -/
theorem after_ended (n : ℕ) {m : Machine} (hm : m.activity.flow? ≠ none) : m.after env n = m := by
  cases n with
  | zero => rfl
  | succ n =>
    obtain ⟨a, w⟩ := m
    cases a with
    | ended => rfl
    | _ => exact absurd rfl hm

/-- A run that has not ended goes on with a round. -/
theorem after_live (n : ℕ) {m : Machine} (hm : m.activity.flow? = none) :
    m.after env (n + 1) = (m.round env).after env n := by
  obtain ⟨a, w⟩ := m
  cases a with
  | ended => exact absurd hm nofun
  | _ => rfl

/-- Rounds follow rounds. -/
theorem after_add (n k : ℕ) : ∀ m : Machine, m.after env (n + k) = (m.after env n).after env k := by
  induction n with
  | zero => exact fun m => by rw [Nat.zero_add]; rfl
  | succ n ih =>
    intro m
    cases hm : m.activity.flow? with
    | none => rw [Nat.succ_add, after_live _ hm, after_live _ hm, ih]
    | some flow =>
      have hended : m.activity.flow? ≠ none := by rw [hm]; exact nofun
      rw [after_ended _ hended, after_ended _ hended, after_ended _ hended]

end Machine

/-- What a run of a program comes to, with the clock that it has. -/
def Program.Runs (env : Environment) (p : Program) : Machine → Prop :=
  Machine.Ticks env (Machine.start env p)

theorem Program.Runs.reaches {p : Program} {m : Machine} (h : p.Runs env m) : p.Reaches env m :=
  Machine.Ticks.moves h

theorem Program.runs_after (env : Environment) (p : Program) (n : ℕ) :
    p.Runs env (Machine.after env n (Machine.start env p)) := Machine.after_ticks n _

end Lightshow
