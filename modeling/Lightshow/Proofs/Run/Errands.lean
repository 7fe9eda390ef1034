import Lightshow.Proofs.Run.Owing
import Lightshow.Proofs.Written.Paths

/-!
# What calls are made for

A call is made for a transition of the program: it takes the state of the transition to one of its
devices.  When it is made, and how often before, is left to the run; the rest is its *errand*.
The errands of a transition are known as soon as it is dispatched.  So once a run has done all that
it had to do, the errands of its calls are those of the transitions that it dispatched, each as
often as the device was named.

The ledger of a run counts calls by their places and devices.  The errand can be told from these,
since at each place there is one transition only.

## Main definitions

* `Errand`, `Call.errand` — what a call is made for.
* `Environment.errands` — what is to be done for a transition.

## Main results

* `Program.Reaches.errands` — **a run that is done has done the errands of its transitions.**
-/

namespace Lightshow

open World

variable {env : Environment}

/-! ### Errands -/

/-- What a call is made for, whenever it is made. -/
structure Errand where
  path : Path
  device : Device
  state : DeviceState
  /-- Whether an acknowledgement is waited for. -/
  wait : Bool
  deriving DecidableEq, Repr

/-- What a call is made for. -/
def Call.errand (c : Call) : Errand := ⟨c.path, c.device, c.state, c.wait⟩

/-- The call for an errand that is made first of all. -/
def Errand.call (e : Errand) : Call := ⟨0, e.path, e.device, e.state, e.wait, 0⟩

/-- What is to be done for a transition at a path. -/
def Environment.errands (env : Environment) (d : Path × Transition) : List Errand :=
  (d.2.named env.resolve).map fun device => ⟨d.1, device, d.2.state, d.2.wait⟩

/-- A call belongs to a transition of a program. -/
def Call.Belongs (p : Program) (c : Call) : Prop :=
  ∃ t, (c.path, t) ∈ p.transitions ∧ c.state = t.state ∧ c.wait = t.wait

/-- The call of a queue, or its next one, belongs to a transition of a program. -/
def Queue.Belongs (p : Program) : Queue → Prop
  | .ready c _ | .calling c _ _ _ | .awaiting c _ _ => c.Belongs p
  | .ended _ => True

/-- A queue goes on for the same transition, and so do its calls. -/
theorem Queue.Move.belongs {p : Program} {q q' : Queue} {w w' : World}
    (h : Queue.Move env q w q' w') (hq : q.Belongs p) :
    q'.Belongs p ∧ ∀ c ∈ w'.see Entry.call?, c ∈ w.see Entry.call? ∨ c.Belongs p := by
  have hnext : ∀ (call : Call) (left : ℕ) (flow : Option Flow), call.Belongs p →
      (next call left flow).Belongs p := by
    intro call left flow hcall
    cases flow with
    | none => exact hcall
    | some flow => trivial
  have hsettle : ∀ (call : Call) (result : Except DeviceError Unit) (v : World),
      (settle env call result v).2.see Entry.call? = v.see Entry.call? := by
    intro call result v
    rw [see_settle rfl]
    simp [Entry.call?]
  cases h with
  | finish => exact ⟨trivial, fun c hc => .inl hc⟩
  | halt => exact ⟨trivial, fun c hc => .inl hc⟩
  | @call call c left w hgoing hc =>
    subst hc
    refine ⟨hq, fun d hd => ?_⟩
    rw [World.see_call _ _ rfl] at hd
    refine (List.mem_append.mp hd).imp_right fun hd => ?_
    rw [List.mem_singleton.mp hd]
    exact hq
  | await =>
    refine ⟨hq, fun c hc => .inl ?_⟩
    rwa [see_note_none _ rfl] at hc
  | answer =>
    refine ⟨hnext _ _ _ hq, fun c hc => .inl ?_⟩
    rwa [hsettle, see_note_none _ rfl] at hc
  | acknowledge =>
    refine ⟨hnext _ _ _ hq, fun c hc => .inl ?_⟩
    rwa [hsettle] at hc

/-- The calls of a run so far, and those to come of what it serves, belong to transitions. -/
structure Machine.Belongs (p : Program) (m : Machine) : Prop where
  calls : ∀ c ∈ m.world.see Entry.call?, c.Belongs p
  queues : ∀ q ∈ m.activity.serving, q.Belongs p

namespace Machine

variable {p : Program}

theorem Belongs.of_world {a : Activity} {w w' : World} (h : Belongs p ⟨a, w⟩)
    (hsee : w'.see Entry.call? = w.see Entry.call?) : Belongs p ⟨a, w'⟩ where
  calls := by
    show ∀ c ∈ w'.see Entry.call?, c.Belongs p
    rw [hsee]
    exact h.calls
  queues := h.queues

/-- A move of an activity that dispatches transitions of the program only. -/
theorem Belongs.act {a a' : Activity} {w w' : World} {places : List Path} (h : Belongs p ⟨a, w⟩)
    (hserves : Activity.Serves env places w w' a.serving a'.serving)
    (hdispatched : ∀ d ∈ w'.see Entry.dispatched?, d ∈ p.transitions) : Belongs p ⟨a', w'⟩ := by
  constructor
  · show ∀ c ∈ w'.see Entry.call?, c.Belongs p
    cases hserves with
    | rests hwork _ =>
      rw [see_of_base Entry.call?_work hwork]
      exact h.calls
    | @serves q q' before after hq hx _ =>
      have hmem : q ∈ a.serving := hx ▸ List.mem_append_right _ List.mem_cons_self
      exact fun c hc => ((hq.belongs (h.queues q hmem)).2 c hc).elim (h.calls c) id
    | @begins path t before after _ _ _ _ _ hw' =>
      rw [hw', Activity.see_announce_none rfl (fun _ => rfl) (fun _ => rfl) (fun _ _ => rfl)
        (fun _ _ => rfl)]
      exact h.calls
  · refine hserves.forall h.queues (fun q hmem q' hq => (hq.belongs (h.queues q hmem)).1)
      fun path t hw' q hq => ?_
    -- the transition of queues that begin is dispatched in this move
    have hmem : (path, t) ∈ p.transitions := by
      refine hdispatched _ ?_
      rw [hw', Activity.see_announce_blind rfl (fun _ => rfl) fun _ => rfl]
      exact List.mem_append_right _ List.mem_cons_self
    obtain ⟨d, -, rfl⟩ := List.mem_map.mp hq
    exact ⟨t, hmem, rfl, rfl⟩

end Machine

namespace Program

variable {p : Program} {m : Machine}

/-- The calls of a run belong to transitions of its program. -/
theorem Reaches.belongs (h : p.Reaches env m) : m.Belongs p := by
  induction h with
  | refl =>
    refine ⟨fun c hc => ?_, fun q hq => ?_⟩
    · rw [start_world, see_firstWorld rfl] at hc
      exact absurd hc List.not_mem_nil
    · rw [start_serving] at hq
      exact absurd hq List.not_mem_nil
  | tail hprev hmove ih =>
    have hreaches : p.Reaches env _ := hprev
    have haccounted := Machine.Moves.accounted hprev (start_accounted env p)
    cases hmove with
    | act ha =>
      exact ih.act (ha.serving haccounted.ready hreaches.arranged) (haccounted.act ha).dispatched
    | wait a w t => exact ih.of_world rfl
    | turn a w => exact ih.of_world rfl
    | cancel a w due => exact ih.of_world (see_cancelIf w rfl due)

end Program

/-! ### Transitions and their places -/

mutual

/-- The transitions of a tree are the steps of the tree that are transitions. -/
theorem Step.mem_transitionsAt {x : Path × Transition} : ∀ (s : Step) (path : Path),
    x ∈ s.transitionsAt path ↔ (x.1, .transition x.2) ∈ s.stepsAt path
  | .transition t, path => by
    rw [Step.transitionsAt, Step.stepsAt, List.mem_singleton, List.mem_singleton, Prod.mk.injEq,
      Prod.mk.injEq, Step.transition.injEq]
  | .composite order steps loop pause, path => by
    rw [Step.transitionsAt, Step.stepsAt, List.mem_cons, Step.mem_transitionsFrom steps path 0]
    exact ⟨.inr, fun h => h.resolve_left fun heq => nomatch (Prod.mk.inj heq).2⟩

theorem Step.mem_transitionsFrom {x : Path × Transition} : ∀ (steps : List Step) (path : Path)
    (index : ℕ), x ∈ Step.transitionsFrom path index steps ↔
      (x.1, .transition x.2) ∈ Step.stepsFrom path index steps
  | [], path, index => by
    rw [Step.transitionsFrom, Step.stepsFrom]
    exact iff_of_false List.not_mem_nil List.not_mem_nil
  | s :: rest, path, index => by
    rw [Step.transitionsFrom, Step.stepsFrom, List.mem_append, List.mem_append,
      Step.mem_transitionsAt s, Step.mem_transitionsFrom rest]

end

namespace Program

variable {p : Program} {m : Machine}

/-- A transition of a program can be told from its path. -/
theorem transitions_unique {path : Path} {t t' : Transition} (h : (path, t) ∈ p.transitions)
    (h' : (path, t') ∈ p.transitions) : t = t' := by
  have hsame := p.step.stepsAt_unique p.step.rootPath _ ((Step.mem_transitionsAt _ _).mp h) _
    ((Step.mem_transitionsAt _ _).mp h') rfl
  exact Step.transition.inj (Prod.mk.inj hsame).2

/-- What is done at a place for a device is done for the transition at the place. -/
def errandAt? (p : Program) (x : Path × Device) : Option Errand :=
  (p.transitions.find? (·.1 = x.1)).map fun d => ⟨x.1, x.2, d.2.state, d.2.wait⟩

theorem errandAt?_eq {path : Path} {t : Transition} (h : (path, t) ∈ p.transitions)
    (device : Device) : p.errandAt? (path, device) = some ⟨path, device, t.state, t.wait⟩ := by
  cases hfind : p.transitions.find? (·.1 = path) with
  | none =>
    have hnone := List.find?_eq_none.mp hfind _ h
    exact absurd rfl (of_decide_eq_false (Bool.eq_false_iff.mpr hnone))
  | some d =>
    obtain ⟨path', t'⟩ := d
    obtain rfl : path' = path := by simpa using List.find?_some hfind
    obtain rfl := transitions_unique h (List.mem_of_find?_eq_some hfind)
    simp only [errandAt?, hfind, Option.map_some]

/-! ### What is done -/

/-- The devices of some place among pairs of places and devices. -/
theorem count_at (path : Path) (d : Device) (l : List (Path × Device)) :
    l.count (path, d) = (l.filterMap fun x => if x.1 = path then some x.2 else none).count d := by
  induction l with
  | nil => rfl
  | cons x l ih =>
    obtain ⟨q, e⟩ := x
    rw [List.count_cons, ih, List.filterMap_cons]
    by_cases hq : q = path
    · subst hq
      simp [List.count_cons]
    · simp [hq]

/-- The devices that were named for a place by the transitions dispatched. -/
theorem work_namedAt (w : World) (path : Path) :
    (w.see Entry.work?).flatMap (Entry.namedAt env path)
      = (w.see Entry.dispatched?).flatMap fun d =>
          if d.1 = path then d.2.named env.resolve else [] := by
  rw [see, see]
  induction w.entries with
  | nil => rfl
  | cons e es ih =>
    cases e with
    | called c => exact ih
    | settled c error => exact ih
    | dispatched q t => exact congrArg _ ih
    | _ => exact ih

/-- A run that is done has called the devices that its transitions name, each at the place of the
transition and as often as it was named. -/
theorem Reaches.called (h : p.Reaches env m) (hdone : m.activity.serving = [])
    (hgoing : m.world.halted = false) :
    ((m.world.see Entry.call?).map fun c => (c.path, c.device)).Perm
      ((m.world.see Entry.dispatched?).flatMap fun d =>
        (d.2.named env.resolve).map (Prod.mk d.1)) := by
  rw [List.perm_iff_count]
  rintro ⟨path, d⟩
  have hledger := h.ledger.eq hgoing path d
  rw [hdone, work_callAt, work_namedAt] at hledger
  have hnamed : ∀ x : Path × Transition, ((x.2.named env.resolve).map (Prod.mk x.1)).filterMap
      (fun y => if y.1 = path then some y.2 else none)
        = if x.1 = path then x.2.named env.resolve else [] := by
    intro x
    by_cases hx : x.1 = path
    · rw [List.filterMap_map, if_pos hx]
      exact (List.filterMap_congr fun d _ => if_pos hx).trans List.filterMap_some
    · rw [List.filterMap_map, if_neg hx]
      exact List.filterMap_eq_nil_iff.mpr fun d _ => if_neg hx
  rw [count_at, count_at, List.filterMap_map, List.filterMap_flatMap, funext hnamed]
  exact hledger

/-- **A run that is done has done the errands of the transitions that it dispatched**, each as often
as the device was named. -/
theorem Reaches.errands (h : p.Reaches env m) (hdone : m.activity.serving = [])
    (hgoing : m.world.halted = false) :
    ((m.world.see Entry.call?).map Call.errand).Perm
      ((m.world.see Entry.dispatched?).flatMap env.errands) := by
  have haccounted := Machine.Moves.accounted h (start_accounted env p)
  have hcalls : ((m.world.see Entry.call?).map fun c => (c.path, c.device)).filterMap p.errandAt?
      = (m.world.see Entry.call?).map Call.errand := by
    rw [List.filterMap_map]
    refine List.filterMap_eq_map_iff_forall_eq_some.mpr fun c hc => ?_
    obtain ⟨t, hmem, hstate, hwait⟩ := h.belongs.calls c hc
    refine (errandAt?_eq hmem c.device).trans ?_
    rw [← hstate, ← hwait]
    rfl
  have hdispatched : ((m.world.see Entry.dispatched?).flatMap fun d =>
      (d.2.named env.resolve).map (Prod.mk d.1)).filterMap p.errandAt?
        = (m.world.see Entry.dispatched?).flatMap env.errands := by
    rw [List.filterMap_flatMap]
    refine List.flatMap_congr fun d hd => ?_
    rw [List.filterMap_map]
    exact List.filterMap_eq_map_iff_forall_eq_some.mpr fun device _ =>
      errandAt?_eq (haccounted.dispatched d hd) device
  rw [← hcalls, ← hdispatched]
  exact (h.called hdone hgoing).filterMap _

end Program

end Lightshow
