import Lightshow.Proofs.Run.Operation
import Lightshow.Proofs.Run.Planned
import Lightshow.Proofs.Validity.Step

/-!
# What an activity uses

The pauses and the loops of an activity are those of the step that it began as: no move brings
new ones.  So what is true of all pauses and of all loop modes of a step is true of them whenever
one of them is used, in whatever iteration and however deep in the tree.  This is said once, for
any properties of time options and of modes.

Two things in a run come from nowhere else: the requests for random numbers, and the reasons for
which loops cannot be entered.  They are the *needs* of an activity.

## Main definitions

* `Step.Uses`, `Activity.Uses` — all pauses and all loops have certain properties.
* `TimeOption.draws`, `LoopMode.draws` — the numbers that are asked for.
* `Entry.need?` — the entries that tell of needs, and `Entry.Met`, where they come from.
* `Machine.Supplied` — what a run needs comes from certain pauses and loops.

## Main results

* `Activity.Move.uses` — no move brings new pauses or loops.
* `Activity.Move.met` — the needs of a move come from pauses and loops of the activity.
* `Program.Reaches.supplied` — the needs of a run come from pauses and loops of the program.
-/

namespace Lightshow

open World

variable {env : Environment} {P : TimeOption → Prop} {Q : LoopMode → Prop}

/-! ### Steps and activities -/

/-- The pauses of a step on its own have a property, and so has the mode of its loop. -/
def Step.Uses (P : TimeOption → Prop) (Q : LoopMode → Prop) : Step → Prop
  | .transition t => (∀ o ∈ t.pause.before, P o) ∧ ∀ o ∈ t.pause.after, P o
  | .composite _ _ loop pause =>
    Q loop.mode ∧ (∀ o ∈ loop.pause, P o) ∧ (∀ o ∈ pause.before, P o) ∧ ∀ o ∈ pause.after, P o

/-- What is true of all modes is true of the loops of a step. -/
theorem Step.uses_of_forall (hQ : ∀ mode, Q mode) (s : Step) : s.Uses (fun _ => True) Q := by
  cases s with
  | transition t => exact ⟨fun _ _ => trivial, fun _ _ => trivial⟩
  | composite => exact ⟨hQ _, fun _ _ => trivial, fun _ _ => trivial, fun _ _ => trivial⟩

/-- What is true of the pauses of a step is true of each of them. -/
theorem Step.Uses.pauses {s : Step} (h : s.Uses P Q) {o : TimeOption} (ho : s.Pauses o) : P o := by
  cases s with
  | transition t => exact ho.elim (h.1 o) (h.2 o)
  | composite =>
    obtain ⟨-, hloop, hbefore, hafter⟩ := h
    exact ho.elim (hbefore o) fun ho => ho.elim (hafter o) (hloop o)

/-- A loop of a mode may get a bound when it is entered. -/
def LoopMode.Yields (mode : LoopMode) (bound : Bound) : Prop :=
  ∃ zone started wall times, mode.bound zone started wall times = .ok bound

/-- The pauses of an activity have a property, and so have the modes of its loops. -/
inductive Activity.Uses (P : TimeOption → Prop) (Q : LoopMode → Prop) : Activity → Prop
  | ended (flow : Flow) : Uses P Q (.ended flow)
  | pause (path : Path) {o : Option TimeOption} (h : ∀ x ∈ o, P x) : Uses P Q (.pause path o)
  | sleeping (wake : Instant) : Uses P Q (.sleeping wake)
  | dispatch (path : Path) (t : Transition) : Uses P Q (.dispatch path t)
  | applying (queues : List Queue) : Uses P Q (.applying queues)
  | seq {first rest : Activity} (hfirst : Uses P Q first) (hrest : Uses P Q rest) :
      Uses P Q (.seq first rest)
  | join {branches : List Activity} (h : ∀ a ∈ branches, Uses P Q a) : Uses P Q (.join branches)
  | enter {block : Block} {before after : Option TimeOption} {body : Activity}
      (hmode : Q block.mode) (hbefore : ∀ x ∈ before, P x) (hafter : ∀ x ∈ after, P x)
      (hbody : Uses P Q body) : Uses P Q (.enter block before body after)
  | rounds {block : Block} {bound : Bound} (completed : ℕ) {body : Activity}
      (hmode : Q block.mode) (hbound : block.mode.Yields bound) (hbody : Uses P Q body) :
      Uses P Q (.rounds block bound completed body)
  | within {block : Block} {bound : Bound} (completed : ℕ) {body current : Activity}
      (hmode : Q block.mode) (hbound : block.mode.Yields bound) (hbody : Uses P Q body)
      (hcurrent : Uses P Q current) : Uses P Q (.within block bound completed body current)

namespace Activity

/-- The bound of a loop that is entered comes from its mode. -/
theorem yields_of_enterLoop {mode : LoopMode} {bound : Bound} {w w' : World}
    (h : w.enterLoop env mode = (.ok bound, w')) : mode.Yields bound := by
  obtain ⟨draws, times, -, heq⟩ := enterLoop_eq env mode w
  rw [heq] at h
  exact ⟨_, _, _, _, (Prod.mk.inj h).1⟩

/-- **No move brings new pauses or loops.** -/
theorem Move.uses {a a' : Activity} {w w' : World} (h : Move env a w a' w') (ha : Uses P Q a) :
    Uses P Q a' := by
  induction h with
  | pause =>
    exact beginPause_activity _ _ _ _ (fun _ => .ended _) (fun _ => .ended _) fun _ => .sleeping
  | wake => exact pollSleep_activity _ _ (fun _ => .ended _) (fun _ => .ended _) fun _ => .sleeping
  | dispatch => exact .applying _
  | serve => exact .applying _
  | first _ ih =>
    cases ha with
    | seq hfirst hrest => exact .seq (ih hfirst) hrest
  | second =>
    cases ha with
    | seq _ hrest => exact hrest
  | branch before after _ ih =>
    cases ha with
    | join h => exact .join (forall_mem_replace h ih)
  | enter he =>
    cases ha with
    | enter hmode hbefore hafter hbody =>
      have hloop : Uses P Q (.rounds _ _ 0 _) := .rounds 0 hmode (yields_of_enterLoop he) hbody
      exact .seq (.pause _ hbefore) (.seq hloop (.pause _ hafter))
  | begin =>
    cases ha with
    | rounds _ hmode hbound hbody => exact .within _ hmode hbound hbody hbody
  | inside _ ih =>
    cases ha with
    | within _ hmode hbound hbody hcurrent => exact .within _ hmode hbound hbody (ih hcurrent)
  | again =>
    cases ha with
    | within _ hmode hbound hbody _ => exact .rounds _ hmode hbound hbody
  | _ => exact .ended _

/-- What is true of the pauses and loops of some steps is true of what is planned for them. -/
theorem Planned.uses {N : Path × Step → Prop} {a : Activity} (h : a.Planned N)
    (hN : ∀ x, N x → x.2.Uses P Q) : a.Uses P Q := by
  induction h with
  | nothing => exact .ended _
  | pause hs ho => exact .pause _ fun x hx => (hN _ hs).pauses (ho x hx)
  | dispatch => exact .dispatch _ _
  | seq _ _ hfirst hrest => exact .seq hfirst hrest
  | join _ ih => exact .join ih
  | enter hs hpauses _ hbody =>
    refine .enter (hN _ hs).1 (fun x hx => ?_) (fun x hx => ?_) hbody
    · exact (hN _ hs).pauses (hpauses _ List.mem_cons_self x hx)
    · exact (hN _ hs).pauses (hpauses _ (List.mem_cons_of_mem _ List.mem_cons_self) x hx)

end Activity

/-- What is true of the pauses and loops of all steps of a tree is true of its activity. -/
theorem Step.activity_uses (scope : PauseScope) (s : Step) (path : Path)
    (h : ∀ n ∈ s.nodes, n.Uses P Q) : (Step.activity scope path s).Uses P Q :=
  (s.activity_planned scope path).uses fun _ hx => h _ (mem_nodes_of_mem_stepsAt hx)

/-! ### Needs -/

/-- The number that is asked for when a time option is used. -/
def TimeOption.draws (o : TimeOption) : List Draw :=
  (o.jitter.map fun j => Draw.real j.min j.max).toList

/-- The number that is asked for when a loop is entered. -/
def LoopMode.draws (mode : LoopMode) : List Draw :=
  (mode.draw?.map fun range => Draw.whole range.1 range.2).toList

/-- An entry that tells of a request for a number, or of a loop that cannot be entered. -/
def Entry.need? : Entry → Option Entry
  | .drew d => some (.drew d)
  | .barred path cause => some (.barred path cause)
  | _ => none

/-- A need comes from a time option or a mode with certain properties. -/
def Entry.Met (P : TimeOption → Prop) (Q : LoopMode → Prop) : Entry → Prop
  | .drew d => (∃ o, P o ∧ d ∈ o.draws) ∨ ∃ mode, Q mode ∧ d ∈ mode.draws
  | .barred _ cause => ∃ mode zone started wall times, Q mode ∧
      mode.bound zone started wall times = .error cause
  | _ => True

namespace World

/-- What is asked for when a time option is used. -/
theorem drawDuration_world (env : Environment) (o : TimeOption) (w : World) :
    (w.drawDuration env o).2 = w.notes (o.draws.map Entry.drew) := by
  unfold drawDuration TimeOption.draws
  cases o.jitter with
  | none => rfl
  | some j => rfl

/-- What is asked for when a loop is entered. -/
theorem enterLoop_world (env : Environment) (mode : LoopMode) (w : World) :
    (w.enterLoop env mode).2 = w.notes (mode.draws.map Entry.drew) := by
  unfold enterLoop LoopMode.draws
  cases mode.draw? with
  | none => rfl
  | some range => rfl

theorem see_need_draws (ds : List Draw) (w : World) :
    (w.notes (ds.map Entry.drew)).see Entry.need? = w.see Entry.need? ++ ds.map Entry.drew := by
  rw [see_notes, List.filterMap_map]
  exact congrArg _ (List.filterMap_eq_map (f := Entry.drew) ▸ rfl)

end World

/-- Nothing new is needed. -/
theorem met_of_see {w w' : World} (hsee : w'.see Entry.need? = w.see Entry.need?) :
    ∀ e ∈ w'.see Entry.need?, e ∈ w.see Entry.need? ∨ e.Met P Q :=
  fun _ he => .inl (hsee ▸ he)

namespace Activity

/-- What is needed for a pause. -/
theorem see_need_beginPause (path : Path) (o : TimeOption) (w : World) :
    (beginPause env path (some o) w).2.see Entry.need?
      = w.see Entry.need? ++ o.draws.map Entry.drew := by
  have hworld := drawDuration_world env o w
  rcases hdraw : w.drawDuration env o with ⟨span, v⟩
  rw [hdraw] at hworld
  obtain rfl : v = w.notes (o.draws.map Entry.drew) := hworld
  simp only [beginPause, hdraw]
  rw [beginSleep_world, see_emit_none _ _ rfl rfl, see_need_draws]

/-- **The needs of a move come from pauses and loops of the activity.** -/
theorem Move.met {a a' : Activity} {w w' : World} (h : Move env a w a' w') (ha : Uses P Q a) :
    ∀ e ∈ w'.see Entry.need?, e ∈ w.see Entry.need? ∨ e.Met P Q := by
  induction h with
  | @pause path o w =>
    cases ha with
    | pause _ ho =>
      intro e he
      rw [see_need_beginPause] at he
      refine (List.mem_append.mp he).imp_right fun he => ?_
      obtain ⟨d, hd, rfl⟩ := List.mem_map.mp he
      exact .inl ⟨o, ho o rfl, hd⟩
  | dispatch =>
    exact met_of_see (see_announce_none rfl (fun _ => rfl) (fun _ => rfl) (fun _ _ => rfl)
      (fun _ _ => rfl) _ _)
  | serve before after hq =>
    exact met_of_see (hq.see_none rfl (fun _ => rfl) (fun _ => rfl) (fun _ _ => rfl)
      (fun _ _ => rfl) (fun _ => rfl) fun _ => rfl)
  | first _ ih =>
    cases ha with
    | seq hfirst _ => exact ih hfirst
  | branch before after _ ih =>
    cases ha with
    | join h => exact ih (h _ (List.mem_append_right _ List.mem_cons_self))
  | inside _ ih =>
    cases ha with
    | within _ _ _ _ hcurrent => exact ih hcurrent
  | @bar block before after body cause w w' he =>
    cases ha with
    | enter hmode _ _ _ =>
      have hworld := enterLoop_world env block.mode w
      obtain ⟨draws, times, -, heq⟩ := enterLoop_eq env block.mode w
      rw [he] at hworld heq
      obtain rfl : w' = w.notes (block.mode.draws.map Entry.drew) := hworld
      intro e hmem
      rw [see_fail_none _ rfl, see_note, see_need_draws] at hmem
      rcases List.mem_append.mp hmem with hmem | hmem
      · refine (List.mem_append.mp hmem).imp_right fun hmem => ?_
        obtain ⟨d, hd, rfl⟩ := List.mem_map.mp hmem
        exact .inr ⟨_, hmode, hd⟩
      · -- the loop is barred for what its mode came to
        obtain rfl := List.mem_singleton.mp hmem
        exact .inr ⟨_, _, _, _, _, hmode, (Prod.mk.inj heq).1.symm⟩
  | @enter block before after body bound w w' he =>
    cases ha with
    | enter hmode _ _ _ =>
      have hworld := enterLoop_world env block.mode w
      rw [he] at hworld
      obtain rfl : w' = w.notes (block.mode.draws.map Entry.drew) := hworld
      intro e hmem
      rw [see_note_none _ rfl, see_need_draws] at hmem
      refine (List.mem_append.mp hmem).imp_right fun hmem => ?_
      obtain ⟨d, hd, rfl⟩ := List.mem_map.mp hmem
      exact .inr ⟨_, hmode, hd⟩
  | expire => exact met_of_see (see_note_none _ rfl)
  | begin => exact met_of_see (see_emit_none _ _ rfl rfl)
  | _ => exact met_of_see rfl

end Activity

/-! ### Runs -/

/-- What is left of a run, and what it has needed so far, comes from certain pauses and loops. -/
structure Machine.Supplied (P : TimeOption → Prop) (Q : LoopMode → Prop) (m : Machine) : Prop where
  uses : m.activity.Uses P Q
  met : ∀ e ∈ m.world.see Entry.need?, e.Met P Q

theorem Machine.Moves.supplied {m m' : Machine} (h : Moves env m m') (hm : m.Supplied P Q) :
    m'.Supplied P Q := by
  refine h.keep (Supplied P Q) (fun hmove hm => ?_) hm
  cases hmove with
  | act ha => exact ⟨ha.uses hm.uses, fun e he => (ha.met hm.uses e he).elim (hm.met e) id⟩
  | wait a w t => exact ⟨hm.uses, hm.met⟩
  | turn a w => exact ⟨hm.uses, hm.met⟩
  | cancel a w due =>
    refine ⟨hm.uses, ?_⟩
    show ∀ e ∈ (w.cancelIf due).see Entry.need?, e.Met P Q
    rw [see_cancelIf w rfl]
    exact hm.met

/-- **What a run needs comes from pauses and loops of its program.** -/
theorem Program.Reaches.supplied {p : Program} {m : Machine} (h : p.Reaches env m)
    (hp : ∀ n ∈ p.step.nodes, n.Uses P Q) : m.Supplied P Q := by
  have hneeds : ∀ e ∈ (p.firstWorld env).see Entry.need?, e.Met P Q := by
    rw [see_firstWorld rfl]
    exact fun e he => absurd he List.not_mem_nil
  refine Machine.Moves.supplied h ?_
  by_cases hf : p.step.faults = []
  · rw [start_of_valid hf]
    exact ⟨Step.activity_uses env.scope p.step _ hp, hneeds⟩
  · rw [start_of_faults hf]
    exact ⟨.ended _, hneeds⟩

end Lightshow
