import Lightshow.Proofs.Program.Tree
import Lightshow.Run.Activity

/-!
# What is planned

Before it begins the activity of a step is put together from the pauses, the transitions and the
loops of the tree, and from nothing else: nothing sleeps, no device is being served and no loop
has been entered.  This is said once, and what holds of all activities that have not begun follows
by induction on how they are put together.

## Main definitions

* `Order.arrange`, `Step.around` — the two layers of the activity of a composite.
* `Activity.Planned` — nothing of an activity is done, and it belongs to certain steps.

## Main results

* `Step.getElem?_activities` — the activities of the steps of a composite, one by one.
* `Step.activity_planned` — **the activity of a step is planned for the steps of its tree.**
-/

namespace Lightshow

/-! ### Composites -/

/-- The steps of a composite in one iteration. -/
def Order.arrange (order : Order) (steps : List Activity) : Activity :=
  match order with
  | .serial => Activity.chain steps
  | .parallel => Activity.join steps

/-- The activity of a composite whose steps are done in a certain way in each iteration. -/
def Step.around (scope : PauseScope) (path : Path) (order : Order) (loop : Loop) (pause : Pause)
    (once : Activity) : Activity :=
  match scope with
  | .perIteration => .enter ⟨path, order, loop.mode⟩ none (.seq (.pause path pause.before)
      (.seq once (.seq (.pause path pause.after) (.pause path loop.pause)))) none
  | .aroundLoop => .enter ⟨path, order, loop.mode⟩ pause.before
      (.seq once (.pause path loop.pause)) pause.after

namespace Step

theorem activity_composite (scope : PauseScope) (path : Path) (order : Order)
    (steps : List Step) (loop : Loop) (pause : Pause) :
    activity scope path (.composite order steps loop pause)
      = around scope path order loop pause (order.arrange (activities scope path 0 steps)) := by
  cases scope <;> cases order <;> rfl

/-- Each step of a composite has its own activity. -/
theorem getElem?_activities (scope : PauseScope) (path : Path) :
    ∀ (steps : List Step) (index i : ℕ), (activities scope path index steps)[i]?
      = steps[i]?.map fun s => s.activity scope (.child path (index + i) s.kind)
  | [], index, i => by
    rw [activities]
    rfl
  | s :: rest, index, 0 => by
    rw [activities]
    rfl
  | s :: rest, index, i + 1 => by
    rw [activities, List.getElem?_cons_succ, List.getElem?_cons_succ,
      getElem?_activities scope path rest, Nat.add_right_comm]
    rfl

/-- Where there is an activity there is the step that it is the activity of. -/
theorem exists_of_getElem?_activities {scope : PauseScope} {path : Path} {steps : List Step}
    {index i : ℕ} {a : Activity} (h : (activities scope path index steps)[i]? = some a) :
    ∃ s, steps[i]? = some s ∧ a = s.activity scope (.child path (index + i) s.kind) := by
  rw [getElem?_activities] at h
  obtain ⟨s, hs, rfl⟩ := Option.map_eq_some_iff.mp h
  exact ⟨s, hs, rfl⟩

theorem exists_of_mem_activities {scope : PauseScope} {path : Path} {steps : List Step}
    {index : ℕ} {a : Activity} (h : a ∈ activities scope path index steps) :
    ∃ (i : ℕ) (s : Step),
      steps[i]? = some s ∧ a = s.activity scope (.child path (index + i) s.kind) := by
  obtain ⟨i, hi⟩ := List.mem_iff_getElem?.mp h
  exact ⟨i, exists_of_getElem?_activities hi⟩

end Step

/-! ### Plans -/

variable {N : Path × Step → Prop}

/-- Nothing of an activity is done yet, and its parts belong to certain steps. -/
inductive Activity.Planned (N : Path × Step → Prop) : Activity → Prop
  | nothing : Planned N (.ended .completed)
  | pause {path : Path} {s : Step} (hs : N (path, s)) {o : Option TimeOption}
      (ho : ∀ x ∈ o, s.Pauses x) : Planned N (.pause path o)
  | dispatch {path : Path} {t : Transition} (h : N (path, .transition t)) :
      Planned N (.dispatch path t)
  | seq {first rest : Activity} (hfirst : Planned N first) (hrest : Planned N rest) :
      Planned N (.seq first rest)
  | join {branches : List Activity} (h : ∀ a ∈ branches, Planned N a) : Planned N (.join branches)
  | enter {path : Path} {order : Order} {steps : List Step} {loop : Loop} {pause : Pause}
      (hs : N (path, .composite order steps loop pause)) {before after : Option TimeOption}
      (hpauses : ∀ o ∈ [before, after], ∀ x ∈ o, (Step.composite order steps loop pause).Pauses x)
      {body : Activity} (hbody : Planned N body) :
      Planned N (.enter ⟨path, order, loop.mode⟩ before body after)

namespace Activity.Planned

theorem arrange {as : List Activity} (h : ∀ a ∈ as, Planned N a) (order : Order) :
    Planned N (order.arrange as) := by
  cases order with
  | serial =>
    show Planned N (chain as)
    induction as with
    | nil => exact .nothing
    | cons a as ih =>
      exact .seq (h a List.mem_cons_self) (ih fun b hb => h b (List.mem_cons_of_mem a hb))
  | parallel => exact .join h

/-- The pauses of a composite are made within its iterations or around its loop. -/
theorem around {path : Path} {order : Order} {steps : List Step} {loop : Loop} {pause : Pause}
    (hs : N (path, .composite order steps loop pause)) {once : Activity} (h : Planned N once)
    (scope : PauseScope) : Planned N (Step.around scope path order loop pause once) := by
  have hloop : Planned N (.pause path loop.pause) := .pause hs fun _ hx => .inr (.inr hx)
  cases scope with
  | perIteration =>
    refine .enter hs (fun o ho x hx => ?_) (.seq (.pause hs fun _ => .inl)
      (.seq h (.seq (.pause hs fun _ hx => .inr (.inl hx)) hloop)))
    -- no pauses are made around the loop
    simp only [List.mem_cons, List.not_mem_nil, or_false, or_self] at ho
    subst ho
    cases hx
  | aroundLoop =>
    refine .enter hs (fun o ho x hx => ?_) (.seq h hloop)
    simp only [List.mem_cons, List.not_mem_nil, or_false] at ho
    rcases ho with rfl | rfl
    · exact .inl hx
    · exact .inr (.inl hx)

end Activity.Planned

/-- **The activity of a step is planned for the steps of its tree.** -/
theorem Step.activity_planned (scope : PauseScope) (s : Step) (path : Path) :
    (s.activity scope path).Planned (· ∈ s.stepsAt path) := by
  suffices h : ∀ {N : Path × Step → Prop}, (∀ x ∈ s.stepsAt path, N x) →
      (s.activity scope path).Planned N from h fun _ => id
  induction s using Step.induction generalizing path with
  | transition t =>
    intro N h
    have hself : N (path, .transition t) := h _ (self_mem_stepsAt path _)
    rw [activity]
    exact .seq (.pause hself fun _ => .inl) (.seq (.dispatch hself) (.pause hself fun _ => .inr))
  | composite order steps loop pause ih =>
    intro N h
    rw [stepsAt] at h
    rw [activity_composite]
    refine .around (h _ List.mem_cons_self) (.arrange (fun a ha => ?_) order) scope
    obtain ⟨i, s, hs, rfl⟩ := exists_of_mem_activities ha
    exact ih s (List.mem_of_getElem? hs) _ fun x hx =>
      h x (List.mem_cons_of_mem _ (mem_stepsFrom.mpr ⟨i, s, hs, hx⟩))

end Lightshow
