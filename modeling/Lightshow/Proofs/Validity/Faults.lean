import Lightshow.Proofs.Validity.Step
import Lightshow.Proofs.Written.Paths

/-!
# Which faults are found

A step is looked at under up to five aspects, and each of them is sound or amiss by itself.  Here we
say which of them are told.  `Step.faults` goes through the whole tree and leaves out no step of it,
but two aspects of a step are looked at only if another one is sound: the pause after a step if the
pause before it is, and the pause of a loop if its random range is.  Everything else that is amiss
is told, and nothing is told but what is amiss.

So one round of corrections may not be enough.  A step whose two pauses are both negative is found
fault with for the first of them, and for the second one only when the first has been corrected.

## Main definitions

* `Aspect` — what is looked at by itself in a step.
* `Step.Amiss` — an aspect of a step asks for what cannot be done.
* `Step.ownFaults` — what is found in a step, without the steps below it.

## Main results

* `Step.faultsAt_eq_flatMap` — the faults of a tree are those of its steps, one step after the other.
* `Step.faults_tell` — **which aspects of which steps are told.**
* `Step.second_pause_untold` — two pauses are amiss, and one is told.
-/

namespace Lightshow

/-! ### Aspects -/

/-- What is looked at by itself in a step. -/
inductive Aspect where
  | state
  | devices
  | steps
  | loopRandom
  | loopPause
  | pauseBefore
  | pauseAfter
  deriving DecidableEq, Repr

/-- The part of the step that an aspect is about. -/
def Aspect.part : Aspect → Part
  | .state | .devices | .steps => .whole
  | .loopRandom => .loopRandom
  | .loopPause => .loopPause
  | .pauseBefore => .pauseBefore
  | .pauseAfter => .pauseAfter

/-- The aspect that has to be sound for another one to be looked at. -/
def Aspect.before? : Aspect → Option Aspect
  | .loopPause => some .loopRandom
  | .pauseAfter => some .pauseBefore
  | _ => none

theorem Aspect.exists_iff {P : Aspect → Prop} : (∃ a, P a) ↔ P .state ∨ P .devices ∨ P .steps ∨
    P .loopRandom ∨ P .loopPause ∨ P .pauseBefore ∨ P .pauseAfter := by
  constructor
  · rintro ⟨a, ha⟩
    cases a <;> simp [ha]
  · rintro (h | h | h | h | h | h | h) <;> exact ⟨_, h⟩

/-- The aspect under which a fault was found. -/
def Fault.aspect : Fault → Aspect
  | .state .. => .state
  | .noDevices _ => .devices
  | .noSteps .. => .steps
  | .invertedRange .. => .loopRandom
  | .time place _ =>
    match place.part with
    | .pauseBefore => .pauseBefore
    | .pauseAfter => .pauseAfter
    | _ => .loopPause

/-- There is a time option, and it asks for what cannot be done. -/
def TimeOption.Amiss (o : Option TimeOption) : Prop := ∃ x ∈ o, ¬x.WellFormed

/-- An aspect of a step asks for what cannot be done. -/
def Step.Amiss : Step → Aspect → Prop
  | .transition t, .state => ¬t.state.WellFormed
  | .transition t, .devices => t.devices = some []
  | .transition t, .pauseBefore => TimeOption.Amiss t.pause.before
  | .transition t, .pauseAfter => TimeOption.Amiss t.pause.after
  | .composite _ steps _ _, .steps => steps = []
  | .composite _ _ loop _, .loopRandom => ¬loop.mode.WellFormed
  | .composite _ _ loop _, .loopPause => TimeOption.Amiss loop.pause
  | .composite _ _ _ pause, .pauseBefore => TimeOption.Amiss pause.before
  | .composite _ _ _ pause, .pauseAfter => TimeOption.Amiss pause.after
  | _, _ => False

/-- What would be told of an aspect of a step at a path, whatever the other ones are. -/
def Step.fault? (path : Path) : Step → Aspect → Option Fault
  | .transition t, .state => t.state.flaw?.map (Fault.state ⟨path, .whole⟩)
  | .transition t, .devices => if t.devices = some [] then some (.noDevices ⟨path, .whole⟩) else none
  | .transition t, .pauseBefore => TimeOption.fault? path .pauseBefore t.pause.before
  | .transition t, .pauseAfter => TimeOption.fault? path .pauseAfter t.pause.after
  | .composite order steps _ _, .steps =>
    if steps.isEmpty then some (.noSteps ⟨path, .whole⟩ order.kind) else none
  | .composite _ _ loop _, .loopRandom => loop.mode.fault? path
  | .composite _ _ loop _, .loopPause => TimeOption.fault? path .loopPause loop.pause
  | .composite _ _ _ pause, .pauseBefore => TimeOption.fault? path .pauseBefore pause.before
  | .composite _ _ _ pause, .pauseAfter => TimeOption.fault? path .pauseAfter pause.after
  | _, _ => none

/-! ### Faults of one step -/

theorem TimeOption.fault?_eq_none_iff_not_amiss {step : Path} {part : Part}
    {o : Option TimeOption} : TimeOption.fault? step part o = none ↔ ¬TimeOption.Amiss o := by
  rw [fault?_eq_none_iff, Amiss]
  push Not
  rfl

theorem TimeOption.fault?_eq_some {step : Path} {part : Part} {o : Option TimeOption} {f : Fault}
    (h : TimeOption.fault? step part o = some f) : ∃ flaw, f = .time ⟨step, part⟩ flaw := by
  obtain ⟨flaw, -, rfl⟩ := Option.map_eq_some_iff.mp h
  exact ⟨flaw, rfl⟩

namespace Step

/-- An aspect is told by itself just if it is amiss. -/
theorem fault?_eq_none_iff {path : Path} {s : Step} {a : Aspect} :
    s.fault? path a = none ↔ ¬s.Amiss a := by
  cases s with
  | transition t =>
    cases a with
    | state => simp [fault?, Amiss, DeviceState.flaw?_eq_none_iff]
    | devices => simp [fault?, Amiss]
    | pauseBefore | pauseAfter => exact TimeOption.fault?_eq_none_iff_not_amiss
    | steps | loopRandom | loopPause => simp [fault?, Amiss]
  | composite order steps loop pause =>
    cases a with
    | steps => simp [fault?, Amiss]
    | loopRandom => exact (LoopMode.fault?_eq_none_iff path loop.mode).trans not_not.symm
    | loopPause | pauseBefore | pauseAfter => exact TimeOption.fault?_eq_none_iff_not_amiss
    | state | devices => simp [fault?, Amiss]

theorem exists_fault?_iff {path : Path} {s : Step} {a : Aspect} :
    (∃ f, s.fault? path a = some f) ↔ s.Amiss a := by
  rw [← Option.ne_none_iff_exists', ne_eq, fault?_eq_none_iff, not_not]

/-- What is told of an aspect says where it is and which one. -/
theorem fault?_eq_some {path : Path} {s : Step} {a : Aspect} {f : Fault}
    (h : s.fault? path a = some f) : f.place = ⟨path, a.part⟩ ∧ f.aspect = a := by
  cases s with
  | transition t =>
    cases a with
    | state =>
      obtain ⟨flaw, -, rfl⟩ := Option.map_eq_some_iff.mp h
      exact ⟨rfl, rfl⟩
    | devices =>
      obtain ⟨-, ⟨⟩⟩ := Option.ite_none_right_eq_some.mp h
      exact ⟨rfl, rfl⟩
    | pauseBefore | pauseAfter =>
      obtain ⟨flaw, rfl⟩ := TimeOption.fault?_eq_some h
      exact ⟨rfl, rfl⟩
    | steps | loopRandom | loopPause => cases h
  | composite order steps loop pause =>
    cases a with
    | steps =>
      obtain ⟨-, ⟨⟩⟩ := Option.ite_none_right_eq_some.mp h
      exact ⟨rfl, rfl⟩
    | loopRandom =>
      have hmode : loop.mode.fault? path = some f := h
      cases hm : loop.mode with
      | random min max =>
        rw [hm] at hmode
        obtain ⟨-, ⟨⟩⟩ := Option.ite_none_right_eq_some.mp hmode
        exact ⟨rfl, rfl⟩
      | infinite | counted | timer | deadline =>
        rw [hm] at hmode
        cases hmode
    | loopPause | pauseBefore | pauseAfter =>
      obtain ⟨flaw, rfl⟩ := TimeOption.fault?_eq_some h
      exact ⟨rfl, rfl⟩
    | state | devices => cases h

/-- The faults of a step on its own. -/
def ownFaults (path : Path) : Step → List Fault
  | .transition t => t.faults path
  | .composite order steps loop pause =>
    (if steps.isEmpty then [.noSteps ⟨path, .whole⟩ order.kind] else [])
      ++ (loop.fault? path).toList ++ (pause.fault? path).toList

/-- The aspects are looked at in their order, and two of them only if the one before is sound. -/
theorem ownFaults_eq (path : Path) (s : Step) : s.ownFaults path
    = (s.fault? path .state).toList ++ (s.fault? path .devices).toList
      ++ (s.fault? path .steps).toList
      ++ ((s.fault? path .loopRandom).or (s.fault? path .loopPause)).toList
      ++ ((s.fault? path .pauseBefore).or (s.fault? path .pauseAfter)).toList := by
  have hite : ∀ (p : Prop) [Decidable p] (f : Fault),
      (if p then [f] else []) = (if p then some f else none).toList := by
    intro p _ f
    split <;> rfl
  cases s with
  | transition t =>
    rw [ownFaults, Transition.faults, hite]
    simp only [fault?, Option.or_none, Option.toList_none, List.append_nil]
    rfl
  | composite order steps loop pause =>
    rw [ownFaults, hite]
    rfl

/-- **An aspect is told unless the one before it is.** -/
theorem mem_ownFaults {path : Path} {s : Step} {f : Fault} : f ∈ s.ownFaults path ↔
    ∃ a, s.fault? path a = some f ∧ ∀ b ∈ a.before?, s.fault? path b = none := by
  rw [ownFaults_eq, Aspect.exists_iff]
  simp only [List.mem_append, Option.mem_toList, Option.mem_def, Option.or_eq_some_iff,
    Aspect.before?, Option.some.injEq, forall_eq', reduceCtorEq, false_imp_iff, implies_true,
    true_and, or_assoc, and_comm]

/-! ### Faults of a tree -/

mutual

/-- The faults of a tree are those of its steps, one step after the other. -/
theorem faultsAt_eq_flatMap : ∀ (s : Step) (path : Path),
    s.faultsAt path = (s.stepsAt path).flatMap fun x => x.2.ownFaults x.1
  | .transition t, path => by
    rw [faultsAt, stepsAt, List.flatMap_singleton, ownFaults]
  | .composite order steps loop pause, path => by
    rw [faultsAt, stepsAt, List.flatMap_cons, ownFaults, faultsFrom_eq_flatMap steps path 0]

theorem faultsFrom_eq_flatMap : ∀ (steps : List Step) (path : Path) (index : ℕ),
    Step.faultsFrom path index steps
      = (Step.stepsFrom path index steps).flatMap fun x => x.2.ownFaults x.1
  | [], path, index => by
    rw [faultsFrom, stepsFrom, List.flatMap_nil]
  | s :: rest, path, index => by
    rw [faultsFrom, stepsFrom, List.flatMap_append, faultsAt_eq_flatMap s,
      faultsFrom_eq_flatMap rest]

end

/-- A fault of a tree is told of an aspect of one of its steps. -/
theorem mem_faults {s : Step} {f : Fault} : f ∈ s.faults ↔
    ∃ x ∈ s.stepsAt s.rootPath, ∃ a, x.2.fault? x.1 a = some f ∧
      ∀ b ∈ a.before?, x.2.fault? x.1 b = none := by
  rw [faults, faultsAt_eq_flatMap, List.mem_flatMap]
  simp only [mem_ownFaults]

/-- **Which aspects of which steps are told**: those that are amiss, unless the one before it is. -/
theorem faults_tell (s : Step) :
    (∀ x ∈ s.stepsAt s.rootPath, ∀ a : Aspect,
      (∃ f ∈ s.faults, f.place = ⟨x.1, a.part⟩ ∧ f.aspect = a) ↔
        x.2.Amiss a ∧ ∀ b ∈ a.before?, ¬x.2.Amiss b) ∧
    ∀ f ∈ s.faults, ∃ x ∈ s.stepsAt s.rootPath,
      f.place = ⟨x.1, f.aspect.part⟩ ∧ x.2.Amiss f.aspect := by
  constructor
  · intro x hx a
    constructor
    · rintro ⟨f, hf, hplace, rfl⟩
      obtain ⟨y, hy, a, ha, hbefore⟩ := mem_faults.mp hf
      obtain ⟨hplace', rfl⟩ := fault?_eq_some ha
      have hstep : y.1 = x.1 := (Place.mk.inj (hplace'.symm.trans hplace)).1
      obtain rfl := stepsAt_unique s s.rootPath y hy x hx hstep
      exact ⟨exists_fault?_iff.mp ⟨f, ha⟩, fun b hb => fault?_eq_none_iff.mp (hbefore b hb)⟩
    · rintro ⟨hamiss, hbefore⟩
      obtain ⟨f, hf⟩ := exists_fault?_iff.mpr hamiss
      refine ⟨f, mem_faults.mpr ⟨x, hx, a, hf, fun b hb => ?_⟩, fault?_eq_some hf⟩
      exact fault?_eq_none_iff.mpr (hbefore b hb)
  · intro f hf
    obtain ⟨x, hx, a, ha, -⟩ := mem_faults.mp hf
    obtain ⟨hplace, rfl⟩ := fault?_eq_some ha
    exact ⟨x, hx, hplace, exists_fault?_iff.mp ⟨f, ha⟩⟩

/-- A transition with a negative pause before it and another one after it. -/
def hasty : Step :=
  .transition { state := { on := some true },
                pause := { before := some (.fixed (-1)), after := some (.fixed (-2)) } }

theorem hasty_amiss : hasty.Amiss .pauseBefore ∧ hasty.Amiss .pauseAfter := by
  refine ⟨⟨_, rfl, fun h => ?_⟩, _, rfl, fun h => ?_⟩
  · exact absurd h.1.2 (by decide)
  · exact absurd h.1.2 (by decide)

theorem hasty_tells : (hasty.rootPath, hasty) ∈ hasty.stepsAt hasty.rootPath ∧
    ∃ f ∈ hasty.faults, f.place = ⟨hasty.rootPath, .pauseBefore⟩ ∧ f.aspect = .pauseBefore :=
  have hroot := self_mem_stepsAt hasty.rootPath hasty
  ⟨hroot, ((faults_tell hasty).1 _ hroot .pauseBefore).mpr ⟨hasty_amiss.1, nofun⟩⟩

/-- **Not all that is amiss is told**: of two pauses that are amiss the second one is not. -/
theorem second_pause_untold : hasty.Amiss .pauseAfter ∧
    ∀ f ∈ hasty.faults, f.place.text ≠ (Place.mk hasty.rootPath .pauseAfter).text := by
  refine ⟨hasty_amiss.2, ?_⟩
  have hfaults : hasty.faults = [.time ⟨hasty.rootPath, .pauseBefore⟩ (.seconds (-1))] := by rfl
  rw [hfaults]
  decide

end Step

end Lightshow
