import Lightshow.Program.Fault
import Lightshow.Proofs.Program.Tree

/-!
# Programs without faults

`Step.faults` looks for faults while it walks through a tree, and each of its parts stops at the
first fault that it finds.  Here we say what it looks for.  A step is *well formed* if it asks for
nothing that cannot be done, whatever the steps around it ask for, and a tree has no faults just
if each of its steps is well formed.

The one point that needs care is the order of floats.  The faults are found with `<`, and what is
promised is `≤`; for numbers that may be no numbers the one does not follow from the failure of
the other.

## Main definitions

* `TimeOption.WellFormed`, `DeviceState.WellFormed`, `LoopMode.WellFormed` — the parts of a step.
* `Step.WellFormed` — one step on its own.

## Main results

* `float_le_of_not_lt` — finite numbers are in order one way or the other.
* `Step.faults_eq_nil_iff` — **a tree has no faults just if all its steps are well formed.**
-/

namespace Lightshow

open Float.Model (UnpackedFloat)

/-! ### Floats -/

/-- Which of two numbers comes first does not depend on which is asked about. -/
theorem unpacked_compare_swap (a b : UnpackedFloat) :
    b.compare a = (a.compare b).map Ordering.swap := by
  -- exponents are compared before mantissas, and the other way round for negative numbers
  have hthen : ∀ (e₁ e₂ : Int) (m₁ m₂ : Nat), (compare e₂ e₁).then (compare m₂ m₁)
      = ((compare e₁ e₂).then (compare m₁ m₂)).swap := by
    intro e₁ e₂ m₁ m₂
    have he : compare e₂ e₁ = (compare e₁ e₂).swap := Std.OrientedCmp.eq_swap
    have hm : compare m₂ m₁ = (compare m₁ m₂).swap := Std.OrientedCmp.eq_swap
    rw [he, hm, Ordering.swap_then]
  cases a with
  | notANumber => cases b <;> rfl
  | infinity s =>
    cases b with
    | infinity s' => cases s <;> cases s' <;> rfl
    | _ => cases s <;> rfl
  | zero s =>
    cases b with
    | infinity s' => cases s' <;> rfl
    | finite s' => cases s' <;> rfl
    | _ => rfl
  | finite s m e hm =>
    cases b with
    | notANumber => cases s <;> rfl
    | infinity s' => cases s <;> cases s' <;> rfl
    | zero s' => cases s <;> rfl
    | finite s' m' e' hm' =>
      cases s with
      | positive =>
        cases s' with
        | positive => exact congrArg some (hthen e e' m m')
        | negative => rfl
      | negative =>
        cases s' with
        | positive => rfl
        | negative => exact congrArg (fun o => some (Ordering.swap o)) (hthen e e' m m')

theorem unpacked_compare_of_finite {a b : UnpackedFloat} (ha : a.isFinite = true)
    (hb : b.isFinite = true) : ∃ o, a.compare b = some o := by
  cases a with
  | zero s =>
    cases b with
    | zero s' => exact ⟨_, rfl⟩
    | finite s' m e hm => cases s' <;> exact ⟨_, rfl⟩
    | _ => exact absurd hb nofun
  | finite s m e hm =>
    cases b with
    | zero s' => cases s <;> exact ⟨_, rfl⟩
    | finite s' m' e' hm' => cases s <;> cases s' <;> exact ⟨_, rfl⟩
    | _ => exact absurd hb nofun
  | _ => exact absurd ha nofun

theorem float_le_iff {x y : Float} :
    x ≤ y ↔ (x.toModel.unpack.compare y.toModel.unpack).any (·.isLE) = true :=
  ⟨fun h => of_decide_eq_true (p := x.toModel ≤ y.toModel) h,
    fun h => decide_eq_true (p := x.toModel ≤ y.toModel) h⟩

theorem float_lt_iff {x y : Float} :
    x < y ↔ x.toModel.unpack.compare y.toModel.unpack = some .lt := by
  constructor
  · intro h
    exact eq_of_beq (of_decide_eq_true (p := x.toModel < y.toModel) h)
  · intro h
    exact decide_eq_true (p := x.toModel < y.toModel) (beq_iff_eq.mpr h)

/-- What comes before something or is equal to it does not come after it. -/
theorem float_not_lt_of_le {x y : Float} (h : x ≤ y) : ¬y < x := by
  rw [float_le_iff] at h
  rw [float_lt_iff, unpacked_compare_swap]
  cases ho : x.toModel.unpack.compare y.toModel.unpack with
  | none =>
    rw [ho] at h
    exact absurd h nofun
  | some o =>
    rw [ho] at h
    cases o with
    | gt => exact absurd h nofun
    | _ => exact nofun

/-- **Of two finite numbers the first is at most the second, unless it is greater.** -/
theorem float_le_of_not_lt {x y : Float} (hx : x.isFinite = true) (hy : y.isFinite = true)
    (h : ¬y < x) : x ≤ y := by
  obtain ⟨o, ho⟩ := unpacked_compare_of_finite (a := x.toModel.unpack) hx
    (b := y.toModel.unpack) hy
  rw [float_lt_iff, unpacked_compare_swap, ho] at h
  rw [float_le_iff, ho]
  cases o with
  | gt => exact absurd rfl h
  | _ => rfl

/-! ### Well-formed parts -/

/-- A time option asks for a number of seconds from zero up, and its random part is drawn between
finite bounds that are in order. -/
def TimeOption.WellFormed (o : TimeOption) : Prop :=
  (o.seconds.isFinite = true ∧ 0 ≤ o.seconds) ∧
    ∀ j ∈ o.jitter, j.min.isFinite = true ∧ j.max.isFinite = true ∧ j.min ≤ j.max

/-- A pause is well formed if both its parts are. -/
def Pause.WellFormed (p : Pause) : Prop :=
  (∀ o ∈ p.before, o.WellFormed) ∧ ∀ o ∈ p.after, o.WellFormed

/-- A state has a finite time from zero up, a colour within the unit square, and a temperature
that is not zero, as far as it has them. -/
def DeviceState.WellFormed (s : DeviceState) : Prop :=
  (∀ t ∈ s.time, t.isFinite = true ∧ 0 ≤ t) ∧
    (∀ p ∈ s.xy, (0 ≤ p.1 ∧ p.1 ≤ 1) ∧ 0 ≤ p.2 ∧ p.2 ≤ 1) ∧ s.ctk ≠ some 0

/-- The range of a random loop has its bounds in order. -/
def LoopMode.WellFormed : LoopMode → Prop
  | .random min max => min ≤ max
  | _ => True

/-- A step is well formed on its own, whatever the steps below it are. -/
def Step.WellFormed : Step → Prop
  | .transition t => t.state.WellFormed ∧ t.devices ≠ some [] ∧ t.pause.WellFormed
  | .composite _ steps loop pause =>
    steps ≠ [] ∧ loop.mode.WellFormed ∧ (∀ o ∈ loop.pause, o.WellFormed) ∧ pause.WellFormed

/-! ### Flaws -/

theorem TimeOption.flaw?_eq_none_iff (o : TimeOption) : o.flaw? = none ↔ o.WellFormed := by
  unfold flaw? WellFormed
  by_cases hs : o.seconds.isFinite = true ∧ 0 ≤ o.seconds
  · cases hj : o.jitter with
    | none => simp [hs]
    | some j =>
      by_cases hmin : j.min.isFinite = true
      · by_cases hmax : j.max.isFinite = true
        · by_cases hlt : j.max < j.min
          · have hle : ¬j.min ≤ j.max := fun hle => float_not_lt_of_le hle hlt
            simp [hs, hmin, hmax, hlt, hle]
          · simp [hs, hmin, hmax, hlt, float_le_of_not_lt hmin hmax hlt]
        · simp [hs, hmax]
      · simp [hs, hmin]
  · have hspan : (o.seconds.isFinite && decide (0 ≤ o.seconds)) = false := by
      simpa using hs
    simp [hspan, hs]

theorem DeviceState.flaw?_eq_none_iff (s : DeviceState) : s.flaw? = none ↔ s.WellFormed := by
  have htime : s.time.filter (fun t => !isSpan t) = none ↔
      ∀ t ∈ s.time, t.isFinite = true ∧ 0 ≤ t := by
    simp [Option.filter_eq_none_iff, isSpan]
  have hxy : s.xy.filter (fun p => !(isCoordinate p.1 && isCoordinate p.2)) = none ↔
      ∀ p ∈ s.xy, (0 ≤ p.1 ∧ p.1 ≤ 1) ∧ 0 ≤ p.2 ∧ p.2 ≤ 1 := by
    simp [Option.filter_eq_none_iff, isCoordinate]
  rw [flaw?, WellFormed, ← htime, ← hxy]
  cases s.time.filter (fun t => !isSpan t) with
  | some t => simp
  | none =>
    cases s.xy.filter (fun p => !(isCoordinate p.1 && isCoordinate p.2)) with
    | some p => simp
    | none => simp

/-! ### Faults -/

theorem TimeOption.fault?_eq_none_iff (step : Path) (part : Part) (o : Option TimeOption) :
    TimeOption.fault? step part o = none ↔ ∀ x ∈ o, x.WellFormed := by
  cases o with
  | none => simp [fault?]
  | some x => simp [fault?, flaw?_eq_none_iff]

theorem Pause.fault?_eq_none_iff (step : Path) (p : Pause) :
    p.fault? step = none ↔ p.WellFormed := by
  rw [fault?, Option.or_eq_none_iff, TimeOption.fault?_eq_none_iff, TimeOption.fault?_eq_none_iff,
    WellFormed]

theorem LoopMode.fault?_eq_none_iff (step : Path) (mode : LoopMode) :
    mode.fault? step = none ↔ mode.WellFormed := by
  cases mode with
  | random min max => simp [fault?, WellFormed, UInt64.not_lt]
  | _ => simp [fault?, WellFormed]

theorem Loop.fault?_eq_none_iff (step : Path) (l : Loop) :
    l.fault? step = none ↔ l.mode.WellFormed ∧ ∀ o ∈ l.pause, o.WellFormed := by
  rw [fault?, Option.or_eq_none_iff, LoopMode.fault?_eq_none_iff, TimeOption.fault?_eq_none_iff]

theorem Transition.faults_eq_nil_iff (path : Path) (t : Transition) :
    t.faults path = [] ↔ (Step.transition t).WellFormed := by
  rw [faults, Step.WellFormed, ← DeviceState.flaw?_eq_none_iff, ← Pause.fault?_eq_none_iff path]
  simp

mutual

/-- A tree has no faults, wherever its root stands, just if all its steps are well formed. -/
theorem Step.faultsAt_eq_nil_iff : ∀ (s : Step) (path : Path),
    s.faultsAt path = [] ↔ ∀ n ∈ s.nodes, n.WellFormed
  | .transition t, path => by
    rw [Step.faultsAt, Step.nodes, List.forall_mem_singleton]
    exact t.faults_eq_nil_iff path
  | .composite order steps loop pause, path => by
    have hsteps : (if steps.isEmpty then [Fault.noSteps ⟨path, .whole⟩ order.kind] else []) = []
        ↔ steps ≠ [] := by
      cases steps <;> simp
    have hloop : (loop.fault? path).toList = [] ↔
        loop.mode.WellFormed ∧ ∀ o ∈ loop.pause, o.WellFormed := by
      rw [Option.toList_eq_nil_iff, Loop.fault?_eq_none_iff]
    have hpause : (pause.fault? path).toList = [] ↔ pause.WellFormed := by
      rw [Option.toList_eq_nil_iff, Pause.fault?_eq_none_iff]
    rw [Step.faultsAt, Step.nodes, List.forall_mem_cons, Step.WellFormed,
      List.append_eq_nil_iff, List.append_eq_nil_iff, List.append_eq_nil_iff, hsteps, hloop,
      hpause, Step.faultsFrom_eq_nil_iff steps path 0]
    simp only [and_assoc]

theorem Step.faultsFrom_eq_nil_iff : ∀ (steps : List Step) (path : Path) (index : Nat),
    Step.faultsFrom path index steps = [] ↔ ∀ n ∈ Step.nodesAll steps, n.WellFormed
  | [], path, index => by
    rw [Step.faultsFrom, Step.nodesAll]
    simp
  | s :: rest, path, index => by
    rw [Step.faultsFrom, Step.nodesAll, List.append_eq_nil_iff, List.forall_mem_append,
      Step.faultsAt_eq_nil_iff s, Step.faultsFrom_eq_nil_iff rest]

end

/-- **A tree has no faults just if each of its steps is well formed on its own.** -/
theorem Step.faults_eq_nil_iff (s : Step) : s.faults = [] ↔ ∀ n ∈ s.nodes, n.WellFormed :=
  s.faultsAt_eq_nil_iff s.rootPath

end Lightshow
