import Lightshow.Program.Step
import Mathlib.Data.Nat.Notation

/-!
# Trees of steps

A program is a tree: a composite holds steps, which may be composites again.  What is true of a
tree because it is true of the steps of its root is shown here by one induction, which speaks of
steps only and not of lists of them.

The paths of steps are a tree too, and the steps of a tree stand below the path of its root.  A step
that stands below a child of a composite stands below no other child of it.

## Main definitions

* `Path.Under` — steps below a step, as their paths tell.
* `Step.nodes`, `Step.stepsAt` — the steps of a tree, without and with their paths.
* `Step.Pauses` — the time options of a step.

## Main results

* `Path.Under.index_eq` — no step stands below different children of a composite.
* `Step.induction` — what holds of a step if it holds of the steps in it holds of every tree.
* `Step.mem_stepsFrom` — the steps below a composite are those of the steps in it.
* `Step.stepsAt_trans` — the steps of a step of a tree are steps of the tree.
* `Step.stepsAt_under` — the steps of a tree stand below its root.
-/

namespace Lightshow

/-! ### Paths -/

namespace Path

/-- What the step at a path is. -/
def kind : Path → StepKind
  | root kind => kind
  | child _ _ kind => kind

/-- A step is the one at a path or stands below it. -/
inductive Under (p : Path) : Path → Prop
  | self : Under p p
  | child {q : Path} (h : Under p q) (index : ℕ) (kind : StepKind) : Under p (.child q index kind)

theorem Under.trans {p q r : Path} (hpq : p.Under q) (hqr : q.Under r) : p.Under r := by
  induction hqr with
  | self => exact hpq
  | child _ index kind ih => exact .child ih index kind

/-- How many steps a step stands below the root. -/
def depth : Path → ℕ
  | root _ => 0
  | child parent _ _ => parent.depth + 1

theorem Under.depth_le {p q : Path} (h : p.Under q) : p.depth ≤ q.depth := by
  induction h with
  | self => exact Nat.le_refl _
  | child _ index kind ih => exact Nat.le_succ_of_le ih

/-- No child of a step is above the step. -/
theorem not_child_under {p : Path} {index : ℕ} {kind : StepKind} :
    ¬(Path.child p index kind).Under p := by
  intro h
  have hdepth := h.depth_le
  rw [depth] at hdepth
  omega

/-- A step below different children of a step would have to be two steps. -/
theorem Under.index_eq {p q : Path} {i j : ℕ} {k l : StepKind}
    (hi : (Path.child p i k).Under q) (hj : (Path.child p j l).Under q) : i = j := by
  induction hi with
  | self =>
    cases hj with
    | self => rfl
    | child h => exact absurd h not_child_under
  | child hq index kind ih =>
    cases hj with
    | self => exact absurd hq not_child_under
    | child h => exact ih h

end Path

/-! ### Steps -/

/-- **What holds of a composite if it holds of its steps, and of transitions, holds of all trees.** -/
theorem Step.induction {motive : Step → Prop} (transition : ∀ t, motive (.transition t))
    (composite : ∀ order steps loop pause, (∀ s ∈ steps, motive s) →
      motive (.composite order steps loop pause)) (s : Step) : motive s := by
  refine Step.rec (motive_1 := motive) (motive_2 := fun steps => ∀ s ∈ steps, motive s)
    transition composite ?_ ?_ s
  · exact fun s hs => absurd hs List.not_mem_nil
  · exact fun s steps hs hsteps => List.forall_mem_cons.mpr ⟨hs, hsteps⟩

/-- A time option is one of the pauses of a step. -/
def Step.Pauses : Step → TimeOption → Prop
  | .transition t, o => o ∈ t.pause.before ∨ o ∈ t.pause.after
  | .composite _ _ loop pause, o => o ∈ pause.before ∨ o ∈ pause.after ∨ o ∈ loop.pause

/-! ### The steps of a tree -/

mutual

/-- The steps of a tree, its root among them. -/
def Step.nodes : Step → List Step
  | .transition t => [.transition t]
  | .composite order steps loop pause => .composite order steps loop pause :: Step.nodesAll steps

/-- The steps of some trees. -/
def Step.nodesAll : List Step → List Step
  | [] => []
  | s :: rest => Step.nodes s ++ Step.nodesAll rest

end

mutual

/-- The steps of a tree at a path, with their paths. -/
def Step.stepsAt (path : Path) : Step → List (Path × Step)
  | .transition t => [(path, .transition t)]
  | .composite order steps loop pause =>
    (path, .composite order steps loop pause) :: Step.stepsFrom path 0 steps

/-- The steps of the steps of a composite at a path, of which the first has number `index`. -/
def Step.stepsFrom (path : Path) (index : ℕ) : List Step → List (Path × Step)
  | [] => []
  | s :: rest =>
    Step.stepsAt (.child path index s.kind) s ++ Step.stepsFrom path (index + 1) rest

end

namespace Step

theorem mem_nodesAll {n : Step} {steps : List Step} :
    n ∈ nodesAll steps ↔ ∃ s ∈ steps, n ∈ s.nodes := by
  induction steps with
  | nil =>
    rw [nodesAll]
    simp
  | cons s rest ih =>
    rw [nodesAll, List.mem_append, ih]
    simp only [List.mem_cons, exists_eq_or_imp]

/-- The steps below a composite are those of the steps in it. -/
theorem mem_stepsFrom {path : Path} {x : Path × Step} {steps : List Step} {index : ℕ} :
    x ∈ stepsFrom path index steps ↔
      ∃ (i : ℕ) (s : Step), steps[i]? = some s ∧ x ∈ s.stepsAt (.child path (index + i) s.kind) := by
  induction steps generalizing index with
  | nil =>
    rw [stepsFrom]
    simp
  | cons s rest ih =>
    rw [stepsFrom, List.mem_append, ih]
    constructor
    · rintro (hx | ⟨i, s', hs', hx⟩)
      · exact ⟨0, s, rfl, hx⟩
      · exact ⟨i + 1, s', hs', by rwa [Nat.add_right_comm] at hx⟩
    · rintro ⟨_ | i, s', hs', hx⟩
      · obtain rfl := Option.some.inj hs'
        exact .inl hx
      · exact .inr ⟨i, s', hs', by rwa [Nat.add_right_comm]⟩

theorem self_mem_stepsAt (path : Path) (s : Step) : (path, s) ∈ s.stepsAt path := by
  cases s with
  | transition t =>
    rw [stepsAt]
    exact List.mem_singleton_self _
  | composite =>
    rw [stepsAt]
    exact List.mem_cons_self

/-- The steps with their paths are the steps of the tree. -/
theorem mem_nodes_of_mem_stepsAt {s : Step} {path : Path} {x : Path × Step}
    (hx : x ∈ s.stepsAt path) : x.2 ∈ s.nodes := by
  induction s using Step.induction generalizing path with
  | transition t =>
    rw [stepsAt] at hx
    rw [nodes, List.mem_singleton.mp hx]
    exact List.mem_singleton_self _
  | composite order steps loop pause ih =>
    rw [stepsAt] at hx
    rw [nodes]
    rcases List.mem_cons.mp hx with rfl | hx
    · exact List.mem_cons_self
    · obtain ⟨i, s, hs, hx⟩ := mem_stepsFrom.mp hx
      have hmem := List.mem_of_getElem? hs
      exact List.mem_cons_of_mem _ (mem_nodesAll.mpr ⟨s, hmem, ih s hmem hx⟩)

/-- The steps of a step of a tree are steps of the tree. -/
theorem stepsAt_trans {x y : Path × Step} (hy : y ∈ x.2.stepsAt x.1) {s : Step} {path : Path}
    (hx : x ∈ s.stepsAt path) : y ∈ s.stepsAt path := by
  induction s using Step.induction generalizing path with
  | transition t =>
    rw [stepsAt] at hx
    rw [List.mem_singleton.mp hx] at hy
    exact hy
  | composite order steps loop pause ih =>
    rw [stepsAt] at hx ⊢
    rcases List.mem_cons.mp hx with rfl | hx
    · rw [stepsAt] at hy
      exact hy
    · obtain ⟨i, s, hs, hx⟩ := mem_stepsFrom.mp hx
      exact List.mem_cons_of_mem _
        (mem_stepsFrom.mpr ⟨i, s, hs, ih s (List.mem_of_getElem? hs) hx⟩)

theorem stepsFrom_trans {x y : Path × Step} (hy : y ∈ x.2.stepsAt x.1) {steps : List Step}
    {path : Path} {index : ℕ} (hx : x ∈ stepsFrom path index steps) :
    y ∈ stepsFrom path index steps := by
  obtain ⟨i, s, hs, hx⟩ := mem_stepsFrom.mp hx
  exact mem_stepsFrom.mpr ⟨i, s, hs, stepsAt_trans hy hx⟩

/-- The steps of a tree stand below its root. -/
theorem stepsAt_under {s : Step} {path : Path} {x : Path × Step} (hx : x ∈ s.stepsAt path) :
    path.Under x.1 := by
  induction s using Step.induction generalizing path with
  | transition t =>
    rw [stepsAt] at hx
    rw [List.mem_singleton.mp hx]
    exact .self
  | composite order steps loop pause ih =>
    rw [stepsAt] at hx
    rcases List.mem_cons.mp hx with rfl | hx
    · exact .self
    · obtain ⟨i, s, hs, hx⟩ := mem_stepsFrom.mp hx
      exact (Path.Under.self.child (0 + i) s.kind).trans (ih s (List.mem_of_getElem? hs) hx)

/-- The steps of a composite stand below its children. -/
theorem stepsFrom_under {steps : List Step} {path : Path} {index : ℕ} {x : Path × Step}
    (hx : x ∈ stepsFrom path index steps) :
    ∃ j kind, index ≤ j ∧ (Path.child path j kind).Under x.1 := by
  obtain ⟨i, s, -, hx⟩ := mem_stepsFrom.mp hx
  exact ⟨index + i, s.kind, Nat.le_add_right index i, stepsAt_under hx⟩

end Step

end Lightshow
