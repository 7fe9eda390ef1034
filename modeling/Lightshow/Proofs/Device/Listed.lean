import Lightshow.Proofs.Written.Paths

/-!
# References as a tree lists them

The transitions of a tree list references, and one reference may be listed many times.  The tree is
walked through with the references seen so far in hand, and each one met on the way is added unless
it is among them.  Whatever the shape of the tree, this comes to the same as to write down all that
its steps list, in the order of the steps, and then to leave out what stood there before.

## Main definitions

* `Step.own` — the references that a step itself lists.
* `Step.listed` — the references that the steps of a tree list, in the order of the steps.

## Main results

* `Step.collect_eq_foldl` — walking through a tree is walking along what it lists.
* `Step.references_once` — **the references of a tree are those that it lists, each where it stands
  first.**
-/

namespace Lightshow

/-! ### Lists without repetitions -/

section AddNew

variable {α : Type} [DecidableEq α]

/-- The distinct elements of a list stand there once. -/
theorem eraseDups_nodup (xs : List α) : xs.eraseDups.Nodup := by
  match xs with
  | [] => exact List.nodup_nil
  | x :: xs =>
    have hrest := eraseDups_nodup (xs.filter fun y => !y == x)
    rw [List.eraseDups_cons]
    refine List.nodup_cons.mpr ⟨fun hx => ?_, hrest⟩
    have hne := (List.mem_filter.mp (List.mem_eraseDups.mp hx)).2
    simp at hne
termination_by xs.length
decreasing_by exact Nat.lt_succ_of_le (List.length_filter_le _ _)

/-- One more element of a list adds to its distinct elements what is not yet among them. -/
theorem addNew_eraseDups (xs : List α) (x : α) :
    addNew xs.eraseDups x = (xs ++ [x]).eraseDups := by
  rw [List.eraseDups_append, addNew]
  by_cases hx : x ∈ xs
  · rw [if_pos (List.mem_eraseDups.mpr hx)]
    simp [List.removeAll, hx]
  · rw [if_neg fun h => hx (List.mem_eraseDups.mp h)]
    simp [List.removeAll, hx, List.eraseDups_cons]

/-- What has been seen of a list before are its distinct elements, and so it is after. -/
theorem foldl_addNew_eraseDups (xs : List α) : ∀ before : List α,
    xs.foldl addNew before.eraseDups = (before ++ xs).eraseDups := by
  induction xs with
  | nil => exact fun before => by rw [List.foldl_nil, List.append_nil]
  | cons x xs ih =>
    intro before
    rw [List.foldl_cons, addNew_eraseDups, ih, List.append_assoc, List.singleton_append]

end AddNew

/-! ### Trees -/

namespace Step

/-- The references that a step itself lists: a transition may list some. -/
def own : Step → List DeviceRef
  | .transition t => t.devices.getD []
  | .composite .. => []

/-- The references that some steps list, one step after the other. -/
def listedBy (xs : List (Path × Step)) : List DeviceRef := xs.flatMap fun x => x.2.own

/-- The references that the steps of a tree list.  Each step comes before the steps below it. -/
def listed (s : Step) : List DeviceRef := listedBy (s.stepsAt s.rootPath)

theorem mem_own {s : Step} {r : DeviceRef} :
    r ∈ s.own ↔ ∃ t refs, s = .transition t ∧ t.devices = some refs ∧ r ∈ refs := by
  cases s with
  | transition t =>
    cases hdevices : t.devices with
    | none => simp [own, hdevices]
    | some refs => simp [own, hdevices]
  | composite => simp [own]

mutual

/-- **Walking through a tree is walking along what it lists.** -/
theorem collect_eq_foldl : ∀ (s : Step) (path : Path) (seen : List DeviceRef),
    s.collect seen = (listedBy (s.stepsAt path)).foldl addNew seen
  | .transition t, path, seen => by
    rw [collect, stepsAt, listedBy, List.flatMap_singleton, own]
  | .composite order steps loop pause, path, seen => by
    -- a composite lists nothing itself
    rw [collect, stepsAt, listedBy, List.flatMap_cons, own, List.nil_append]
    exact collectAll_eq_foldl steps path 0 seen

theorem collectAll_eq_foldl : ∀ (steps : List Step) (path : Path) (index : ℕ)
    (seen : List DeviceRef),
    collectAll seen steps = (listedBy (stepsFrom path index steps)).foldl addNew seen
  | [], path, index, seen => by
    rw [collectAll, stepsFrom, listedBy, List.flatMap_nil, List.foldl_nil]
  | s :: rest, path, index, seen => by
    rw [collectAll, stepsFrom, listedBy, List.flatMap_append, List.foldl_append,
      collect_eq_foldl s (.child path index s.kind), collectAll_eq_foldl rest path (index + 1)]
    rfl

end

theorem references_eq (s : Step) : s.references = s.listed.eraseDups := by
  rw [references, collect_eq_foldl s s.rootPath]
  exact foldl_addNew_eraseDups s.listed []

theorem mem_references_iff {s : Step} {r : DeviceRef} :
    r ∈ s.references ↔ ∃ x ∈ s.stepsAt s.rootPath, r ∈ x.2.own := by
  rw [references_eq, List.mem_eraseDups]
  exact List.mem_flatMap

/-- **The references of a tree are those that its steps list, each where it stands first**: what is
listed again is left out, none is there twice, and a reference is there just if some transition,
wherever it stands in the tree, lists it. -/
theorem references_once (s : Step) :
    s.references = s.listed.eraseDups ∧ s.references.Nodup ∧
      ∀ r, r ∈ s.references ↔ ∃ path t refs,
        (path, Step.transition t) ∈ s.stepsAt s.rootPath ∧ t.devices = some refs ∧ r ∈ refs := by
  refine ⟨references_eq s, ?_, fun r => mem_references_iff.trans ?_⟩
  · rw [references_eq]
    exact eraseDups_nodup s.listed
  · constructor
    · rintro ⟨⟨path, n⟩, hx, hr⟩
      obtain ⟨t, refs, rfl, hdevices, hmem⟩ := mem_own.mp hr
      exact ⟨path, t, refs, hx, hdevices, hmem⟩
    · rintro ⟨path, t, refs, hx, hdevices, hmem⟩
      exact ⟨_, hx, mem_own.mpr ⟨t, refs, rfl, hdevices, hmem⟩⟩

end Step

end Lightshow
