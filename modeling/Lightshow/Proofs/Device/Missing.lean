import Mathlib.Data.List.Basic
import Lightshow.Device.Roster
import Lightshow.Program.Reading

/-!
# What checking references ahead finds

Before a program runs, its references may be checked against the roster that the run will use.
Each kind of reference has a check of its own, and none of them looks references up the way that
a run does.  Together they find just the references that mean nothing, each by the check of its
kind, in their order and as often as they stand there.

## Main definitions

* `Roster.lacks` — whether looking a reference up fails.
* `DeviceRef.light?`, `DeviceRef.group?` — the key of a reference of a kind.

## Main results

* `Roster.missingLights_eq`, `Roster.missingGroups_eq`, `Roster.missingInputs_eq` — **what each
  check finds are the references of its kind that mean nothing.**
* `Roster.resolves_of_missing` — if nothing is found, all references mean something.
-/

namespace Lightshow

namespace DeviceRef

/-- The key of a reference to a light. -/
def light? : DeviceRef → Option String
  | .light key => some key
  | _ => none

/-- The key of a reference to a group. -/
def group? : DeviceRef → Option String
  | .group key => some key
  | _ => none

end DeviceRef

namespace Roster

/-- Whether a reference means nothing. -/
def lacks (r : Roster) (ref : DeviceRef) : Bool := (r.resolve ref).toOption.isNone

variable (r : Roster)

@[simp] theorem lacks_light (key : String) : r.lacks (.light key) = (r.lights.find? key).isNone := by
  rw [lacks, resolve, light]
  cases r.lights.find? key <;> rfl

@[simp] theorem lacks_group (key : String) : r.lacks (.group key) = (r.groups.find? key).isNone := by
  rw [lacks, resolve, group]
  cases r.groups.find? key <;> rfl

theorem resolve_input_succ {i : ℕ} (hi : i < r.inputs.length) :
    r.resolve (.input (i + 1)) = .ok [r.inputs[i]] := by
  rw [resolve, input?, List.getElem?_eq_getElem hi]

theorem resolve_input_of_unbound {n : ℕ} (hn : n = 0 ∨ r.inputs.length < n) :
    r.resolve (.input n) = .error (.input n) := by
  cases n with
  | zero => rfl
  | succ i =>
    have hi : r.inputs.length ≤ i := by omega
    rw [resolve, input?, List.getElem?_eq_none hi]

/-- Inputs are counted from one. -/
@[simp] theorem lacks_input (n : ℕ) :
    r.lacks (.input n) = (n = 0 || r.inputs.length < n : Bool) := by
  by_cases hn : n = 0 ∨ r.inputs.length < n
  · rw [lacks, resolve_input_of_unbound r hn]
    simpa [Except.toOption] using hn
  · obtain ⟨i, rfl⟩ := Nat.exists_eq_succ_of_ne_zero fun h => hn (.inl h)
    have hi : i < r.inputs.length := by omega
    rw [lacks, resolve_input_succ r hi]
    simpa [Except.toOption] using Nat.succ_le_of_lt hi

@[simp] theorem lacks_allInputs : r.lacks .allInputs = r.inputs.isEmpty := by
  rw [lacks, resolve]
  cases r.inputs.isEmpty <;> rfl

theorem resolves_of_not_lacks {ref : DeviceRef} (h : r.lacks ref = false) :
    ∃ devices, r.resolve ref = .ok devices := by
  unfold lacks at h
  cases hresolve : r.resolve ref with
  | ok devices => exact ⟨devices, rfl⟩
  | error cause =>
    rw [hresolve] at h
    cases h

/-- **The keys of lights that are found missing are those of the lights that mean nothing.** -/
theorem missingLights_eq (refs : List DeviceRef) :
    r.missingLights refs = (refs.filter r.lacks).filterMap DeviceRef.light? := by
  rw [missingLights, List.filterMap_filter]
  refine List.filterMap_congr fun ref _ => ?_
  cases ref <;> simp [DeviceRef.light?]

theorem missingGroups_eq (refs : List DeviceRef) :
    r.missingGroups refs = (refs.filter r.lacks).filterMap DeviceRef.group? := by
  rw [missingGroups, List.filterMap_filter]
  refine List.filterMap_congr fun ref _ => ?_
  cases ref <;> simp [DeviceRef.group?]

theorem missingInputs_eq (refs : List DeviceRef) :
    r.missingInputs refs = (refs.filter r.lacks).filter DeviceRef.isInput := by
  rw [missingInputs, List.filter_filter]
  refine List.filter_congr fun ref _ => ?_
  cases ref <;> simp [DeviceRef.isInput]

/-- **If nothing is missing, all references mean something.** -/
theorem resolves_of_missing {refs : List DeviceRef} (hlights : r.missingLights refs = [])
    (hgroups : r.missingGroups refs = []) (hinputs : r.missingInputs refs = []) :
    ∀ ref ∈ refs, ∃ devices, r.resolve ref = .ok devices := by
  intro ref href
  rw [missingLights_eq] at hlights
  rw [missingGroups_eq] at hgroups
  rw [missingInputs_eq] at hinputs
  refine r.resolves_of_not_lacks (Bool.eq_false_iff.mpr fun hlacks => ?_)
  have hmem : ref ∈ refs.filter r.lacks := List.mem_filter.mpr ⟨href, hlacks⟩
  -- the check of its kind finds it
  cases ref with
  | light key => exact absurd (List.filterMap_eq_nil_iff.mp hlights _ hmem) nofun
  | group key => exact absurd (List.filterMap_eq_nil_iff.mp hgroups _ hmem) nofun
  | input n => exact List.filter_eq_nil_iff.mp hinputs _ hmem rfl
  | allInputs => exact List.filter_eq_nil_iff.mp hinputs _ hmem rfl

end Roster

end Lightshow
