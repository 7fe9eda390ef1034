import Lightshow.Run.Result

/-!
# What is read off a result

A result is a status with a list of failures.  Two things are read off it by whoever asked for
the run: the exit code, and the failures by device.  Grouping loses and invents nothing: each
device with a failure has one group, and in it its errors in the order in which they were
recorded.

## Main definitions

* `RunResult.errorsOf` — what some groups hold for a device.
* `RunResult.Grouped` — groups are those of a list of failures.

## Main results

* `RunResult.exitCode_iff` — the exit codes.
* `RunResult.perDevice_grouped`, `RunResult.Grouped.mem_iff` — the failures by device.
-/

namespace Lightshow

namespace RunResult

/-- The exit code tells success, cancellation and everything else apart. -/
theorem exitCode_iff (r : RunResult) :
    (r.exitCode = 0 ↔ r.status = .completed ∧ r.failures = []) ∧
      (r.exitCode = 130 ↔ r.status = .cancelled) ∧
      (r.exitCode = 1 ↔ r.status ≠ .cancelled ∧ ¬(r.status = .completed ∧ r.failures = [])) := by
  obtain ⟨status, failures, fatal⟩ := r
  cases status <;> cases failures <;> simp [exitCode, isSuccess, cancelledCode]

/-! ### Failures by device -/

/-- The errors that some groups hold for a device. -/
def errorsOf (label : String) (groups : List (String × List DeviceError)) : List DeviceError :=
  groups.flatMap fun g => if g.1 = label then g.2 else []

variable {label device : String} {error : DeviceError}
  {groups : List (String × List DeviceError)}

theorem errorsOf_cons (g : String × List DeviceError) : errorsOf label (g :: groups)
    = (if g.1 = label then g.2 else []) ++ errorsOf label groups := List.flatMap_cons

theorem errorsOf_eq_nil (h : ∀ g ∈ groups, g.1 ≠ label) : errorsOf label groups = [] :=
  List.flatMap_eq_nil_iff.mpr fun g hg => if_neg (h g hg)

theorem mem_addError {g : String × List DeviceError} (h : g ∈ addError device error groups) :
    (g.1 = device ∨ ∃ g' ∈ groups, g'.1 = g.1) ∧ (g.2 ≠ [] ∨ g ∈ groups) := by
  induction groups with
  | nil =>
    rw [List.mem_singleton.mp h]
    exact ⟨.inl rfl, .inl (List.cons_ne_nil error [])⟩
  | cons g' groups ih =>
    unfold addError at h
    split at h
    · rcases List.mem_cons.mp h with rfl | h
      · exact ⟨.inl rfl, .inl (List.cons_ne_nil error [])⟩
      · exact ⟨.inr ⟨g, h, rfl⟩, .inr h⟩
    · split at h
      · rcases List.mem_cons.mp h with rfl | h
        · exact ⟨.inr ⟨g', List.mem_cons_self, rfl⟩, .inl (List.append_ne_nil_of_right_ne_nil _
            (List.cons_ne_nil error []))⟩
        · exact ⟨.inr ⟨g, List.mem_cons_of_mem g' h, rfl⟩, .inr (List.mem_cons_of_mem g' h)⟩
      · rcases List.mem_cons.mp h with rfl | h
        · exact ⟨.inr ⟨_, List.mem_cons_self, rfl⟩, .inr List.mem_cons_self⟩
        · obtain ⟨hkey, hne⟩ := ih h
          refine ⟨hkey.imp_right ?_, hne.imp_right (List.mem_cons_of_mem g')⟩
          rintro ⟨x, hx, hxg⟩
          exact ⟨x, List.mem_cons_of_mem g' hx, hxg⟩

/-- The groups stay in order. -/
theorem addError_sorted (h : groups.Pairwise (·.1 < ·.1)) :
    (addError device error groups).Pairwise (·.1 < ·.1) := by
  induction groups with
  | nil => exact List.pairwise_singleton _ _
  | cons g groups ih =>
    obtain ⟨hg, hgroups⟩ := List.pairwise_cons.mp h
    unfold addError
    split
    · next hlt =>
      refine List.pairwise_cons.mpr ⟨fun x hx => ?_, h⟩
      rcases List.mem_cons.mp hx with rfl | hx
      · exact hlt
      · exact String.lt_trans hlt (hg x hx)
    · split
      · exact List.pairwise_cons.mpr ⟨hg, hgroups⟩
      · next hlt hne =>
        refine List.pairwise_cons.mpr ⟨fun x hx => ?_, ih hgroups⟩
        rcases (mem_addError hx).1 with hx | ⟨y, hy, hx⟩
        · rw [hx]
          exact Std.lt_of_le_of_ne (String.not_lt.mp hlt) (Ne.symm hne)
        · rw [← hx]
          exact hg y hy

/-- An error is added to the group of its device, at the end, and to no other. -/
theorem errorsOf_addError (h : groups.Pairwise (·.1 < ·.1)) :
    errorsOf label (addError device error groups)
      = errorsOf label groups ++ if device = label then [error] else [] := by
  induction groups with
  | nil =>
    rw [addError, errorsOf_cons]
    exact List.append_nil _
  | cons g groups ih =>
    obtain ⟨hg, hgroups⟩ := List.pairwise_cons.mp h
    unfold addError
    split
    · next hlt =>
      rw [errorsOf_cons]
      by_cases hd : device = label
      · -- the devices of all groups come later
        have hlater : ∀ x ∈ g :: groups, x.1 ≠ label := by
          intro x hx
          rw [← hd]
          rcases List.mem_cons.mp hx with rfl | hx
          · exact (String.ne_of_lt hlt).symm
          · exact (String.ne_of_lt (String.lt_trans hlt (hg x hx))).symm
        rw [errorsOf_eq_nil hlater, if_pos hd, List.append_nil, List.nil_append]
      · rw [if_neg hd, List.nil_append, List.append_nil]
    · split
      · next hlt heq =>
        rw [errorsOf_cons, errorsOf_cons, heq]
        by_cases hd : g.1 = label
        · have hlater : ∀ x ∈ groups, x.1 ≠ label := fun x hx => by
            rw [← hd]
            exact (String.ne_of_lt (hg x hx)).symm
          rw [errorsOf_eq_nil hlater, if_pos hd, if_pos hd, if_pos hd, List.append_nil,
            List.append_nil]
        · rw [if_neg hd, if_neg hd, if_neg hd, List.append_nil]
      · rw [errorsOf_cons, errorsOf_cons, ih hgroups, List.append_assoc]

/-- Some groups are those of some failures: in order, each with an error, and each with the
errors of its device in their order. -/
structure Grouped (failures : List Failure) (groups : List (String × List DeviceError)) : Prop where
  sorted : groups.Pairwise (·.1 < ·.1)
  nonempty : ∀ g ∈ groups, g.2 ≠ []
  errors : ∀ label, errorsOf label groups
    = (failures.filter (·.device = label)).map Failure.error

theorem Grouped.add {failures : List Failure} (h : Grouped failures groups) (f : Failure) :
    Grouped (failures ++ [f]) (addError f.device f.error groups) where
  sorted := addError_sorted h.sorted
  nonempty g hg := (mem_addError hg).2.elim id (h.nonempty g)
  errors label := by
    rw [errorsOf_addError h.sorted, h.errors, List.filter_append, List.map_append]
    by_cases hd : f.device = label <;> simp [hd]

/-- **Grouping loses and invents nothing.** -/
theorem perDevice_grouped (r : RunResult) : Grouped r.failures r.perDevice := by
  have hfold : ∀ (rest seen : List Failure) (groups : List (String × List DeviceError)),
      Grouped seen groups →
      Grouped (seen ++ rest) (rest.foldl (fun groups f => addError f.device f.error groups) groups) := by
    intro rest
    induction rest with
    | nil => exact fun seen groups h => (List.append_nil seen).symm ▸ h
    | cons f rest ih =>
      intro seen groups h
      have hrest := ih (seen ++ [f]) _ (h.add f)
      rwa [List.append_assoc] at hrest
  exact hfold r.failures [] [] ⟨.nil, nofun, fun _ => rfl⟩

/-- A device has a group if it has an error, and its group holds its errors. -/
theorem Grouped.mem_iff {failures : List Failure} (h : Grouped failures groups)
    {errors : List DeviceError} : (label, errors) ∈ groups ↔
      errors ≠ [] ∧ errors = (failures.filter (·.device = label)).map Failure.error := by
  have hgroup : ∀ {errors}, (label, errors) ∈ groups → errorsOf label groups = errors := by
    intro errors hmem
    obtain ⟨before, after, rfl⟩ := List.append_of_mem hmem
    obtain ⟨-, hafter, hcross⟩ := List.pairwise_append.mp h.sorted
    have hbefore : ∀ x ∈ before, x.1 ≠ label := fun x hx =>
      String.ne_of_lt (hcross x hx _ List.mem_cons_self)
    have hlater : ∀ x ∈ after, x.1 ≠ label := fun x hx =>
      (String.ne_of_lt ((List.pairwise_cons.mp hafter).1 x hx)).symm
    have hleft : errorsOf label before = [] := errorsOf_eq_nil hbefore
    rw [errorsOf, List.flatMap_append, ← errorsOf, hleft, ← errorsOf, errorsOf_cons,
      errorsOf_eq_nil hlater, if_pos rfl, List.append_nil, List.nil_append]
  constructor
  · intro hmem
    exact ⟨h.nonempty _ hmem, (hgroup hmem).symm.trans (h.errors label)⟩
  · rintro ⟨hne, herrors⟩
    rw [← h.errors label] at herrors
    obtain ⟨e, he⟩ := List.exists_mem_of_ne_nil _ hne
    rw [herrors, errorsOf] at he
    obtain ⟨g, hg, he⟩ := List.mem_flatMap.mp he
    by_cases hlabel : g.1 = label
    · obtain ⟨l, es⟩ := g
      obtain rfl : l = label := hlabel
      rw [herrors, hgroup hg]
      exact hg
    · rw [if_neg hlabel] at he
      exact absurd he List.not_mem_nil

end RunResult

end Lightshow
