import Lightshow.Proofs.Run.Journal
import Lightshow.Run.Activity

/-!
# What the parts of a run write

The world knows a few operations, and the parts of a run are put together from them.  Here we
say, once for each of these parts, what it leaves in the journal and how it leaves the world:
the settling of a call, the announcement of a transition, a pause, the entering of a loop.  What
follows about runs is read off these descriptions, and not off the definitions.

## Main definitions

* `DeviceError.isFatal`, `Call.fatal?`, `Call.failure?` — what an error is for the run.
* `lookup` — the entries of a reference that is looked up.
* `Transition.named` — the devices that a transition names.

## Main results

* `Flow.merge_mem`, `Flow.isFatal_merge`, `Flow.eq_completed_of_merge` — how parts end as a
  whole.
* `Queue.settle_cases` — a call comes to nothing more, to a failure, or to the end of the run.
* `Activity.announce_eq`, `Activity.beginPause_eq`, `World.enterLoop_eq` — the announcement of a
  transition, a pause, and the entering of a loop.
* `Queue.see_settle`, `Activity.see_announce`, `Activity.see_beginPause` — what views show of
  them.
-/

namespace Lightshow

open World

/-! ### Flows -/

namespace Flow

variable {flows : List Flow}

/-- **Parts end as a whole as one of them ended, unless all of them are completed.** -/
theorem merge_mem (h : merge flows ≠ completed) : merge flows ∈ flows := by
  revert h
  unfold merge
  split
  · next flow hflow => exact fun _ => List.mem_of_find?_eq_some hflow
  · split
    · next hc => exact fun _ => List.contains_iff_mem.mp hc
    · exact fun h => absurd rfl h

/-- An error that ends the run is not lost. -/
theorem isFatal_merge {flow : Flow} (hmem : flow ∈ flows) (hf : flow.isFatal = true) :
    (merge flows).isFatal = true := by
  unfold merge
  split
  · next found hfound => exact List.find?_some hfound
  · next hnone => exact absurd hf (List.find?_eq_none.mp hnone flow hmem)

/-- Parts are completed as a whole only if all of them are. -/
theorem eq_completed_of_merge (h : merge flows = completed) : ∀ flow ∈ flows, flow = completed := by
  intro flow hmem
  cases flow with
  | completed => rfl
  | cancelled =>
    revert h
    unfold merge
    split
    · next found hfound =>
      rintro rfl
      exact absurd (List.find?_some hfound) nofun
    · rw [if_pos (List.contains_iff_mem.mpr hmem)]
      exact nofun
  | fatal cause =>
    have hfatal := isFatal_merge hmem rfl
    rw [h] at hfatal
    exact absurd hfatal nofun

end Flow

/-! ### Calls -/

/-- Whether an error leaves no way on for the run. -/
def DeviceError.isFatal : DeviceError → Bool
  | .gateway cause => cause.isFatal
  | _ => false

namespace Call

/-- What ends the run if a call comes to an error. -/
def fatal? (c : Call) : Option DeviceError → Option RunError
  | some (.gateway cause) =>
    if cause.isFatal then some (.gateway c.device.label cause) else none
  | _ => none

/-- The failure that is recorded if a call comes to an error. -/
def failure? (c : Call) : Option DeviceError → Option Failure
  | some e => if e.isFatal then none else some ⟨c.device.label, c.path.text, e⟩
  | none => none

/-- The event that shows what a call came to. -/
def applied (c : Call) (error : Option DeviceError) : Event :=
  .applied c.path.text c.device.label (error.map DeviceError.message)

end Call

namespace Queue

variable {env : Environment} {c : Call} {result : Except DeviceError Unit} {w : World}

/-- The world after the result of a call is shown. -/
def shown (env : Environment) (c : Call) (error : Option DeviceError) (w : World) : World :=
  (w.note (.settled c error)).emit env (c.applied error)

/-- **A call comes to nothing more, to a failure, or to the end of the run.** -/
theorem settle_cases (env : Environment) (c : Call) (result : Except DeviceError Unit)
    (w : World) :
    (error? result = none ∧ settle env c result w = (none, shown env c none w)) ∨
      (∃ e, error? result = some e ∧ e.isFatal = false ∧
        settle env c result w = (none,
          (shown env c (some e) w).record ⟨c.device.label, c.path.text, e⟩)) ∨
      ∃ cause, error? result = some (.gateway cause) ∧ cause.isFatal = true ∧
        settle env c result w = (some (.fatal (.gateway c.device.label cause)),
          (shown env c (some (.gateway cause)) w).fail (.gateway c.device.label cause)) := by
  rcases result with e | ⟨⟩
  · cases e with
    | gateway cause =>
      cases hf : cause.isFatal with
      | true =>
        refine .inr (.inr ⟨cause, rfl, hf, ?_⟩)
        simp only [settle, hf, if_true]
        rfl
      | false =>
        refine .inr (.inl ⟨_, rfl, hf, ?_⟩)
        simp only [settle, hf]
        rfl
    | _ => exact .inr (.inl ⟨_, rfl, rfl, rfl⟩)
  · exact .inl ⟨rfl, rfl⟩

/-- A failure of a device does not end the run. -/
theorem fatal?_eq_none {e : DeviceError} (h : e.isFatal = false) : c.fatal? (some e) = none := by
  cases e with
  | gateway cause => exact if_neg (Bool.eq_false_iff.mp h)
  | _ => rfl

/-- A call ends its queue only with what ends the run. -/
theorem settle_flow (env : Environment) (c : Call) (result : Except DeviceError Unit)
    (w : World) : (settle env c result w).1 = (c.fatal? (error? result)).map Flow.fatal := by
  rcases settle_cases env c result w with ⟨he, h⟩ | ⟨e, he, hf, h⟩ | ⟨cause, he, hf, h⟩
  · rw [h, he]
    rfl
  · rw [h, he, fatal?_eq_none hf]
    rfl
  · rw [h, he]
    simp [Call.fatal?, hf]

theorem see_settle {α : Type} {view : Entry → Option α} (hv : view .cancelled = none) :
    (settle env c result w).2.see view = w.see view
      ++ ((view (.settled c (error? result))).toList
        ++ (view (.event (c.applied (error? result)))).toList
        ++ ((c.fatal? (error? result)).bind fun cause => view (.halted cause)).toList
        ++ ((c.failure? (error? result)).bind fun f => view (.failed f)).toList) := by
  have hshown : ∀ error, (shown env c error w).see view = w.see view ++
      (view (.settled c error)).toList ++ (view (.event (c.applied error))).toList := by
    intro error
    rw [shown, see_emit _ _ hv, see_note]
  rcases settle_cases env c result w with ⟨he, h⟩ | ⟨e, he, hf, h⟩ | ⟨cause, he, hf, h⟩
  · rw [h, he, hshown]
    simp [Call.fatal?, Call.failure?]
  · rw [h, he, see_record, hshown]
    simp [fatal?_eq_none hf, Call.failure?, hf]
  · rw [h, he, see_fail, hshown]
    simp [Call.fatal?, Call.failure?, DeviceError.isFatal, hf]

end Queue

/-! ### Transitions -/

/-- The devices that a reference means, if it means any. -/
def DeviceRef.means (resolve : DeviceRef → Except Unmapped (List Device)) (r : DeviceRef) :
    List Device :=
  match resolve r with
  | .ok devices => devices
  | .error _ => []

/-- The devices that a transition names, as often as it names them.  A reference that means
nothing names none. -/
def Transition.named (resolve : DeviceRef → Except Unmapped (List Device)) (t : Transition) :
    List Device := (t.devices.getD [.allInputs]).flatMap (DeviceRef.means resolve)

/-- The failure of a reference of a transition that means no device. -/
def DeviceRef.failure? (resolve : DeviceRef → Except Unmapped (List Device)) (path : Path)
    (r : DeviceRef) : Option Failure :=
  match resolve r with
  | .ok _ => none
  | .error cause => some ⟨r.text, path.text, .unresolved cause⟩

/-- What is written when a reference is looked up. -/
def lookup (resolve : DeviceRef → Except Unmapped (List Device)) (path : Path) (r : DeviceRef) :
    List Entry :=
  .resolved r :: ((r.failure? resolve path).map Entry.failed).toList

namespace Activity

variable {env : Environment} {path : Path}

/-- Looking up references gathers what they mean, and writes. -/
theorem resolveAll_eq (refs : List DeviceRef) : ∀ (queues : List (Device × Nat)) (w : World),
    resolveAll env path refs queues w
      = ((refs.flatMap (DeviceRef.means env.resolve)).foldl count queues,
          w.notes (refs.flatMap (lookup env.resolve path))) := by
  induction refs with
  | nil => exact fun queues w => rfl
  | cons r refs ih =>
    intro queues w
    rw [List.flatMap_cons, List.foldl_append, List.flatMap_cons, resolveAll]
    cases h : env.resolve r with
    | ok devices =>
      simp only [ih, DeviceRef.means, lookup, DeviceRef.failure?, h]
      rfl
    | error cause =>
      simp only [ih, DeviceRef.means, lookup, DeviceRef.failure?, h]
      rfl

/-- The devices that a transition names, each with the number of times it is to be served. -/
def announced (env : Environment) (t : Transition) : List (Device × Nat) :=
  (t.named env.resolve).foldl count []

theorem announce_eq (env : Environment) (path : Path) (t : Transition) (w : World) :
    announce env path t w
      = (announced env t,
          ((w.note (.dispatched path t)).notes
            ((references t).flatMap (lookup env.resolve path))).emit env
              (.transition path.text ((announced env t).map (·.1.label)))) := by
  rw [announce, resolveAll_eq]
  rfl

theorem see_announce {α : Type} {view : Entry → Option α} (hv : view .cancelled = none)
    (t : Transition) (w : World) : (announce env path t w).2.see view
      = w.see view ++ ((view (.dispatched path t)).toList
        ++ (references t).flatMap (fun r => (lookup env.resolve path r).filterMap view)
        ++ (view (.event (.transition path.text ((announced env t).map (·.1.label))))).toList) := by
  rw [announce_eq, see_emit _ _ hv, see_notes, see_note, List.filterMap_flatMap]
  simp only [List.append_assoc]

/-- Looking up references is not seen by a view that shows neither them nor failures. -/
theorem lookup_filterMap {α : Type} {view : Entry → Option α} (hr : ∀ r, view (.resolved r) = none)
    (hf : ∀ f, view (.failed f) = none) (refs : List DeviceRef) :
    refs.flatMap (fun r => (lookup env.resolve path r).filterMap view) = [] := by
  refine List.flatMap_eq_nil_iff.mpr fun r _ => ?_
  rw [lookup, List.filterMap_cons, hr]
  cases r.failure? env.resolve path with
  | none => rfl
  | some f => simp [hf]

/-- A view that shows neither the look-up of references nor failures. -/
theorem see_announce_blind {α : Type} {view : Entry → Option α} (hv : view .cancelled = none)
    (hr : ∀ r, view (.resolved r) = none) (hf : ∀ f, view (.failed f) = none) (t : Transition)
    (w : World) : (announce env path t w).2.see view
      = w.see view ++ ((view (.dispatched path t)).toList
        ++ (view (.event (.transition path.text ((announced env t).map (·.1.label))))).toList) := by
  rw [see_announce hv, lookup_filterMap hr hf, List.append_nil]

/-- A view that shows nothing of a transition that is dispatched. -/
theorem see_announce_none {α : Type} {view : Entry → Option α} (hv : view .cancelled = none)
    (hr : ∀ r, view (.resolved r) = none) (hf : ∀ f, view (.failed f) = none)
    (hd : ∀ p t, view (.dispatched p t) = none)
    (he : ∀ p ds, view (.event (.transition p ds)) = none) (t : Transition) (w : World) :
    (announce env path t w).2.see view = w.see view := by
  rw [see_announce_blind hv hr hf, hd, he]
  exact List.append_nil _

@[simp] theorem announce_devices (env : Environment) (path : Path) (t : Transition) (w : World) :
    (announce env path t w).1 = announced env t := by rw [announce_eq]

/-- A pause is drawn and announced; then its time begins to pass. -/
theorem beginPause_eq (env : Environment) (path : Path) (o : TimeOption) (w : World) :
    ∃ (draws : List Draw) (span : Duration),
      beginPause env path (some o) w
        = beginSleep span ((w.notes (draws.map Entry.drew)).emit env
            (.paused path.text span.toSeconds)) := by
  rw [beginPause, drawDuration]
  cases o.jitter with
  | none => exact ⟨[], o.duration 0, rfl⟩
  | some j => exact ⟨[.real j.min j.max], _, rfl⟩

@[simp] theorem beginSleep_world (span : Duration) (w : World) : (beginSleep span w).2 = w := rfl

/-- A span is given up if the run is to halt; otherwise it is over or goes on. -/
theorem pollSleep_activity (wake : Instant) (w : World) {P : Activity → Prop}
    (hcancelled : w.halted = true → P (.ended .cancelled))
    (hcompleted : w.halted = false → P (.ended .completed))
    (hsleeping : w.halted = false → ∀ t, P (.sleeping t)) : P (pollSleep wake w) := by
  unfold pollSleep
  split
  · next hw => exact hcancelled hw
  · next hw =>
    have hw := Bool.eq_false_iff.mpr hw
    split
    · exact hcompleted hw
    · exact hsleeping hw _

/-- So is the span of a pause. -/
theorem beginPause_activity (env : Environment) (path : Path) (o : TimeOption) (w : World)
    {P : Activity → Prop}
    (hcancelled : (beginPause env path (some o) w).2.halted = true → P (.ended .cancelled))
    (hcompleted : (beginPause env path (some o) w).2.halted = false → P (.ended .completed))
    (hsleeping : (beginPause env path (some o) w).2.halted = false → ∀ t, P (.sleeping t)) :
    P (beginPause env path (some o) w).1 := by
  obtain ⟨draws, span, h⟩ := beginPause_eq env path o w
  rw [h, beginSleep_world] at hcancelled hcompleted hsleeping
  rw [h]
  exact pollSleep_activity _ _ hcancelled hcompleted hsleeping

/-- Where an activity that has ended and a span have nothing, a pause has nothing. -/
theorem beginPause_nil {β : Type} (f : Activity → List β) (hended : ∀ flow, f (.ended flow) = [])
    (hsleeping : ∀ t, f (.sleeping t) = []) (env : Environment) (path : Path) (o : TimeOption)
    (w : World) : f (beginPause env path (some o) w).1 = [] :=
  beginPause_activity (P := (f · = [])) env path o w (fun _ => hended _) (fun _ => hended _)
    fun _ => hsleeping

theorem pollSleep_nil {β : Type} (f : Activity → List β) (hended : ∀ flow, f (.ended flow) = [])
    (hsleeping : ∀ t, f (.sleeping t) = []) (wake : Instant) (w : World) :
    f (pollSleep wake w) = [] :=
  pollSleep_activity (P := (f · = [])) wake w (fun _ => hended _) (fun _ => hended _)
    fun _ => hsleeping

theorem see_beginPause {α : Type} (env : Environment) (path : Path) (view : Entry → Option α)
    (hv : view .cancelled = none) (hd : ∀ d, view (.drew d) = none) (o : TimeOption) (w : World) :
    ∃ seconds, (beginPause env path (some o) w).2.see view
      = w.see view ++ (view (.event (.paused path.text seconds))).toList := by
  obtain ⟨draws, span, h⟩ := beginPause_eq env path o w
  refine ⟨span.toSeconds, ?_⟩
  rw [h, beginSleep_world, see_emit _ _ hv, see_draws w hd]

/-- A view that shows nothing of pauses. -/
theorem see_beginPause_none {α : Type} {view : Entry → Option α} (hv : view .cancelled = none)
    (hd : ∀ d, view (.drew d) = none) (hp : ∀ p s, view (.event (.paused p s)) = none)
    (o : TimeOption) (w : World) : (beginPause env path (some o) w).2.see view = w.see view := by
  obtain ⟨seconds, hsee⟩ := see_beginPause env path view hv hd o w
  rw [hsee, hp]
  exact List.append_nil _

end Activity

/-! ### Loops -/

/-- The number for a loop is drawn when the loop is entered. -/
theorem World.enterLoop_eq (env : Environment) (mode : LoopMode) (w : World) :
    ∃ (draws : List Draw) (times : UInt64),
      (∀ min max, mode.draw? = some (min, max) → ∃ k, times = env.random.whole k min max) ∧
        w.enterLoop env mode
          = (mode.bound env.zone w.now (env.wall w.now) times, w.notes (draws.map Entry.drew)) := by
  rw [enterLoop]
  cases mode.draw? with
  | none => exact ⟨[], 0, nofun, rfl⟩
  | some range =>
    refine ⟨[.whole range.1 range.2], _, ?_, rfl⟩
    rintro min max ⟨⟩
    exact ⟨_, rfl⟩

theorem World.see_enterLoop {α : Type} {view : Entry → Option α}
    (hd : ∀ d, view (.drew d) = none) {env : Environment} {mode : LoopMode} {w w' : World}
    {result : Except LoopError Bound} (h : w.enterLoop env mode = (result, w')) :
    w'.see view = w.see view := by
  obtain ⟨draws, drawn, -, heq⟩ := World.enterLoop_eq env mode w
  rw [heq] at h
  obtain ⟨-, rfl⟩ := Prod.mk.inj h
  exact see_draws w hd draws

end Lightshow
