import Lightshow.Proofs.Device.Listed
import Lightshow.Proofs.Device.Missing
import Lightshow.Proofs.Run.Errands

/-!
# References that mean nothing

The references of a program are gathered before it runs and checked against the roster.  While it
runs, each transition looks its references up anew whenever it is dispatched.  The two are brought
together here.

What is gathered are the references that the transitions list, so if the check finds nothing, no
look-up fails.  When one fails all the same, the failure is written down right there: between one
transition that is dispatched and the next, failures of this kind are just those of the first
transition's references, in their order and as often as they stand there.  The devices that the
other references mean are served as if nothing had happened.

## Main definitions

* `Entry.unresolved?` — the failure of a reference, if an entry records one.
* `World.Searched` — failures of references follow the transitions that list them.

## Main results

* `Step.mem_references` — what is gathered is what the transitions list.
* `Program.Reaches.searched` — the failures of references in a run follow the transitions.
* `Program.Reaches.unresolved_since` — a transition fails once for each reference that means
  nothing.
* `Program.resolve_as_checked` — **checking ahead and running agree.**
-/

namespace Lightshow

open World

variable {env : Environment}

/-! ### The references of a tree -/

/-- **What is gathered of a program is what its transitions list.** -/
theorem Step.mem_references {p : Program} {r : DeviceRef} :
    r ∈ p.step.references ↔ ∃ d ∈ p.transitions, r ∈ d.2.devices.getD [] := by
  rw [Step.mem_references_iff]
  constructor
  · rintro ⟨⟨path, n⟩, hx, hr⟩
    obtain ⟨t, refs, rfl, hdevices, hmem⟩ := Step.mem_own.mp hr
    exact ⟨(path, t), (Step.mem_transitionsAt _ _).mpr hx, by rwa [hdevices]⟩
  · rintro ⟨d, hd, hr⟩
    exact ⟨_, (Step.mem_transitionsAt _ _).mp hd, hr⟩

/-! ### Failures of references -/

/-- Whether an error is that of a reference. -/
def DeviceError.isUnresolved : DeviceError → Bool
  | .unresolved _ => true
  | _ => false

/-- The failure of a reference, if an entry records one. -/
def Entry.unresolved? : Entry → Option Failure
  | .failed f => if f.error.isUnresolved then some f else none
  | _ => none

/-- An entry that dispatches a transition or records the failure of a reference. -/
def Entry.searched? : Entry → Option Entry
  | .dispatched p t => some (.dispatched p t)
  | .failed f => if f.error.isUnresolved then some (.failed f) else none
  | _ => none

/-- What is written when the references of a transition are looked up. -/
def searches (env : Environment) (d : Path × Transition) : List Entry :=
  .dispatched d.1 d.2 :: (unresolved env d).map Entry.failed

/-- What is seen of references can be told from these entries. -/
theorem Entry.unresolved?_searched (e : Entry) :
    e.unresolved? = e.searched?.bind Entry.unresolved? := by
  cases e with
  | failed f =>
    simp only [unresolved?, searched?]
    split <;> simp_all [unresolved?]
  | _ => rfl

theorem Entry.dispatched?_searched (e : Entry) :
    e.dispatched? = e.searched?.bind Entry.dispatched? := by
  cases e with
  | failed f =>
    simp only [searched?]
    split <;> rfl
  | _ => rfl

/-- The failures of the references of a transition are failures of references. -/
theorem isUnresolved_of_mem {d : Path × Transition} {f : Failure} (hf : f ∈ unresolved env d) :
    f.error.isUnresolved = true := by
  obtain ⟨r, -, hr⟩ := List.mem_filterMap.mp hf
  unfold DeviceRef.failure? at hr
  split at hr <;> cases hr
  rfl

namespace World

/-- The failures of references follow the transitions that list them, each at once. -/
def Searched (env : Environment) (w : World) : Prop :=
  w.see Entry.searched? = (w.see Entry.dispatched?).flatMap (searches env)

theorem Searched.of_see {w w' : World} (h : w.Searched env)
    (hsee : w'.see Entry.searched? = w.see Entry.searched?) : w'.Searched env := by
  rw [Searched, hsee, see_of_base Entry.dispatched?_searched hsee]
  exact h

/-- A call that is settled does not come to the error of a reference. -/
theorem Searched.settle {w : World} (h : w.Searched env) (c : Call)
    {result : Except DeviceError Unit}
    (hresult : ∀ e, Queue.error? result = some e → e.isUnresolved = false) :
    (Queue.settle env c result w).2.Searched env := by
  refine h.of_see ?_
  rw [Queue.see_settle rfl]
  have hfailure : ((c.failure? (Queue.error? result)).bind fun f => (Entry.failed f).searched?)
      = none := by
    refine Option.bind_eq_none_iff.mpr fun f hf => ?_
    cases herror : Queue.error? result with
    | none =>
      rw [herror] at hf
      cases hf
    | some e =>
      rw [herror, Call.failure?] at hf
      split at hf <;> cases hf
      simp [Entry.searched?, hresult e herror]
  rw [hfailure]
  simp [Entry.searched?]

/-- The references of a transition that is dispatched are looked up at once. -/
theorem Searched.announce {w : World} (h : w.Searched env) (path : Path) (t : Transition) :
    (Activity.announce env path t w).2.Searched env := by
  have hdispatched : (Activity.announce env path t w).2.see Entry.dispatched?
      = w.see Entry.dispatched? ++ [(path, t)] := by
    rw [Activity.see_announce_blind rfl (fun _ => rfl) fun _ => rfl]
    rfl
  have hlookup : ∀ r, (lookup env.resolve path r).filterMap Entry.searched?
      = ((r.failure? env.resolve path).map Entry.failed).toList := by
    intro r
    rw [lookup, DeviceRef.failure?]
    cases env.resolve r <;> rfl
  have hlookups : (Activity.references t).flatMap (fun r =>
      (lookup env.resolve path r).filterMap Entry.searched?)
        = (unresolved env (path, t)).map Entry.failed := by
    rw [unresolved, List.map_filterMap, List.filterMap_eq_flatMap_toList]
    exact List.flatMap_congr fun r _ => hlookup r
  rw [Searched, hdispatched, Activity.see_announce rfl, h, List.flatMap_append, hlookups]
  simp [Entry.searched?, searches]

end World

/-- What the gateway answers is no error of a reference. -/
theorem Call.ComesTo.not_unresolved {c : Call} {outcome : Dispatch} {error : Option DeviceError}
    (h : c.ComesTo env outcome error) : ∀ e, error = some e → e.isUnresolved = false := by
  intro e he
  cases h with
  | done | unread => cases he
  | failed | late =>
    cases he
    rfl
  | told span ack =>
    cases ack <;> cases he <;> rfl

/-- A call that has just been settled came to what the gateway answered. -/
theorem World.Answered.settled {w : World} {c : Call} {result : Except DeviceError Unit}
    (h : (Queue.settle env c result w).2.Answered env) :
    ∀ e, Queue.error? result = some e → e.isUnresolved = false := by
  have hmem : (c, Queue.error? result) ∈ (Queue.settle env c result w).2.see Entry.settled? := by
    rw [Queue.see_settle rfl]
    exact List.mem_append_right _ (by simp [Entry.settled?])
  obtain ⟨outcome, -, hcomes⟩ := h _ hmem
  exact hcomes.not_unresolved

theorem Queue.Move.searched {q q' : Queue} {w w' : World} (h : Queue.Move env q w q' w')
    (hw : w.Searched env) (hanswered : w'.Answered env) : w'.Searched env := by
  cases h with
  | finish => exact hw
  | halt => exact hw
  | call => exact hw.of_see (see_call_none _ _ rfl rfl)
  | await => exact hw.of_see (see_note_none _ rfl)
  | answer => exact (hw.of_see (see_note_none _ rfl)).settle _ hanswered.settled
  | acknowledge => exact hw.settle _ hanswered.settled

theorem Activity.Move.searched {a a' : Activity} {w w' : World} (h : Activity.Move env a w a' w')
    (hw : w.Searched env) (hanswered : w'.Answered env) : w'.Searched env := by
  induction h with
  | pause => exact hw.of_see (see_beginPause_none rfl (fun _ => rfl) (fun _ _ => rfl) _ _)
  | dispatch => exact hw.announce _ _
  | serve _ _ hq => exact hq.searched hw hanswered
  | first _ ih => exact ih hw hanswered
  | branch _ _ _ ih => exact ih hw hanswered
  | inside _ ih => exact ih hw hanswered
  | bar he =>
    refine hw.of_see ?_
    rw [see_fail_none _ rfl, see_note_none _ rfl, see_enterLoop (fun _ => rfl) he]
  | enter he =>
    refine hw.of_see ?_
    rw [see_note_none _ rfl, see_enterLoop (fun _ => rfl) he]
  | expire => exact hw.of_see (see_note_none _ rfl)
  | begin => exact hw.of_see (see_emit_none _ _ rfl rfl)
  | again => exact hw.of_see rfl
  | _ => exact hw

namespace Program

variable {p : Program} {m : Machine}

/-- **The failures of references in a run follow the transitions that list them.** -/
theorem Reaches.searched (h : p.Reaches env m) : m.world.Searched env := by
  induction h with
  | refl =>
    rw [start_world, Searched, see_firstWorld rfl, see_firstWorld rfl]
    rfl
  | tail hprev hmove ih =>
    have hreaches : p.Reaches env _ := Relation.ReflTransGen.tail hprev hmove
    cases hmove with
    | act ha => exact ha.searched ih hreaches.answered
    | wait a w t => exact ih.of_see rfl
    | turn a w => exact ih.of_see rfl
    | cancel a w due => exact ih.of_see (see_cancelIf w rfl due)

end Program

/-! ### One time that a transition is dispatched -/

/-- After a transition that is dispatched stand the failures of its references, and then other
transitions. -/
theorem searches_split {path : Path} {t : Transition} {since : List Entry}
    (ds : List (Path × Transition)) : ∀ {before : List Entry},
      ds.flatMap (searches env) = before ++ .dispatched path t :: since →
        ∃ ds' : List (Path × Transition),
          since = (unresolved env (path, t)).map Entry.failed ++ ds'.flatMap (searches env) := by
  induction ds with
  | nil =>
    intro before h
    cases before <;> cases h
  | cons d ds ih =>
    intro before h
    rw [List.flatMap_cons, searches, List.cons_append] at h
    cases before with
    | nil =>
      obtain ⟨hd, rfl⟩ := List.cons.inj h
      cases hd
      exact ⟨ds, rfl⟩
    | cons e before =>
      obtain ⟨-, h⟩ := List.cons.inj h
      rcases List.append_eq_append_iff.mp h with ⟨rest, -, h⟩ | ⟨rest, hfailed, h⟩
      · exact ih h
      · -- the transition would have to be one of the failures
        cases rest with
        | nil => exact @ih [] h.symm
        | cons e' rest =>
          obtain ⟨rfl, -⟩ := List.cons.inj h
          have hmem : Entry.dispatched path t ∈ (unresolved env d).map Entry.failed :=
            hfailed ▸ List.mem_append_right _ List.mem_cons_self
          obtain ⟨f, -, hf⟩ := List.mem_map.mp hmem
          cases hf

/-- The failures of the references of a transition are seen as such. -/
theorem failed_unresolved (d : Path × Transition) :
    ((unresolved env d).map Entry.failed).filterMap Entry.unresolved? = unresolved env d := by
  rw [List.filterMap_map]
  refine (List.filterMap_congr fun f hf => ?_).trans List.filterMap_some
  exact if_pos (isUnresolved_of_mem hf)

theorem searches_unresolved (ds : List (Path × Transition)) :
    (ds.flatMap (searches env)).filterMap Entry.unresolved? = ds.flatMap (unresolved env) := by
  rw [List.filterMap_flatMap]
  exact List.flatMap_congr fun d _ => failed_unresolved d

theorem failed_dispatched (fs : List Failure) :
    (fs.map Entry.failed).filterMap Entry.dispatched? = [] := by
  rw [List.filterMap_map]
  exact List.filterMap_eq_nil_iff.mpr fun f _ => rfl

theorem searches_dispatched (ds : List (Path × Transition)) :
    (ds.flatMap (searches env)).filterMap Entry.dispatched? = ds := by
  have hsingle : ∀ d : Path × Transition,
      (searches env d).filterMap Entry.dispatched? = [d] := by
    intro d
    show (d.1, d.2) :: ((unresolved env d).map Entry.failed).filterMap Entry.dispatched? = [d]
    rw [failed_dispatched]
  rw [List.filterMap_flatMap, funext hsingle, List.flatMap_singleton']

namespace Program

variable {p : Program} {m : Machine} {before since : List Entry} {path : Path} {t : Transition}

/-- **A transition that is dispatched fails once for each reference that means nothing.** -/
theorem Reaches.unresolved_since (h : p.Reaches env m)
    (hsplit : m.world.entries = before ++ .dispatched path t :: since) :
    since.filterMap Entry.unresolved? = unresolved env (path, t)
      ++ (since.filterMap Entry.dispatched?).flatMap (unresolved env) := by
  have hsearched := h.searched
  rw [Searched, see, hsplit, List.filterMap_append] at hsearched
  obtain ⟨ds, hds⟩ := searches_split _ hsearched.symm
  have hunresolved : since.filterMap Entry.unresolved?
      = (since.filterMap Entry.searched?).filterMap Entry.unresolved? := by
    rw [List.filterMap_filterMap]
    exact List.filterMap_congr fun e _ => e.unresolved?_searched
  have hdispatched : since.filterMap Entry.dispatched?
      = (since.filterMap Entry.searched?).filterMap Entry.dispatched? := by
    rw [List.filterMap_filterMap]
    exact List.filterMap_congr fun e _ => e.dispatched?_searched
  rw [hunresolved, hdispatched, hds, List.filterMap_append, List.filterMap_append,
    failed_unresolved, searches_unresolved, searches_dispatched, failed_dispatched,
    List.nil_append]

/-- The calls that are made for a transition take its state to the devices. -/
theorem Reaches.state_of_call (h : p.Reaches env m)
    (hsplit : m.world.entries = before ++ .dispatched path t :: since) :
    ∀ c ∈ since.filterMap Entry.call?, c.path = path → c.state = t.state := by
  rintro c hc rfl
  have hcall : c ∈ m.world.see Entry.call? := by
    rw [see, hsplit, List.filterMap_append]
    exact List.mem_append_right _ hc
  have hdispatched : (c.path, t) ∈ m.world.see Entry.dispatched? := by
    rw [see, hsplit, List.filterMap_append]
    exact List.mem_append_right _ List.mem_cons_self
  obtain ⟨t', hmem, hstate, -⟩ := h.belongs.calls c hcall
  have haccounted := Machine.Moves.accounted h (start_accounted env p)
  rw [hstate, transitions_unique hmem (haccounted.dispatched _ hdispatched)]

/-! ### Checking ahead -/

variable {roster : Roster}

/-- If nothing is missing, and there are inputs where a transition lists nothing, then all
references of the transitions mean something. -/
theorem references_resolve
    (hlisted : (∀ d ∈ p.transitions, d.2.devices.isSome) ∨ roster.inputs ≠ [])
    (hlights : roster.missingLights p.step.references = [])
    (hgroups : roster.missingGroups p.step.references = [])
    (hinputs : roster.missingInputs p.step.references = []) :
    ∀ d ∈ p.transitions, ∀ r ∈ Activity.references d.2,
      ∃ devices, roster.resolve r = .ok devices := by
  intro d hd r hr
  cases hdevices : d.2.devices with
  | some refs =>
    refine roster.resolves_of_missing hlights hgroups hinputs r (Step.mem_references.mpr ?_)
    rw [Activity.references, hdevices] at hr
    exact ⟨d, hd, hdevices ▸ hr⟩
  | none =>
    rw [Activity.references, hdevices] at hr
    obtain rfl := List.mem_singleton.mp hr
    have hsome : roster.inputs ≠ [] := by
      refine hlisted.resolve_left fun h => ?_
      have hsome := h d hd
      rw [hdevices] at hsome
      cases hsome
    refine roster.resolves_of_not_lacks ?_
    rw [Roster.lacks_allInputs]
    exact Bool.eq_false_iff.mpr fun h => hsome (List.isEmpty_iff.mp h)

/-- A run in which all references mean something records no failure of a reference. -/
theorem Reaches.unresolved_eq_nil (h : p.Reaches env m)
    (hresolve : ∀ d ∈ p.transitions, ∀ r ∈ Activity.references d.2,
      ∃ devices, env.resolve r = .ok devices) : m.world.see Entry.unresolved? = [] := by
  have haccounted := Machine.Moves.accounted h (start_accounted env p)
  rw [see_factor m.world Entry.unresolved?_searched, h.searched, searches_unresolved]
  refine List.flatMap_eq_nil_iff.mpr fun d hd => List.filterMap_eq_nil_iff.mpr fun r hr => ?_
  obtain ⟨devices, hdevices⟩ := hresolve d (haccounted.dispatched d hd) r hr
  rw [DeviceRef.failure?, hdevices]

/-- So does a run that has stopped. -/
theorem Returns.not_unresolved {result : RunResult} {w : World} (h : p.Returns env result w)
    (hresolve : ∀ d ∈ p.transitions, ∀ r ∈ Activity.references d.2,
      ∃ devices, env.resolve r = .ok devices) :
    ∀ f ∈ result.failures, f.error.isUnresolved = false := by
  obtain ⟨flow, w', hreach, hresult⟩ := h
  obtain ⟨rfl, -⟩ := Prod.mk.inj hresult
  have hnone : w'.see Entry.unresolved? = [] := Reaches.unresolved_eq_nil hreach hresolve
  intro f hf
  have hmem : f ∈ w'.journal.failures := hf
  rw [Journal.failures_eq] at hmem
  obtain ⟨e, he, hfailure⟩ := List.mem_filterMap.mp hmem
  have hunseen := List.filterMap_eq_nil_iff.mp hnone e he
  cases e <;> cases hfailure
  simpa [Entry.unresolved?] using hunseen

/-- The failures of the references of a transition are those of the references that mean nothing. -/
theorem unresolved_device (henv : env.resolve = roster.resolve) (d : Path × Transition) :
    (unresolved env d).map Failure.device
      = ((Activity.references d.2).filter roster.lacks).map DeviceRef.text := by
  rw [unresolved, henv, List.map_filterMap, ← List.filterMap_eq_map, List.filterMap_filter]
  refine List.filterMap_congr fun r _ => ?_
  rw [DeviceRef.failure?, Roster.lacks]
  cases roster.resolve r <;> rfl

/-- **Checking ahead and running agree.**  If the check of a program finds nothing missing, and
there are inputs where a transition lists nothing, no run of the program records that a reference
means nothing.  What the check finds are just the references that mean nothing, each by the check
of its kind, in their order and as often as they stand there.  And whenever a transition is
dispatched, just these references of it are recorded, each as often as it is listed, while the
devices that its other references mean are served with its state, all of them unless the run is
to halt. -/
theorem resolve_as_checked (henv : env.resolve = roster.resolve) (p : Program) :
    ((∀ d ∈ p.transitions, d.2.devices.isSome) ∨ roster.inputs ≠ [] →
      roster.missingLights p.step.references = [] →
      roster.missingGroups p.step.references = [] →
      roster.missingInputs p.step.references = [] →
        (∀ {m}, p.Reaches env m → m.world.see Entry.unresolved? = []) ∧
        ∀ {result w}, p.Returns env result w →
          ∀ f ∈ result.failures, f.error.isUnresolved = false) ∧
    (∀ refs,
      roster.missingLights refs = (refs.filter roster.lacks).filterMap DeviceRef.light? ∧
      roster.missingGroups refs = (refs.filter roster.lacks).filterMap DeviceRef.group? ∧
      roster.missingInputs refs = (refs.filter roster.lacks).filter DeviceRef.isInput) ∧
    ∀ {m before since path t}, p.Reaches env m →
      m.world.entries = before ++ .dispatched path t :: since →
        (since.filterMap Entry.unresolved? = unresolved env (path, t)
          ++ (since.filterMap Entry.dispatched?).flatMap (unresolved env) ∧
        (unresolved env (path, t)).map Failure.device
          = ((Activity.references t).filter roster.lacks).map DeviceRef.text) ∧
        (∀ c ∈ since.filterMap Entry.call?, c.path = path → c.state = t.state) ∧
        ((∀ t', .dispatched path t' ∉ since) → m.world.halted = false →
          (∀ q ∈ m.activity.serving, q.place? ≠ some path) →
            (since.filterMap (Entry.callAt? path)).Perm (t.named roster.resolve)) ∧
        ∀ {middle after t'}, since = middle ++ .dispatched path t' :: after →
          (∀ t'', .dispatched path t'' ∉ middle) →
            (middle.filterMap (Entry.callAt? path)).Perm (t.named roster.resolve) := by
  refine ⟨fun hlisted hlights hgroups hinputs => ?_, fun refs => ⟨roster.missingLights_eq refs,
    roster.missingGroups_eq refs, roster.missingInputs_eq refs⟩, fun h hsplit => ?_⟩
  · have hresolve := references_resolve hlisted hlights hgroups hinputs
    rw [← henv] at hresolve
    exact ⟨fun h => h.unresolved_eq_nil hresolve, fun h => h.not_unresolved hresolve⟩
  · rw [← henv]
    refine ⟨⟨h.unresolved_since hsplit, unresolved_device henv _⟩, h.state_of_call hsplit,
      fun hlast hgoing hover => (h.calls_since hsplit hlast).2 hgoing hover, ?_⟩
    rintro middle after t' rfl hlast
    exact h.calls_between hsplit hlast

/-- A program that lights some inputs. -/
def inputs (refs : List DeviceRef) : Program :=
  ⟨none, .transition { state := { on := some true }, devices := some refs }⟩

/-- With one input bound, the first input is found and served, and the second one is found missing
beforehand and fails as often as it is listed. -/
theorem inputs_resolve_as_checked :
    let lamp : Device := ⟨.light, 1, "lamp"⟩
    let roster : Roster := { inputs := [lamp] }
    let env := { Environment.plain with resolve := roster.resolve }
    let refs : List DeviceRef := [.input 2, .input 1, .input 2]
    env.resolve = roster.resolve ∧
      (∀ {m}, (inputs [.input 1]).Reaches env m → m.world.see Entry.unresolved? = []) ∧
      roster.missingInputs refs = [.input 2, .input 2] ∧
      ∃ m before since path t, (inputs refs).Reaches env m ∧
        m.world.entries = before ++ .dispatched path t :: since ∧
        (since.filterMap Entry.unresolved?).map Failure.device = ["$2", "$2"] ∧
        (since.filterMap (Entry.callAt? path)).Perm [lamp] := by
  intro lamp roster env refs
  have henv : env.resolve = roster.resolve := rfl
  obtain ⟨hchecked, -⟩ := resolve_as_checked henv (inputs [.input 1])
  obtain ⟨-, hmissing, hdispatched⟩ := resolve_as_checked henv (inputs refs)
  obtain ⟨m, hm⟩ : ∃ m, Machine.after env 3 (Machine.start env (inputs refs)) = m := ⟨_, rfl⟩
  have hreach : (inputs refs).Reaches env m := hm ▸ reaches_after 3
  have hended : m.activity.serving = [] := by
    rw [← hm]
    decide +kernel
  have hgoing : m.world.halted = false := by
    rw [← hm]
    decide +kernel
  let path := (inputs refs).step.rootPath
  let t : Transition := { state := { on := some true }, devices := some refs }
  have hsplit : m.world.entries
      = m.world.entries.take 1 ++ .dispatched path t :: m.world.entries.drop 2 := by
    rw [← hm]
    decide +kernel
  have hnone : (m.world.entries.drop 2).filterMap Entry.dispatched? = [] := by
    rw [← hm]
    decide +kernel
  have hlast : ∀ t', .dispatched path t' ∉ m.world.entries.drop 2 := by
    intro t' ht'
    exact absurd (List.filterMap_eq_nil_iff.mp hnone _ ht') nofun
  obtain ⟨⟨hfailed, hdevices⟩, -, hcalls, -⟩ := hdispatched hreach hsplit
  refine ⟨henv, (hchecked (.inr (by decide)) (by decide) (by decide) (by decide)).1,
    by decide, m, _, _, path, t, hreach, hsplit, ?_, ?_⟩
  · rw [hfailed, hnone, List.flatMap_nil, List.append_nil, hdevices]
    decide
  · exact hcalls hlast hgoing (by rw [hended]; exact fun q hq => absurd hq List.not_mem_nil)

end Program

end Lightshow
