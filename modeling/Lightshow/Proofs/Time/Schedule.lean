import Lightshow.Proofs.Language.Counted
import Lightshow.Proofs.Language.Run
import Lightshow.Proofs.Run.Errands
import Lightshow.Proofs.Time.Timetable
import Lightshow.Proofs.Time.Verdict

/-!
# Runs that differ in their schedules

How long calls take decides in which order the branches of a program go on.  Nothing else depends
on it.  Let all loops be counted, and let two gateways come to the same verdict about each device
and state, with nothing that ends a run.  Then both runs do the same, tell of the same and fail in
the same way, but for the order; and what they tell of a step in which none is parallel comes in
the same order too.

The two runs are not compared with each other.  Each of them shows a whole word of the language of
the program, and two such words have the same transitions; and each comes to what its transitions
come to, by the verdicts alone.

## Main definitions

* `Program.Finishes` — a run to its end, without cancellation, with certain verdicts.
* `Program.Accomplished` — what a run comes to is what its transitions come to.

## Main results

* `Program.exists_finishes` — there are such runs.
* `Program.Finishes.accomplished` — one run.
* `Program.independent_of_schedule` — **two runs.**
-/

namespace Lightshow

open EventLanguage World

variable {env : Environment} {verdict : Device → DeviceState → Verdict} {p : Program}

/-! ### Runs with verdicts -/

/-- What is shown to the observer, the first event first. -/
def World.shown (w : World) : List Event := w.journal.events.map Prod.snd

/-- A device is served, possibly in vain. -/
def Event.isApplied : Event → Bool
  | .applied .. => true
  | _ => false

/-- An iteration of a step or of one below it begins, or one of them is dispatched. -/
def Event.within (path : Path) (s : Step) (e : Event) : Bool :=
  (s.stepsAt path).any fun x => e.step? = some x.1.text

/-- A run of a program to its end, without cancellation, in which the gateway's replies come to
certain verdicts about devices and states. -/
structure Program.Finishes (env : Environment) (verdict : Device → DeviceState → Verdict)
    (p : Program) (result : RunResult) (w : World) : Prop where
  ends : ∃ flow w', p.Runs env ⟨.ended flow, w'⟩ ∧ flow.result env w' = (result, w)
  calm : w.cancelled = false
  gives : ∀ c r, w.Replied env c r → r.verdict env c = verdict c.device c.state

/-- What an errand comes to. -/
def Errand.error? (env : Environment) (verdict : Device → DeviceState → Verdict) (e : Errand) :
    Option DeviceError := (verdict e.device e.state).error? env e.wait

/-- What a run comes to is what the transitions come to that it dispatched. -/
structure Program.Accomplished (env : Environment) (verdict : Device → DeviceState → Verdict)
    (p : Program) (w : World) : Prop where
  shows : ∃ u, w.see Entry.event? = .started env.runId p.displayName :: u ∧
    (p.step.faults = [] → (p.language env).whole u) ∧ (p.step.faults ≠ [] → u = [])
  dispatched : ∀ d ∈ w.see Entry.dispatched?, d ∈ p.transitions
  transitions : w.see Entry.transition? = (w.see Entry.dispatched?).map (announces env)
  calls : ((w.see Entry.call?).map Call.errand).Perm
    ((w.see Entry.dispatched?).flatMap env.errands)
  applied : (w.see Entry.applied?).Perm (((w.see Entry.dispatched?).flatMap env.errands).map
    fun e => e.call.applied (e.error? env verdict))
  failures : (w.see Entry.failure?).Perm ((w.see Entry.dispatched?).flatMap (unresolved env)
    ++ ((w.see Entry.dispatched?).flatMap env.errands).filterMap
      fun e => e.call.failure? (e.error? env verdict))

namespace Program

/-- A counted loop asks for no numbers. -/
theorem bounded_of_counted {n : Step} (h : n.Counted) :
    n.Uses (fun _ => True) (LoopMode.Bounded env.random) := by
  cases n with
  | transition t => exact h
  | composite order steps loop pause =>
    obtain ⟨hmode, hrest⟩ := h
    refine ⟨fun k min max hdraw => ?_, hrest⟩
    rw [hmode] at hdraw
    exact absurd hdraw nofun

/-- What calls came to in a run with verdicts. -/
theorem settled_eq {m : Machine} (h : p.Runs env m)
    (hgives : ∀ c r, m.world.Replied env c r → r.verdict env c = verdict c.device c.state) :
    ∀ x ∈ m.world.see Entry.settled?, x.2 = x.1.errand.error? env verdict := by
  intro x hx
  obtain ⟨r, hreplied, hx⟩ := h.judged.world x hx
  rw [hx, hgives x.1 r hreplied]
  rfl

/-- **A run without faults and without harm is completed**, if all loops are counted. -/
theorem completed_of_verdicts {flow : Flow} {w : World} (h : p.Runs env ⟨.ended flow, w⟩)
    (hvalid : p.step.faults = []) (hcounted : ∀ n ∈ p.step.nodes, n.Counted)
    (hharmless : ∀ d s, (verdict d s).Harmless) (hcalm : w.cancelled = false)
    (hgives : ∀ c r, w.Replied env c r → r.verdict env c = verdict c.device c.state) :
    flow = .completed ∧ w.halted = false := by
  have herrors : w.see Entry.error? = [] := by
    refine h.reaches.errorless_of hcounted fun x hx => ?_
    rw [settled_eq h hgives x hx]
    exact (hharmless _ _).fatal? x.1 _
  refine completed_of_unruined h.reaches hcalm fun e he => ?_
  rcases ruin_iff.mp he with ⟨hfaults, -⟩ | he
  · exact hfaults hvalid
  · rw [herrors] at he
    exact absurd he List.not_mem_nil

/-- A run of a program with faults comes to nothing. -/
theorem accomplished_of_faults {flow : Flow} {w : World} (h : p.Reaches env ⟨.ended flow, w⟩)
    (hp : p.step.faults ≠ []) : p.Accomplished env verdict w := by
  rw [Reaches, start_of_faults hp] at h
  obtain ⟨-, hsee⟩ := Machine.Moves.of_ended h
  have hnothing : ∀ {α : Type} {view : Entry → Option α}, view .cancelled = none →
      (∀ e, view (.event e) = none) → w.see view = [] := by
    intro α view hv he
    rw [hsee hv, see_firstWorld hv, he]
    rfl
  have hdispatched : w.see Entry.dispatched? = [] := hnothing rfl fun _ => rfl
  have happlied : w.see Entry.applied? = [] := by
    rw [hsee rfl, see_firstWorld rfl]
    rfl
  have htransitions : w.see Entry.transition? = [] := by
    rw [hsee rfl, see_firstWorld rfl]
    rfl
  refine ⟨⟨[], ?_, fun hvalid => absurd hvalid hp, fun _ => rfl⟩, ?_, ?_, ?_, ?_, ?_⟩
  · rw [hsee rfl, see_firstWorld rfl]
    rfl
  · rw [hdispatched]
    exact fun d hd => absurd hd List.not_mem_nil
  · rw [htransitions, hdispatched]
    rfl
  · rw [hnothing rfl fun _ => rfl, hdispatched]
    exact .refl _
  · rw [happlied, hdispatched]
    exact .refl _
  · rw [hnothing rfl fun _ => rfl, hdispatched]
    exact .refl _

/-- **What a run with verdicts comes to**, when it has ended without cancellation. -/
theorem accomplished_of_verdicts {flow : Flow} {w : World} (h : p.Runs env ⟨.ended flow, w⟩)
    (hcounted : ∀ n ∈ p.step.nodes, n.Counted) (hharmless : ∀ d s, (verdict d s).Harmless)
    (hcalm : w.cancelled = false)
    (hgives : ∀ c r, w.Replied env c r → r.verdict env c = verdict c.device c.state) :
    p.Accomplished env verdict w := by
  by_cases hp : p.step.faults = []
  · obtain ⟨rfl, hgoing⟩ := completed_of_verdicts h hp hcounted hharmless hcalm hgives
    have haccounted := Machine.Moves.accounted h.reaches (start_accounted env p)
    have hshows := shows_of_bounded (fun n hn => bounded_of_counted (hcounted n hn)) hp h.reaches
    obtain ⟨u, hu, -, hwhole⟩ := hshows
    have hcalls := h.reaches.errands rfl hgoing
    -- nothing is in flight any more, so all calls have been settled
    have hsettled : ((w.see Entry.settled?).map fun x => x.1.errand).Perm
        ((w.see Entry.dispatched?).flatMap env.errands) := by
      have hall := haccounted.calls.symm.map Call.errand
      rw [show (Machine.activity ⟨.ended .completed, w⟩).inFlight = [] from rfl,
        List.append_nil, List.map_map] at hall
      exact hall.trans hcalls
    have heq := settled_eq h hgives
    refine ⟨⟨u, hu, fun _ => hwhole rfl, fun hfaults => absurd hp hfaults⟩,
      haccounted.dispatched, haccounted.balanced.transitions, hcalls, ?_, ?_⟩
    · rw [haccounted.balanced.applied]
      have happlied : (w.see Entry.settled?).map (fun x => x.1.applied x.2)
          = ((w.see Entry.settled?).map fun x => x.1.errand).map
              fun e => e.call.applied (e.error? env verdict) := by
        rw [List.map_map]
        refine List.map_congr_left fun x hx => ?_
        rw [heq x hx]
        rfl
      rw [happlied]
      exact hsettled.map _
    · have hfailures : (w.see Entry.settled?).filterMap (fun x => x.1.failure? x.2)
          = ((w.see Entry.settled?).map fun x => x.1.errand).filterMap
              fun e => e.call.failure? (e.error? env verdict) := by
        rw [List.filterMap_map]
        refine List.filterMap_congr fun x hx => ?_
        rw [heq x hx]
        rfl
      refine haccounted.balanced.failures.trans (List.Perm.append_left _ ?_)
      rw [hfailures]
      exact hsettled.filterMap _
  · exact accomplished_of_faults h.reaches hp

/-! ### Two runs -/

/-- Transitions of a program can be told from the events that show them. -/
theorem announces_injective {d d' : Path × Transition} (hd : d ∈ p.transitions)
    (hd' : d' ∈ p.transitions) (heq : announces env d = announces env d') : d = d' := by
  obtain ⟨path, t⟩ := d
  obtain ⟨path', t'⟩ := d'
  obtain ⟨htext, -⟩ := Event.transition.inj heq
  obtain rfl := Path.text_injective htext
  rw [transitions_unique hd hd']

/-- The transition that an event shows. -/
def shownBy? (env : Environment) (p : Program) (e : Event) : Option (Path × Transition) :=
  p.transitions.find? fun d => announces env d = e

theorem filterMap_shownBy? {ds : List (Path × Transition)} (h : ∀ d ∈ ds, d ∈ p.transitions) :
    (ds.map (announces env)).filterMap (p.shownBy? env) = ds := by
  rw [List.filterMap_map]
  refine (List.filterMap_congr fun d hd => ?_).trans List.filterMap_some
  cases hfind : p.shownBy? env (announces env d) with
  | none =>
    have hnone := List.find?_eq_none.mp hfind d (h d hd)
    exact absurd rfl (of_decide_eq_false (Bool.eq_false_iff.mpr hnone))
  | some d' =>
    have heq : announces env d' = announces env d := by simpa using List.find?_some hfind
    rw [Function.comp, hfind, announces_injective (List.mem_of_find?_eq_some hfind) (h d hd) heq]

/-- The devices that have been served can be told from the events. -/
theorem see_applied (w : World) :
    w.see Entry.applied? = (w.see Entry.event?).filter Event.isApplied := by
  have hview : ∀ e : Entry, e.applied? = e.event?.bind fun e => Entry.applied? (.event e) :=
    fun e => by cases e <;> rfl
  rw [see_factor w hview, ← List.filterMap_eq_filter]
  refine List.filterMap_congr fun e _ => ?_
  cases e <;> rfl

/-- Iterations and transitions, and devices that have been served, are different events. -/
theorem filter_told (es : List Event) :
    (es.filter fun e => e.step?.isSome || e.isApplied).Perm
      (es.filter (·.step?.isSome) ++ es.filter Event.isApplied) := by
  refine (List.filter_append_perm (fun e : Event => e.step?.isSome) _).symm.trans ?_
  rw [List.filter_filter, List.filter_filter]
  refine List.Perm.append (.of_eq ?_) (.of_eq ?_)
  · refine List.filter_congr fun e _ => ?_
    cases e <;> rfl
  · refine List.filter_congr fun e _ => ?_
    cases e <;> rfl

namespace Accomplished

variable {w w' : World}

/-- The gateway does not matter to what a run comes to, as far as the verdicts are the same. -/
theorem of_gateway {g : Gateway} (h : p.Accomplished { env with gateway := g } verdict w) :
    p.Accomplished env verdict w :=
  ⟨h.shows, h.dispatched, h.transitions, h.calls, h.applied, h.failures⟩

variable (h : p.Accomplished env verdict w) (h' : p.Accomplished env verdict w')
include h h'

/-- What is kept of two runs is related if it is of any two words of the program. -/
theorem kept {R : List Event → List Event → Prop} {keep : Event → Bool} (hR : Congruence R)
    (hkeep : ∀ e, e.step? = none → keep e = false)
    (hdetermines : (p.language env).Determines R keep) :
    R ((w.see Entry.event?).filter keep) ((w'.see Entry.event?).filter keep) := by
  obtain ⟨u, hu, hwhole, hnone⟩ := h.shows
  obtain ⟨u', hu', hwhole', hnone'⟩ := h'.shows
  have hstarted : ¬keep (.started env.runId p.displayName) = true := by
    rw [hkeep _ rfl]
    exact Bool.false_ne_true
  rw [hu, hu', List.filter_cons_of_neg hstarted, List.filter_cons_of_neg hstarted]
  by_cases hp : p.step.faults = []
  · exact hdetermines u u' (hwhole hp) (hwhole' hp)
  · rw [hnone hp, hnone' hp]
    exact hR.nil

variable (hcounted : ∀ n ∈ p.step.nodes, n.Counted)
include hcounted

/-- Both runs begin the same iterations and dispatch the same transitions. -/
theorem steps_perm : ((w.see Entry.event?).filter (·.step?.isSome)).Perm
    ((w'.see Entry.event?).filter (·.step?.isSome)) := by
  have hblind : ∀ e : Event, e.step? = none → e.step?.isSome = false := fun e he => by rw [he]; rfl
  exact h.kept h' perm_congruence hblind (Step.language_perm hblind hcounted)

/-- So both dispatch the same transitions, each as often as the other one does. -/
theorem dispatched_perm : (w.see Entry.dispatched?).Perm (w'.see Entry.dispatched?) := by
  have hview : ∀ e : Entry, e.transition? = e.event?.bind fun e => Entry.transition? (.event e) :=
    fun e => by cases e <;> rfl
  -- the transitions are among the events of which the language tells
  have hsteps : ∀ v : World, ((v.see Entry.event?).filter (·.step?.isSome)).filterMap
      (fun e => Entry.transition? (.event e)) = v.see Entry.transition? := by
    intro v
    rw [see_factor v hview, List.filterMap_filter]
    refine List.filterMap_congr fun e _ => ?_
    cases e <;> rfl
  have htransitions := (h.steps_perm h' hcounted).filterMap fun e => Entry.transition? (.event e)
  rw [hsteps, hsteps, h.transitions, h'.transitions] at htransitions
  have hdispatched := htransitions.filterMap (p.shownBy? env)
  rwa [filterMap_shownBy? h.dispatched, filterMap_shownBy? h'.dispatched] at hdispatched

theorem calls_perm :
    ((w.see Entry.call?).map Call.errand).Perm ((w'.see Entry.call?).map Call.errand) :=
  h.calls.trans (((h.dispatched_perm h' hcounted).flatMap_right _).trans h'.calls.symm)

theorem applied_perm : (w.see Entry.applied?).Perm (w'.see Entry.applied?) :=
  h.applied.trans ((((h.dispatched_perm h' hcounted).flatMap_right _).map _).trans h'.applied.symm)

theorem failures_perm : (w.see Entry.failure?).Perm (w'.see Entry.failure?) := by
  have hdispatched := h.dispatched_perm h' hcounted
  exact h.failures.trans (((hdispatched.flatMap_right _).append
    ((hdispatched.flatMap_right _).filterMap _)).trans h'.failures.symm)

/-- Both tell the same of iterations, transitions and devices. -/
theorem told_perm : ((w.see Entry.event?).filter fun e => e.step?.isSome || e.isApplied).Perm
    ((w'.see Entry.event?).filter fun e => e.step?.isSome || e.isApplied) := by
  have hsteps := h.steps_perm h' hcounted
  have happlied := h.applied_perm h' hcounted
  rw [see_applied, see_applied] at happlied
  exact (filter_told _).trans ((hsteps.append happlied).trans (filter_told _).symm)

/-- Both tell the same of a step in which none is parallel, in the same order. -/
theorem within_eq {path : Path} {s : Step} (hs : (path, s) ∈ p.step.stepsAt p.step.rootPath)
    (hserial : ∀ n ∈ s.nodes, n.kind ≠ .parallel) :
    (w.see Entry.event?).filter (Event.within path s)
      = (w'.see Entry.event?).filter (Event.within path s) := by
  have hnames : Step.Names (Event.within path s) (s.stepsAt path) := by
    intro e he
    obtain ⟨x, hx, hstep⟩ := List.any_eq_true.mp he
    exact ⟨x, hx, of_decide_eq_true hstep⟩
  exact h.kept h' eq_congruence hnames.blind
    (Step.language_within hserial hnames p.step p.step.rootPath hs hcounted)

end Accomplished

/-- A run that returns has ended. -/
theorem runs_of_run? {fuel : ℕ} {result : RunResult} {w : World}
    (h : p.run? env fuel = some (result, w)) :
    ∃ flow w', p.Runs env ⟨.ended flow, w'⟩ ∧ flow.result env w' = (result, w) := by
  rw [Program.run?, Option.map_eq_some_iff] at h
  obtain ⟨⟨flow, w'⟩, hrun, hresult⟩ := h
  have hafter := (Machine.run?_eq_some_iff fuel _ flow w').mp hrun
  exact ⟨flow, w', hafter ▸ runs_after env p fuel, hresult⟩

/-- **There is such a run**, if all loops are counted, the caller does not cancel and the gateway
comes to the verdicts whenever it is called. -/
theorem exists_finishes (hcounted : ∀ n ∈ p.step.nodes, n.Counted) (hcalm : env.cancellation = {})
    (hgives : ∀ history c, (env.gateway history c).verdict env c = verdict c.device c.state) :
    ∃ fuel result w, p.run? env fuel = some (result, w) ∧ p.Finishes env verdict result w := by
  obtain ⟨fuel, flow, w, hruns, hresult⟩ := exists_returns (by rw [hcalm]) hcounted
  refine ⟨fuel, _, _, hresult, ⟨runs_of_run? hresult, ?_, ?_⟩⟩
  · show (w.emit env (.stopped env.runId flow.status)).cancelled = false
    rw [emit_calm hcalm]
    exact hruns.uncancelled hcalm
  · rintro c _ ⟨history, -, rfl⟩
    exact hgives history c

/-- **One run**, told by its result and by the world that it leaves. -/
theorem Finishes.accomplished {result : RunResult} {w : World}
    (h : p.Finishes env verdict result w) (hcounted : ∀ n ∈ p.step.nodes, n.Counted)
    (hharmless : ∀ d s, (verdict d s).Harmless) :
    ∃ w', p.Accomplished env verdict w' ∧
      result.status = (if p.step.faults = [] then .completed else .fatal) ∧
      result.failures = w'.see Entry.failure? ∧ w.journal.calls = w'.see Entry.call? ∧
      ∃ status, w.shown = w'.see Entry.event? ++ [.stopped env.runId status] := by
  obtain ⟨flow, w', hruns, hresult⟩ := h.ends
  obtain ⟨rfl, rfl⟩ := Prod.mk.inj hresult
  have hcalm : w'.cancelled = false := by
    have hcalm := h.calm
    rw [emit, cancelled_cancelIf, cancelled_note] at hcalm
    exact (Bool.or_eq_false_iff.mp hcalm).1
  have hgives : ∀ c r, w'.Replied env c r → r.verdict env c = verdict c.device c.state :=
    fun c r hr => h.gives c r (hr.mono (journal_emit _ w'))
  refine ⟨w', accomplished_of_verdicts hruns hcounted hharmless hcalm hgives, ?_,
    Journal.failures_eq _, ?_, flow.status, ?_⟩
  · split
    · next hp =>
      obtain ⟨rfl, -⟩ := completed_of_verdicts hruns hp hcounted hharmless hcalm hgives
      rfl
    · next hp =>
      have hreaches := hruns.reaches
      rw [Reaches, start_of_faults hp] at hreaches
      obtain ⟨hended, -⟩ := Machine.Moves.of_ended hreaches
      cases hended
      rfl
  · rw [Journal.calls_eq]
    exact see_emit_none _ _ rfl rfl
  · rw [World.shown, Journal.map_events]
    exact see_emit _ _ rfl _

/-- What is kept of the events of a run does not depend on how it stopped. -/
theorem filter_shown {w w' : World} {status : Status} {keep : Event → Bool}
    (h : w.shown = w'.see Entry.event? ++ [.stopped env.runId status])
    (hkeep : keep (.stopped env.runId status) = false) :
    w.shown.filter keep = (w'.see Entry.event?).filter keep := by
  rw [h, List.filter_append, List.filter_singleton, hkeep]
  exact List.append_nil _

/-- **Nothing but the order depends on the schedule.**  Let all loops of a program be counted, and
let it be run to its end twice, without cancellation, against two gateways whose replies come to
the same verdict about each device and state, none of which ends a run.  They may take any time for
it.  Then both runs end in the same way: completed, unless the program has faults.  They make the
same calls, tell of the same iterations, transitions and devices, and record the same failures,
each as often as the other one does.  What they tell of a step and the steps below it they tell in
the same order, if none of these is parallel. -/
theorem independent_of_schedule {g₁ g₂ : Gateway} {result₁ result₂ : RunResult} {w₁ w₂ : World}
    (hcounted : ∀ n ∈ p.step.nodes, n.Counted) (hharmless : ∀ d s, (verdict d s).Harmless)
    (h₁ : p.Finishes { env with gateway := g₁ } verdict result₁ w₁)
    (h₂ : p.Finishes { env with gateway := g₂ } verdict result₂ w₂) :
    result₁.status = result₂.status ∧ (p.step.faults = [] → result₁.status = .completed) ∧
      (w₁.journal.calls.map Call.errand).Perm (w₂.journal.calls.map Call.errand) ∧
      (w₁.shown.filter fun e => e.step?.isSome || e.isApplied).Perm
        (w₂.shown.filter fun e => e.step?.isSome || e.isApplied) ∧
      result₁.failures.Perm result₂.failures ∧
      ∀ path s, (path, s) ∈ p.step.stepsAt p.step.rootPath →
        (∀ n ∈ s.nodes, n.kind ≠ .parallel) →
          w₁.shown.filter (Event.within path s) = w₂.shown.filter (Event.within path s) := by
  obtain ⟨w₁', hdone₁, hstatus₁, hfailures₁, hcalls₁, s₁, hshown₁⟩ :=
    h₁.accomplished hcounted hharmless
  obtain ⟨w₂', hdone₂, hstatus₂, hfailures₂, hcalls₂, s₂, hshown₂⟩ :=
    h₂.accomplished hcounted hharmless
  have hdone₁ := hdone₁.of_gateway
  have hdone₂ := hdone₂.of_gateway
  have hwithin : ∀ path (s : Step) status, Event.within path s (.stopped env.runId status) = false :=
    fun path s status => List.any_eq_false.mpr fun x _ => by simp [Event.step?]
  refine ⟨hstatus₁.trans hstatus₂.symm, fun hp => hstatus₁.trans (if_pos hp), ?_, ?_, ?_,
    fun path s hs hserial => ?_⟩
  · rw [hcalls₁, hcalls₂]
    exact hdone₁.calls_perm hdone₂ hcounted
  · rw [filter_shown hshown₁ rfl, filter_shown hshown₂ rfl]
    exact hdone₁.told_perm hdone₂ hcounted
  · rw [hfailures₁, hfailures₂]
    exact hdone₁.failures_perm hdone₂ hcounted
  · rw [filter_shown hshown₁ (hwithin path s s₁), filter_shown hshown₂ (hwithin path s s₂)]
    exact hdone₁.within_eq hdone₂ hcounted hs hserial

/-- A lamp is served twice and acknowledges in time, while beside it the spot is served once and
does not answer.  If the spot takes long it is the last one to be served, and the first one if the
lamp does; but the lamp is called twice in any case, and there is one failure. -/
theorem lamp_or_spot_first :
    let outcome : Call → Dispatch := fun c =>
      if c.device.name = "lamp" then .pending (some (1, .succeeded)) else .failed .timeout
    let slowLamp : Gateway := fun _ c => ⟨if c.device.name = "lamp" then 5 else 2, outcome c⟩
    let slowSpot : Gateway := fun _ c => ⟨if c.device.name = "lamp" then 3 else 20, outcome c⟩
    let env := { Environment.plain with ackTimeout := 1 }
    let lamp : Transition := { state := {}, devices := some [.light "lamp"], wait := true }
    let twice : Step := .composite .serial [.transition lamp] { mode := .counted 2 } {}
    let p : Program := ⟨none, .composite .parallel
      [twice, .light "spot" (.counted 1)] { mode := .counted 1 } {}⟩
    ∃ result₁ w₁ result₂ w₂, p.run? { env with gateway := slowLamp } 15 = some (result₁, w₁) ∧
      p.run? { env with gateway := slowSpot } 15 = some (result₂, w₂) ∧ w₁.shown ≠ w₂.shown ∧
      result₁.failures.length = 1 ∧ result₁.status = result₂.status ∧
      (w₁.journal.calls.map Call.errand).Perm (w₂.journal.calls.map Call.errand) ∧
      result₁.failures.Perm result₂.failures ∧
      ∀ path, (path, twice) ∈ p.step.stepsAt p.step.rootPath →
        w₁.shown.filter (Event.within path twice) = w₂.shown.filter (Event.within path twice) := by
  intro outcome slowLamp slowSpot env lamp twice p
  let verdict : Device → DeviceState → Verdict := fun d _ =>
    if d.name = "lamp" then .told .succeeded else .failed .timeout
  have hcounted : ∀ n ∈ p.step.nodes, n.Counted := by
    simp [p, twice, lamp, Step.light, Step.nodes, Step.nodesAll, Step.Counted, Step.Uses,
      LoopMode.Counted, LoopMode.number]
  have hharmless : ∀ d s, (verdict d s).Harmless := by
    intro d s
    simp only [verdict]
    split
    · trivial
    · rfl
  -- all calls are made soon, so there are ticks until they are acknowledged
  let soon : World → Bool := fun w => w.journal.calls.all fun c => decide (c.time ≤ 1000000)
  have hgives : ∀ (g : Gateway), (∀ j c, (g j c).outcome = outcome c) →
      (∀ j c, (g j c).latency ≤ 20) → ∀ w : World, soon w = true → ∀ c r,
      w.Replied { env with gateway := g } c r →
        r.verdict { env with gateway := g } c = verdict c.device c.state := by
    rintro g hg hlatency w hsoon c _ ⟨history, hhistory, rfl⟩
    have houtcome := hg history c
    have hcall : c ∈ w.journal.calls :=
      List.mem_filterMap.mpr ⟨_, List.mem_reverse.mpr (hhistory.subset List.mem_cons_self), rfl⟩
    have htime : c.time ≤ 1000000 := of_decide_eq_true (List.all_eq_true.mp hsoon c hcall)
    have hrange : c.time + (g history c).latency + 1 ≤ lastTick :=
      Nat.le_trans (Nat.succ_le_succ (Nat.add_le_add htime (hlatency history c))) (by decide)
    by_cases hlamp : c.device.name = "lamp"
    · simp only [outcome, if_pos hlamp] at houtcome
      simp only [verdict, if_pos hlamp]
      exact Reply.verdict_of_span houtcome (Nat.le_add_left 1 _) (by decide) hrange
    · simp only [outcome, if_neg hlamp] at houtcome
      simp only [verdict, if_neg hlamp, Reply.verdict, houtcome]
  have hlatency : ∀ (c : Call) (m n : ℕ), m ≤ 20 → n ≤ 20 →
      (if c.device.name = "lamp" then m else n) ≤ 20 := by
    intro c m n hm hn
    split
    · exact hm
    · exact hn
  have hslow : ((p.run? { env with gateway := slowLamp } 15).map fun x =>
      (x.2.cancelled, soon x.2, x.1.failures.length)) = some (false, true, 1) := by decide +kernel
  have hslow' : ((p.run? { env with gateway := slowSpot } 15).map fun x =>
      (x.2.cancelled, soon x.2, x.1.failures.length)) = some (false, true, 1) := by decide +kernel
  have hdiffer : (p.run? { env with gateway := slowLamp } 15).map (·.2.shown)
      ≠ (p.run? { env with gateway := slowSpot } 15).map (·.2.shown) := by decide +kernel
  obtain ⟨⟨result₁, w₁⟩, hrun₁, hseen₁⟩ := Option.map_eq_some_iff.mp hslow
  obtain ⟨⟨result₂, w₂⟩, hrun₂, hseen₂⟩ := Option.map_eq_some_iff.mp hslow'
  obtain ⟨hcalm₁, hseen₁⟩ := Prod.mk.inj hseen₁
  obtain ⟨hsoon₁, hlength⟩ := Prod.mk.inj hseen₁
  obtain ⟨hcalm₂, hseen₂⟩ := Prod.mk.inj hseen₂
  obtain ⟨hsoon₂, -⟩ := Prod.mk.inj hseen₂
  have hshown : w₁.shown ≠ w₂.shown := by
    rw [hrun₁, hrun₂] at hdiffer
    exact fun heq => hdiffer (congrArg some heq)
  obtain ⟨hstatus, -, hcalls, -, hfailures, hwithin⟩ := independent_of_schedule hcounted hharmless
    ⟨runs_of_run? hrun₁, hcalm₁, hgives slowLamp (fun _ _ => rfl)
      (fun _ c => hlatency c 5 2 (by decide) (by decide)) w₁ hsoon₁⟩
    ⟨runs_of_run? hrun₂, hcalm₂, hgives slowSpot (fun _ _ => rfl)
      (fun _ c => hlatency c 3 20 (by decide) (by decide)) w₂ hsoon₂⟩
  refine ⟨result₁, w₁, result₂, w₂, hrun₁, hrun₂, hshown, hlength, hstatus, hcalls, hfailures,
    fun path hpath => hwithin path twice hpath ?_⟩
  simp [twice, Step.nodes, Step.nodesAll, Step.kind, Order.kind]

end Program

end Lightshow
