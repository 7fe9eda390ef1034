import Lightshow.Proofs.Run.Answer
import Lightshow.Proofs.Run.Plain
import Lightshow.Proofs.Run.Result

/-!
# How a run ends

A run ends with an error, or because the caller cancelled it, or it is completed.  What makes
this hard to see is that an error makes all parts of the run halt, and that a part which halts
ends as if it was cancelled.  The error itself is on its way to the root of the activity in the
meantime, and it must neither get lost nor be covered by what the other parts report.

Two invariants settle it.  Every part that has ended has a reason in the world: an error that
was reported, or a halt.  And as soon as an error was reported the activity is *doomed*: some
part that is waited for has ended with an error, and however the other parts end, so will the
whole.

## Main definitions

* `Entry.error?` — the errors that end a run, where they come up.
* `Activity.endings`, `Flow.Explained` — how parts have ended, and why.
* `Activity.Destined`, `Activity.Doomed` — activities that will end in a certain way, and those
  that will end with an error.
* `Program.Ruin` — what may end a run with an error.

## Main results

* `Activity.Move.endings`, `Activity.Move.destined`, `Activity.Move.reports` — single moves.
* `Machine.Sound`, `Machine.Moves.sound` — the invariants of a run.
* `Program.status_of_returns` — the status of a run.
-/

namespace Lightshow

open World

variable {env : Environment}

/-- The error that ends the run, if an entry is where it comes up. -/
def Entry.error? : Entry → Option RunError
  | .settled c error => c.fatal? error
  | .barred path cause => some (.loop path.text cause)
  | _ => none

/-- The reason for the way in which a part has ended. -/
def Flow.Explained (w : World) : Flow → Prop
  | .completed => True
  | .cancelled => w.halted = true
  | .fatal e => e ∈ w.see Entry.error?

/-- No error is reported on the way from one world to another; or one is, and makes the run
halt, and it has a certain property. -/
def Reports (w w' : World) (P : RunError → Prop) : Prop :=
  (w'.see Entry.error? = w.see Entry.error? ∧ w'.failed = w.failed) ∨
    ∃ e, w'.see Entry.error? = w.see Entry.error? ++ [e] ∧ w'.failed = true ∧ P e

namespace Reports

variable {w w' : World} {P Q : RunError → Prop}

theorem nothing (hsee : w'.see Entry.error? = w.see Entry.error?) (hf : w'.failed = w.failed) :
    Reports w w' P := .inl ⟨hsee, hf⟩

theorem imp (h : Reports w w' P) (hPQ : ∀ e, P e → Q e) : Reports w w' Q := by
  rcases h with h | ⟨e, hsee, hf, hP⟩
  · exact .inl h
  · exact .inr ⟨e, hsee, hf, hPQ e hP⟩

/-- What was written before may be left out if it is no error. -/
theorem of_note {entry : Entry} (h : Reports (w.note entry) w' P) (he : entry.error? = none) :
    Reports w w' P := by
  have hsee : (w.note entry).see Entry.error? = w.see Entry.error? := see_note_none w he
  rcases h with ⟨h, hf⟩ | ⟨e, h, hf, hP⟩
  · exact .inl ⟨h.trans hsee, hf⟩
  · exact .inr ⟨e, by rw [h, hsee], hf, hP⟩

end Reports

/-! ### Queues -/

namespace Queue

/-- A call that has come to something reports an error and ends its queue, or does neither. -/
theorem settle_reports (c : Call) (result : Except DeviceError Unit) (w : World) :
    Reports w (settle env c result w).2
      fun e => (settle env c result w).1 = some (.fatal e) := by
  have hshown : ∀ error, (shown env c error w).failed = w.failed := fun error => by
    rw [shown, emit, failed_cancelIf, failed_note, failed_note]
  rcases settle_cases env c result w with ⟨he, h⟩ | ⟨e, he, hf, h⟩ | ⟨cause, he, hf, h⟩
  · refine .nothing ?_ ?_
    · rw [see_settle rfl, he]
      exact List.append_nil _
    · rw [h]
      exact hshown none
  · refine .nothing ?_ ?_
    · rw [see_settle rfl, he]
      simp [Entry.error?, fatal?_eq_none hf, Call.failure?, hf]
    · rw [h]
      exact hshown (some e)
  · refine .inr ⟨.gateway c.device.label cause, ?_, by rw [h]; rfl, by rw [h]⟩
    rw [see_settle rfl, he]
    simp [Entry.error?, Call.fatal?, Call.failure?, DeviceError.isFatal, hf]

/-- A queue reports only the error with which it ends. -/
theorem Move.reports {q q' : Queue} {w w' : World} (h : Move env q w q' w') :
    Reports w w' fun e => q' = .ended (.fatal e) := by
  cases h with
  | finish => exact .nothing rfl rfl
  | halt => exact .nothing rfl rfl
  | call =>
    refine .nothing (see_call_none _ _ rfl rfl) ?_
    rw [World.call, failed_cancelIf, failed_note]
  | await => exact .nothing (see_note_none _ rfl) rfl
  | answer =>
    refine Reports.of_note (Reports.imp (settle_reports ..) fun e he => ?_) rfl
    rw [he, next]
  | acknowledge =>
    refine Reports.imp (settle_reports ..) fun e he => ?_
    rw [he, next]

/-- A queue ends with an error only if its call came to one. -/
theorem next_explained {call : Call} {left : ℕ} {result : Except DeviceError Unit} {w : World}
    {flow : Flow} (h : next call left (settle env call result w).1 = .ended flow) :
    flow.Explained (settle env call result w).2 := by
  rw [settle_flow] at h
  cases hf : call.fatal? (error? result) with
  | none =>
    rw [hf] at h
    exact absurd h nofun
  | some e =>
    rw [hf] at h
    cases h
    show e ∈ (settle env call result w).2.see Entry.error?
    rw [see_settle rfl]
    simp [Entry.error?, hf]

/-- A queue that ends has a reason for it. -/
theorem Move.explained {q q' : Queue} {w w' : World} {flow : Flow} (h : Move env q w q' w')
    (hq : q' = .ended flow) : flow.Explained w' := by
  cases h with
  | finish =>
    cases hq
    exact trivial
  | halt hw =>
    cases hq
    exact hw
  | call => exact absurd hq nofun
  | await => exact absurd hq nofun
  | answer => exact next_explained hq
  | acknowledge => exact next_explained hq

end Queue

/-! ### Activities -/

mutual

/-- How the parts of an activity have ended. -/
def Activity.endings : Activity → List Flow
  | .ended flow => [flow]
  | .applying queues => queues.filterMap Queue.flow?
  | .seq first rest => Activity.endings first ++ Activity.endings rest
  | .join branches => Activity.endingsAll branches
  | .enter _ _ body _ => Activity.endings body
  | .rounds _ _ _ body => Activity.endings body
  | .within _ _ _ body current => Activity.endings body ++ Activity.endings current
  | _ => []

/-- How the parts of some activities have ended. -/
def Activity.endingsAll : List Activity → List Flow
  | [] => []
  | a :: rest => Activity.endings a ++ Activity.endingsAll rest

end

/-- Some part of an activity that is waited for has ended in a certain way. -/
inductive Activity.Destined (P : Flow → Prop) : Activity → Prop
  | ended {flow : Flow} (h : P flow) : Destined P (.ended flow)
  | applying {queues : List Queue} {flow : Flow} (hmem : .ended flow ∈ queues) (h : P flow) :
      Destined P (.applying queues)
  | seq {first : Activity} (rest : Activity) (h : Destined P first) : Destined P (.seq first rest)
  | join {branches : List Activity} {a : Activity} (hmem : a ∈ branches) (h : Destined P a) :
      Destined P (.join branches)
  | within (block : Block) (bound : Bound) (completed : ℕ) (body : Activity)
      {current : Activity} (h : Destined P current) :
      Destined P (.within block bound completed body current)

/-- A way to end that prevails: it is not to be completed, and parts end so as a whole if one of
them does. -/
structure Flow.Prevails (P : Flow → Prop) : Prop where
  completed : ¬P .completed
  merge {flow : Flow} {flows : List Flow} (hmem : flow ∈ flows) (h : P flow) : P (.merge flows)

/-- Errors prevail. -/
theorem Flow.isFatal_prevails : Flow.Prevails (·.isFatal = true) where
  completed := nofun
  merge := Flow.isFatal_merge

/-- So does whatever is not completed. -/
theorem Flow.ne_completed_prevails : Flow.Prevails (· ≠ .completed) where
  completed h := h rfl
  merge hmem h hmerge := h (Flow.eq_completed_of_merge hmerge _ hmem)

/-- Some part of an activity that is waited for has ended with an error. -/
def Activity.Doomed : Activity → Prop := Activity.Destined (·.isFatal = true)

namespace Activity

theorem endingsAll_eq_flatMap (branches : List Activity) :
    endingsAll branches = branches.flatMap endings := by
  induction branches with
  | nil => rfl
  | cons a branches ih => rw [endingsAll, ih, List.flatMap_cons]

/-- Parts that ended side by side pass on how one of them ended, or are completed. -/
theorem merge_explained {flows : List Flow} {w : World} :
    ∀ flow ∈ (Activity.ended (.merge flows)).endings, flow ∈ flows ∨ flow.Explained w := by
  intro flow hflow
  rw [List.mem_singleton.mp hflow]
  by_cases hm : Flow.merge flows = .completed
  · rw [hm]
    exact .inr trivial
  · exact .inl (Flow.merge_mem hm)

/-- **A part that ends in a move has a reason for it.** -/
theorem Move.endings {a a' : Activity} {w w' : World} (h : Move env a w a' w') :
    ∀ flow ∈ a'.endings, flow ∈ a.endings ∨ flow.Explained w' := by
  induction h with
  | rest => exact fun flow hflow => .inr (List.mem_singleton.mp hflow ▸ trivial)
  | @pause path o w =>
    refine fun flow hflow => .inr (beginPause_activity env path o w
      (P := fun a => ∀ flow ∈ a.endings, flow.Explained (beginPause env path (some o) w).2)
      (fun hw flow hflow => ?_) (fun _ flow hflow => ?_) (fun _ _ flow hflow => ?_) flow hflow)
    · exact List.mem_singleton.mp hflow ▸ hw
    · exact List.mem_singleton.mp hflow ▸ trivial
    · exact absurd hflow List.not_mem_nil
  | @wake wake w =>
    refine fun flow hflow => .inr (pollSleep_activity wake w
      (P := fun a => ∀ flow ∈ a.endings, flow.Explained w)
      (fun hw flow hflow => ?_) (fun _ flow hflow => ?_) (fun _ _ flow hflow => ?_) flow hflow)
    · exact List.mem_singleton.mp hflow ▸ hw
    · exact List.mem_singleton.mp hflow ▸ trivial
    · exact absurd hflow List.not_mem_nil
  | withhold hw => exact fun flow hflow => .inr (List.mem_singleton.mp hflow ▸ hw)
  | dispatch =>
    intro flow hflow
    -- the new queues are ready and have not ended
    obtain ⟨q, hq, hflow⟩ := List.mem_filterMap.mp hflow
    obtain ⟨d, -, rfl⟩ := List.mem_map.mp hq
    exact absurd hflow nofun
  | @serve q q' w w' before after hq =>
    intro flow hflow
    obtain ⟨x, hx, hx'⟩ := List.mem_filterMap.mp hflow
    rcases mem_replace hx with rfl | hx
    · exact .inr (hq.explained (Queue.eq_ended_of_flow? hx'))
    · exact .inl (List.mem_filterMap.mpr ⟨x, hx, hx'⟩)
  | @served flows w =>
    have hflows : (applying (flows.map .ended)).endings = flows := by
      rw [Activity.endings, List.filterMap_map]
      exact List.filterMap_some
    rw [hflows]
    exact merge_explained
  | first _ ih =>
    intro flow hflow
    rcases List.mem_append.mp hflow with h | h
    · exact (ih flow h).imp_left (List.mem_append_left _)
    · exact .inl (List.mem_append_right _ h)
  | second => exact fun flow hflow => .inl (List.mem_append_right _ hflow)
  | skip => exact fun flow hflow => .inl (List.mem_append_left _ hflow)
  | branch before after _ ih =>
    intro flow hflow
    simp only [Activity.endings, endingsAll_eq_flatMap, List.flatMap_append, List.flatMap_cons,
      List.mem_append] at hflow ⊢
    rcases hflow with h | h | h
    · exact .inl (.inl h)
    · exact (ih flow h).imp_left fun h => .inr (.inl h)
    · exact .inl (.inr (.inr h))
  | @joined flows w =>
    have hflows : (join (flows.map .ended)).endings = flows := by
      rw [Activity.endings, endingsAll_eq_flatMap, List.flatMap_map]
      exact List.flatMap_singleton' flows
    rw [hflows]
    exact merge_explained
  | @bar block _ _ _ cause w w' he =>
    intro flow hflow
    rw [List.mem_singleton.mp hflow]
    refine .inr ?_
    show _ ∈ World.see _ Entry.error?
    rw [see_fail, see_note]
    simp [Entry.error?]
  | enter =>
    intro flow hflow
    simp only [Activity.endings, List.nil_append, List.append_nil] at hflow
    exact .inl hflow
  | expire => exact fun flow hflow => .inr (List.mem_singleton.mp hflow ▸ trivial)
  | stop _ hw => exact fun flow hflow => .inr (List.mem_singleton.mp hflow ▸ hw)
  | begin =>
    intro flow hflow
    rcases List.mem_append.mp hflow with h | h
    · exact .inl h
    · exact .inl h
  | inside _ ih =>
    intro flow hflow
    rcases List.mem_append.mp hflow with h | h
    · exact .inl (List.mem_append_left _ h)
    · exact (ih flow h).imp_left (List.mem_append_right _)
  | again => exact fun flow hflow => .inl (List.mem_append_left _ hflow)
  | leave => exact fun flow hflow => .inl (List.mem_append_right _ hflow)

/-- **A way to end that prevails is not lost.** -/
theorem Move.destined {P : Flow → Prop} (hP : Flow.Prevails P) {a a' : Activity} {w w' : World}
    (h : Move env a w a' w') (ha : Destined P a) : Destined P a' := by
  induction h with
  | serve before after hq =>
    cases ha with
    | applying hmem hflow =>
      refine .applying ?_ hflow
      rcases mem_replace hmem with rfl | hmem
      · -- a queue that has ended does not move
        cases hq
      · exact hmem
  | served =>
    cases ha with
    | applying hmem hflow =>
      obtain ⟨flow, hmem, heq⟩ := List.mem_map.mp hmem
      cases heq
      exact .ended (hP.merge hmem hflow)
  | first _ ih =>
    cases ha with
    | seq _ h => exact .seq _ (ih h)
  | second =>
    cases ha with
    | seq _ h =>
      cases h with
      | ended h => exact absurd h hP.completed
  | skip =>
    cases ha with
    | seq _ h => exact h
  | branch before after _ ih =>
    cases ha with
    | @join _ x hmem h =>
      rcases mem_replace hmem with rfl | hmem
      · exact .join (List.mem_append_right _ List.mem_cons_self) (ih h)
      · exact .join hmem h
  | joined =>
    cases ha with
    | join hmem h =>
      obtain ⟨flow, hflow, rfl⟩ := List.mem_map.mp hmem
      cases h with
      | ended h => exact .ended (hP.merge hflow h)
  | inside _ ih =>
    cases ha with
    | within _ _ _ _ h => exact .within _ _ _ _ (ih h)
  | again =>
    cases ha with
    | within _ _ _ _ h =>
      cases h with
      | ended h => exact absurd h hP.completed
  | leave =>
    cases ha with
    | within _ _ _ _ h => exact h
  | _ => cases ha

/-- **An activity is doomed as soon as one of its parts reports an error.** -/
theorem Move.reports {a a' : Activity} {w w' : World} (h : Move env a w a' w') :
    Reports w w' fun _ => Doomed a' := by
  induction h with
  | @pause path o w =>
    refine .nothing ?_ ?_
    · exact see_beginPause_none rfl (fun _ => rfl) (fun _ _ => rfl) _ _
    · obtain ⟨draws, span, h⟩ := beginPause_eq env path o w
      rw [h, beginSleep_world, emit, failed_cancelIf, failed_note, failed_notes]
  | @dispatch path t w =>
    refine .nothing ?_ ?_
    · exact see_announce_none rfl (fun _ => rfl) (fun _ => rfl) (fun _ _ => rfl)
        (fun _ _ => rfl) _ _
    · rw [announce_eq, emit, failed_cancelIf, failed_note, failed_notes, failed_note]
  | serve before after hq =>
    refine hq.reports.imp fun e he => ?_
    subst he
    exact .applying (List.mem_append_right _ List.mem_cons_self) rfl
  | first _ ih => exact ih.imp fun _ h => .seq _ h
  | branch before after _ ih =>
    exact ih.imp fun _ h => .join (List.mem_append_right _ List.mem_cons_self) h
  | inside _ ih => exact ih.imp fun _ h => .within _ _ _ _ h
  | @bar block _ _ _ cause w w' he =>
    refine .inr ⟨.loop block.path.text cause, ?_, rfl, .ended rfl⟩
    rw [see_fail_none _ rfl, see_note, see_enterLoop (fun _ => rfl) he]
    rfl
  | @enter block _ _ _ _ w w' he =>
    refine .nothing ?_ ?_
    · rw [see_note_none _ rfl, see_enterLoop (fun _ => rfl) he]
    · obtain ⟨draws, drawn, -, h⟩ := enterLoop_eq env block.mode w
      rw [h] at he
      obtain ⟨-, rfl⟩ := Prod.mk.inj he
      rw [failed_note, failed_notes]
  | expire => exact .nothing (see_note_none _ rfl) rfl
  | begin =>
    refine .nothing (see_emit_none _ _ rfl rfl) ?_
    rw [emit, failed_cancelIf, failed_note]
  | again => exact .nothing rfl rfl
  | _ => exact .nothing rfl rfl

end Activity

/-! ### Runs -/

/-- What is true of a run at any time. -/
structure Machine.Sound (m : Machine) : Prop where
  /-- Parts that have ended have a reason for it. -/
  explained : ∀ flow ∈ m.activity.endings, flow.Explained m.world
  /-- The run was made to halt by errors that were reported. -/
  failed : m.world.failed = true ↔ m.world.see Entry.error? ≠ []
  /-- After an error the run is doomed. -/
  doomed : m.world.failed = true → m.activity.Doomed

/-- What explains how a part has ended goes on to explain it. -/
theorem Flow.Explained.mono {flow : Flow} {w w' : World} (h : flow.Explained w)
    (hhalted : w.halted = true → w'.halted = true)
    (herrors : ∀ e ∈ w.see Entry.error?, e ∈ w'.see Entry.error?) : flow.Explained w' := by
  cases flow with
  | completed => trivial
  | cancelled => exact hhalted h
  | fatal e => exact herrors e h

namespace Machine

/-- Nothing changes but the world around the activity. -/
theorem Sound.of_world {a : Activity} {w w' : World} (h : Sound ⟨a, w⟩) (hops : Ops w w')
    (hsee : w'.see Entry.error? = w.see Entry.error?) (hf : w'.failed = w.failed) :
    Sound ⟨a, w'⟩ where
  explained flow hflow :=
    (h.explained flow hflow).mono hops.halted fun e he => by rwa [hsee]
  failed := by
    show w'.failed = true ↔ w'.see Entry.error? ≠ []
    rw [hsee, hf]
    exact h.failed
  doomed hf' := h.doomed (hf ▸ hf')

theorem Sound.act {a a' : Activity} {w w' : World} (h : Sound ⟨a, w⟩)
    (ha : Activity.Move env a w a' w') : Sound ⟨a', w'⟩ := by
  have herrors : ∀ e ∈ w.see Entry.error?, e ∈ w'.see Entry.error? := by
    rcases ha.reports with ⟨hsee, -⟩ | ⟨e, hsee, -, -⟩
    · exact fun e he => by rwa [hsee]
    · exact fun e he => by
        rw [hsee]
        exact List.mem_append_left _ he
  -- reasons remain, an error makes the run halt, and it dooms the activity
  refine ⟨fun flow hflow => ?_, ?_, fun hfailed => ?_⟩
  · rcases ha.endings flow hflow with h' | h'
    · exact (h.explained flow h').mono ha.ops.halted herrors
    · exact h'
  · rcases ha.reports with ⟨hsee, hf⟩ | ⟨e, hsee, hf, -⟩
    · show w'.failed = true ↔ w'.see Entry.error? ≠ []
      rw [hsee, hf]
      exact h.failed
    · refine iff_of_true hf ?_
      show w'.see Entry.error? ≠ []
      rw [hsee]
      exact List.append_ne_nil_of_right_ne_nil _ (List.cons_ne_nil e [])
  · rcases ha.reports with ⟨-, hf⟩ | ⟨e, -, -, hdoomed⟩
    · exact ha.destined Flow.isFatal_prevails (h.doomed (hf ▸ hfailed))
    · exact hdoomed

/-- **The invariants of a run.** -/
theorem Moves.sound {m m' : Machine} (h : Moves env m m') (hm : m.Sound) : m'.Sound := by
  refine h.keep Sound (fun hmove hm => ?_) hm
  cases hmove with
  | act ha => exact hm.act ha
  | wait a w t => exact hm.of_world (.single (.clock t w)) rfl rfl
  | turn a w => exact hm.of_world (.single (.turn w)) rfl rfl
  | cancel a w due =>
    exact hm.of_world (.single (.cancel due w)) (see_cancelIf w rfl due) (failed_cancelIf w due)

end Machine

/-- Nothing that is planned has ended, but for what there is not. -/
theorem Activity.Planned.endings {N : Path × Step → Prop} {a : Activity} (h : a.Planned N) :
    ∀ flow ∈ a.endings, flow = .completed := by
  induction h with
  | nothing => exact fun flow hflow => List.mem_singleton.mp hflow
  | pause | dispatch => exact fun flow hflow => absurd hflow List.not_mem_nil
  | seq _ _ hfirst hrest =>
    intro flow hflow
    exact (List.mem_append.mp hflow).elim (hfirst flow) (hrest flow)
  | join _ ih =>
    intro flow hflow
    rw [Activity.endings, endingsAll_eq_flatMap] at hflow
    obtain ⟨a, ha, hflow⟩ := List.mem_flatMap.mp hflow
    exact ih a ha flow hflow
  | enter _ _ _ hbody => exact hbody

/-! ### Results -/

namespace Program

variable {p : Program}

/-- What may end a run with an error: faults of the program, a loop that cannot be entered, or a
call that comes to an error which leaves no way on. -/
inductive Ruin (p : Program) (w : World) : RunError → Prop
  | invalid (h : p.step.faults ≠ []) : Ruin p w (.invalidProgram p.step.faults)
  | loop {path : Path} {cause : LoopError} (h : .barred path cause ∈ w.entries) :
      Ruin p w (.loop path.text cause)
  | gateway {c : Call} {cause : GatewayError} (h : .settled c (some (.gateway cause)) ∈ w.entries)
      (hf : cause.isFatal = true) : Ruin p w (.gateway c.device.label cause)

theorem ruin_iff {w : World} {e : RunError} : p.Ruin w e ↔
    (p.step.faults ≠ [] ∧ e = .invalidProgram p.step.faults) ∨ e ∈ w.see Entry.error? := by
  constructor
  · rintro (hp | h | @⟨c, cause, h, hf⟩)
    · exact .inl ⟨hp, rfl⟩
    · exact .inr (List.mem_filterMap.mpr ⟨_, h, rfl⟩)
    · refine .inr (List.mem_filterMap.mpr ⟨_, h, ?_⟩)
      exact if_pos hf
  · rintro (⟨hp, rfl⟩ | h)
    · exact .invalid hp
    · obtain ⟨entry, hentry, he⟩ := List.mem_filterMap.mp h
      cases entry with
      | barred path cause =>
        cases he
        exact .loop hentry
      | settled c error =>
        cases error with
        | none => cases he
        | some error =>
          cases error with
          | gateway cause =>
            by_cases hf : cause.isFatal = true
            · rw [Entry.error?, Call.fatal?, if_pos hf] at he
              cases he
              exact .gateway hentry hf
            · rw [Entry.error?, Call.fatal?, if_neg hf] at he
              cases he
          | _ => cases he
      | _ => cases he

theorem firstWorld_failed (env : Environment) (p : Program) :
    (p.firstWorld env).failed = false := by
  rw [firstWorld, emit, failed_cancelIf, failed_note, cancelOnTime, failed_cancelIf]

theorem start_sound (hp : p.step.faults = []) : (Machine.start env p).Sound := by
  rw [start_of_valid hp]
  refine ⟨fun flow hflow => ?_, ?_, fun hf => ?_⟩
  · rw [(p.step.activity_planned env.scope _).endings flow hflow]
    trivial
  · show (p.firstWorld env).failed = true ↔ (p.firstWorld env).see Entry.error? ≠ []
    rw [firstWorld_failed, see_firstWorld rfl]
    exact iff_of_false nofun fun h => h rfl
  · have hfailed : (p.firstWorld env).failed = true := hf
    rw [firstWorld_failed] at hfailed
    exact absurd hfailed nofun

/-- How a run has ended: with an error just if one was reported, and cancelled only if the
caller cancelled. -/
theorem flow_of_reaches {flow : Flow} {w : World} (h : p.Reaches env ⟨.ended flow, w⟩) :
    (flow.isFatal = true ↔ ∃ e, p.Ruin w e) ∧ (∀ e, flow = .fatal e → p.Ruin w e) ∧
      (flow = .cancelled → .cancelled ∈ w.entries) := by
  have hfaithful := h.faithful
  by_cases hp : p.step.faults = []
  · have hsound := Machine.Moves.sound h (start_sound hp)
    have hexplained := hsound.explained flow List.mem_cons_self
    have hdoomed : w.see Entry.error? ≠ [] → flow.isFatal = true := fun hne => by
      cases hsound.doomed (hsound.failed.mpr hne) with
      | ended hf => exact hf
    have hruin : ∀ e, p.Ruin w e ↔ e ∈ w.see Entry.error? := fun e => by
      rw [ruin_iff, or_iff_right fun h => h.1 hp]
    refine ⟨⟨fun hf => ?_, fun ⟨e, he⟩ => ?_⟩, ?_, ?_⟩
    · cases flow with
      | fatal e => exact ⟨e, (hruin e).mpr hexplained⟩
      | _ => exact absurd hf nofun
    · exact hdoomed (List.ne_nil_of_mem ((hruin e).mp he))
    · rintro e rfl
      exact (hruin e).mpr hexplained
    · rintro rfl
      -- a run that halts by itself is doomed
      have hhalted : (w.cancelled || w.failed) = true := hexplained
      rcases Bool.or_eq_true _ _ ▸ hhalted with hc | hf
      · exact hfaithful.cancelled.mp hc
      · exact absurd (hdoomed (hsound.failed.mp hf)) nofun
  · rw [Reaches, start_of_faults hp] at h
    obtain ⟨hended, -⟩ := h.of_ended
    cases hended
    exact ⟨iff_of_true rfl ⟨_, .invalid hp⟩, fun e he => Flow.fatal.inj he ▸ .invalid hp, nofun⟩

/-- All parts of a run that have ended are completed, as long as the run does not come to halt. -/
theorem Reaches.completed {m : Machine} (h : p.Reaches env m) (hvalid : p.step.faults = [])
    (hgoing : m.world.halted = false) : ∀ flow ∈ m.activity.endings, flow = .completed := by
  have hsound := Machine.Moves.sound h (start_sound hvalid)
  intro flow hflow
  have hexplained := hsound.explained flow hflow
  cases flow with
  | completed => rfl
  | cancelled => exact absurd hexplained (not_halted_of_going hgoing)
  | fatal e =>
    have hfailed : m.world.failed = true := hsound.failed.mpr (List.ne_nil_of_mem hexplained)
    rw [halted, hfailed, Bool.or_true] at hgoing
    cases hgoing

/-- A run that nothing ends before it is done has not come to halt, and is completed. -/
theorem completed_of_unruined {flow : Flow} {w : World} (h : p.Reaches env ⟨.ended flow, w⟩)
    (hcalm : w.cancelled = false) (hnone : ∀ e, ¬p.Ruin w e) :
    flow = .completed ∧ w.halted = false := by
  have hvalid : p.step.faults = [] :=
    Classical.byContradiction fun hfaults => hnone _ (.invalid hfaults)
  have hfailed : w.failed = false := by
    refine Bool.eq_false_iff.mpr fun hf => ?_
    have hne := (Machine.Moves.sound h (start_sound hvalid)).failed.mp hf
    obtain ⟨e, he⟩ := List.exists_mem_of_ne_nil _ hne
    exact hnone e (ruin_iff.mpr (.inr he))
  have hgoing : w.halted = false := by
    rw [halted, hcalm, hfailed]
    rfl
  exact ⟨h.completed hvalid hgoing flow List.mem_cons_self, hgoing⟩

/-- **The status of a run.**  A run ends with an error just if there was one, and its result
holds such an error.  It is cancelled only if the caller cancelled before it stopped; that other
parts had to halt because of an error is never taken for this.  Otherwise it is completed.  The
exit code tells success, cancellation and everything else apart.  What calls came to is what the
gateway answered. -/
theorem status_of_returns {result : RunResult} {w : World} (h : p.Returns env result w) :
    (result.status = .fatal ↔ ∃ e, p.Ruin w e) ∧
      (result.status = .fatal ↔ ∃ e, result.fatal = some e) ∧
      (∀ e, result.fatal = some e → p.Ruin w e) ∧ w.Answered env ∧
      (∃ before after, w.entries
          = before ++ .event (.stopped env.runId result.status) :: after ∧
        (result.status = .cancelled → .cancelled ∈ before) ∧
        ((∀ e, ¬p.Ruin w e) → .cancelled ∉ before → result.status = .completed)) ∧
      (result.exitCode = 0 ↔ result.status = .completed ∧ result.failures = []) ∧
      (result.exitCode = 130 ↔ result.status = .cancelled) ∧
      (result.exitCode = 1 ↔ result.status ≠ .cancelled ∧
        ¬(result.status = .completed ∧ result.failures = [])) := by
  have hanswered := h.answered
  obtain ⟨flow, w', hreach, hresult⟩ := h
  obtain ⟨hfatal, hruin, hcancelled⟩ := flow_of_reaches hreach
  obtain ⟨rfl, rfl⟩ := Prod.mk.inj hresult
  have hsame : ∀ e, p.Ruin (w'.emit env (.stopped env.runId flow.status)) e ↔ p.Ruin w' e := by
    intro e
    rw [ruin_iff, ruin_iff, see_emit _ _ rfl]
    simp [Entry.error?]
  simp only [hsame]
  have hstatus : flow.status = .fatal ↔ flow.isFatal = true := by
    cases flow <;> simp [Flow.status, Flow.isFatal]
  have herror : ∀ e, flow.error? = some e ↔ flow = .fatal e := by
    intro e
    cases flow <;> simp [Flow.error?]
  refine ⟨hstatus.trans hfatal, ?_, fun e he => hruin e ((herror e).mp he), hanswered, ?_,
    RunResult.exitCode_iff _⟩
  · refine hstatus.trans ?_
    cases flow <;> simp [Flow.error?, Flow.isFatal]
  · refine ⟨w'.entries, _, entries_emit .., fun hc => hcancelled ?_, fun hnone hc => ?_⟩
    · cases flow with
      | cancelled => rfl
      | _ => cases hc
    · cases flow with
      | completed => rfl
      | cancelled => exact absurd (hcancelled rfl) hc
      | fatal e => exact absurd (hruin e rfl) (hnone e)

/-- The lamp that is to be served for ever halts when the spot is out of reach, and it is the spot
that tells how the run ends. -/
theorem spot_unreachable_status :
    let env := { Environment.plain with
      gateway := fun _ c => if c.device.name = "spot" then ⟨0, .failed (.unreachable "dark")⟩ else {} }
    ∃ result w, lampAndSpot.run? env 5 = some (result, w) ∧ result.status = .fatal ∧
      (∃ e, result.fatal = some e ∧ lampAndSpot.Ruin w e) ∧ result.exitCode = 1 := by
  intro env
  have hstatus : (lampAndSpot.run? env 5).map (·.1.status) = some .fatal := rfl
  obtain ⟨⟨result, w⟩, hrun, hstatus⟩ := Option.map_eq_some_iff.mp hstatus
  obtain ⟨-, hfatal, hruin, -, -, -, -, hcode⟩ := status_of_returns (returns_of_run? hrun)
  obtain ⟨e, he⟩ := hfatal.mp hstatus
  refine ⟨result, w, hrun, hstatus, ⟨e, he, hruin e he⟩, hcode.mpr ⟨?_, ?_⟩⟩
  · exact fun hc => absurd (hstatus.symm.trans hc) nofun
  · exact fun hc => absurd (hstatus.symm.trans hc.1) nofun

end Program

end Lightshow
