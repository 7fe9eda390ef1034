import Lightshow.Proofs.Language.Run
import Lightshow.Proofs.Run.Plain
import Lightshow.Proofs.Run.Planned
import Lightshow.Proofs.Run.Status
import Lightshow.Proofs.Validity.Faults

/-!
# What steps report

A run tells what it does by the paths of steps: iterations, transitions, devices that were served,
pauses, failures, and loops that cannot be entered.  The faults of a program are told by the same
paths before it runs.  Here every such report is traced back to the step that it is about.

An activity is put together from parts of steps, each with the path of its step: pauses,
transitions, loops, and the calls for a transition.  It is *rooted* in a tree if each part
belongs to the step of the tree at its path.  The activity of a tree is rooted in the tree, no move
changes that, and what a part reports is what its step has to say.  Since paths can be told from
their texts, a report leads back to one step.

## Main definitions

* `Entry.reported?` — the entries that name a step, with the text of its path.
* `Tells` — what a step at a path has to say.
* `Activity.Rooted` — every part of an activity belongs to the step at its path.
* `Step.LeadsTo` — a text stands for the path of a step, and of no other one.

## Main results

* `Activity.Move.rooted`, `Activity.Move.told` — single moves.
* `Program.Reaches.told` — every report of a run is told by a step of its program.
* `Step.faults_lead`, `Program.Returns.leads` — faults before a run, failures after it.
* `Program.reports_lead_back` — **every path that is reported leads back to one step**, in what is
  told before a run, while it goes on and in its result.
-/

namespace Lightshow

open World

variable {env : Environment}

/-! ### Reports -/

/-- The text of the path that an entry names a step by, with the entry. -/
def Entry.reported? : Entry → Option (String × Entry)
  | .event (.iteration order path number mode) =>
    some (path, .event (.iteration order path number mode))
  | .event (.transition path devices) => some (path, .event (.transition path devices))
  | .event (.applied path device error) => some (path, .event (.applied path device error))
  | .event (.paused path seconds) => some (path, .event (.paused path seconds))
  | .failed f => some (f.step, .failed f)
  | .barred path cause => some (path.text, .barred path cause)
  | _ => none

/-- What a step at a path has to say: a composite of its iterations, or why it cannot begin them; a
transition of its devices, and of what it cannot do for them; and either of its pauses. -/
inductive Tells (env : Environment) : Path × Step → Entry → Prop
  | iteration {path : Path} {order : Order} {steps : List Step} {loop : Loop} {pause : Pause}
      (number : ℕ) : Tells env (path, .composite order steps loop pause)
        (.event (.iteration order path.text number loop.mode.word))
  | barred {path : Path} {order : Order} {steps : List Step} {loop : Loop} {pause : Pause}
      {cause : LoopError} {started : Instant} {times : UInt64}
      (h : loop.mode.bound env.zone started (env.wall started) times = .error cause) :
      Tells env (path, .composite order steps loop pause) (.barred path cause)
  | transition {path : Path} {t : Transition} : Tells env (path, .transition t)
      (.event (.transition path.text ((t.named env.resolve).eraseDups.map Device.label)))
  | applied {path : Path} {t : Transition} {device : Device} (h : device ∈ t.named env.resolve)
      (error : Option DeviceError) : Tells env (path, .transition t)
        (.event (.applied path.text device.label (error.map DeviceError.message)))
  | failed {path : Path} {t : Transition} {device : Device} (h : device ∈ t.named env.resolve)
      (error : DeviceError) : Tells env (path, .transition t)
        (.failed ⟨device.label, path.text, error⟩)
  | unresolved {path : Path} {t : Transition} {r : DeviceRef} {cause : Unmapped}
      (hr : r ∈ Activity.references t) (h : env.resolve r = .error cause) :
      Tells env (path, .transition t) (.failed ⟨r.text, path.text, .unresolved cause⟩)
  | paused {path : Path} {s : Step} {o : TimeOption} (h : s.Pauses o) (part : Float) :
      Tells env (path, s) (.event (.paused path.text (o.duration part).toSeconds))

/-- What a step has to say names it by its path. -/
theorem Tells.reported?_eq {x : Path × Step} {e : Entry} (h : Tells env x e) :
    e.reported? = some (x.1.text, e) := by
  cases h <;> rfl

/-- The entry is reported as it is. -/
theorem Entry.eq_of_reported? {e : Entry} {r : String × Entry} (h : e.reported? = some r) :
    r.2 = e := by
  unfold reported? at h
  split at h <;> cases h <;> rfl

/-! ### Activities -/

variable {N : Path × Step → Prop}

/-- A call is made for a device that the transition at its path names. -/
def Call.Rooted (env : Environment) (N : Path × Step → Prop) (c : Call) : Prop :=
  ∃ t, N (c.path, .transition t) ∧ c.device ∈ t.named env.resolve

/-- So is the call of a queue, or its next one. -/
def Queue.Rooted (env : Environment) (N : Path × Step → Prop) : Queue → Prop
  | .ready c _ | .calling c _ _ _ | .awaiting c _ _ => c.Rooted env N
  | .ended _ => True

/-- A loop is that of the composite at its path, and some time options are pauses of it. -/
def Block.Rooted (N : Path × Step → Prop) (block : Block) (pauses : List (Option TimeOption)) :
    Prop :=
  ∃ steps loop pause, loop.mode = block.mode ∧
    N (block.path, .composite block.order steps loop pause) ∧
      ∀ o ∈ pauses, ∀ x ∈ o, (Step.composite block.order steps loop pause).Pauses x

/-- Every part of an activity belongs to the step at its path. -/
inductive Activity.Rooted (env : Environment) (N : Path × Step → Prop) : Activity → Prop
  | ended (flow : Flow) : Rooted env N (.ended flow)
  | pause {path : Path} {s : Step} {o : Option TimeOption} (hs : N (path, s))
      (ho : ∀ x ∈ o, s.Pauses x) : Rooted env N (.pause path o)
  | sleeping (wake : Instant) : Rooted env N (.sleeping wake)
  | dispatch {path : Path} {t : Transition} (h : N (path, .transition t)) :
      Rooted env N (.dispatch path t)
  | applying {queues : List Queue} (h : ∀ q ∈ queues, q.Rooted env N) :
      Rooted env N (.applying queues)
  | seq {first rest : Activity} (hfirst : Rooted env N first) (hrest : Rooted env N rest) :
      Rooted env N (.seq first rest)
  | join {branches : List Activity} (h : ∀ a ∈ branches, Rooted env N a) :
      Rooted env N (.join branches)
  | enter {block : Block} {before after : Option TimeOption} {body : Activity}
      (hblock : block.Rooted N [before, after]) (hbody : Rooted env N body) :
      Rooted env N (.enter block before body after)
  | rounds {block : Block} (bound : Bound) (completed : ℕ) {body : Activity}
      (hblock : block.Rooted N []) (hbody : Rooted env N body) :
      Rooted env N (.rounds block bound completed body)
  | within {block : Block} (bound : Bound) (completed : ℕ) {body current : Activity}
      (hblock : block.Rooted N []) (hbody : Rooted env N body)
      (hcurrent : Rooted env N current) : Rooted env N (.within block bound completed body current)

/-- The pauses of a loop are no concern of its iterations. -/
theorem Block.Rooted.nil {block : Block} {pauses : List (Option TimeOption)}
    (h : block.Rooted N pauses) : block.Rooted N [] := by
  obtain ⟨steps, loop, pause, hmode, hmem, -⟩ := h
  exact ⟨steps, loop, pause, hmode, hmem, fun o ho => absurd ho List.not_mem_nil⟩

/-- A pause around a loop belongs to its composite. -/
theorem Block.Rooted.pause {block : Block} {pauses : List (Option TimeOption)}
    (h : block.Rooted N pauses) {o : Option TimeOption} (ho : o ∈ pauses) :
    (Activity.pause block.path o).Rooted env N := by
  obtain ⟨steps, loop, pause, -, hmem, hpauses⟩ := h
  exact .pause hmem (hpauses o ho)

/-! ### Moves -/

theorem Queue.Move.rooted {q q' : Queue} {w w' : World} (h : Queue.Move env q w q' w')
    (hq : q.Rooted env N) : q'.Rooted env N := by
  have hnext : ∀ (call : Call) (left : ℕ) (flow : Option Flow), call.Rooted env N →
      (next call left flow).Rooted env N := by
    intro call left flow hcall
    cases flow with
    | none => exact hcall
    | some flow => trivial
  cases h with
  | finish => trivial
  | halt => trivial
  | call hw hc =>
    subst hc
    exact hq
  | await => exact hq
  | answer => exact hnext _ _ _ hq
  | acknowledge => exact hnext _ _ _ hq

namespace Activity

/-- The devices of a transition that are served are those that it names. -/
theorem named_of_mem_announced {t : Transition} {x : Device × ℕ} (hx : x ∈ announced env t) :
    x.1 ∈ t.named env.resolve := by
  rw [announced, foldl_count] at hx
  obtain ⟨d, hd, rfl⟩ := List.mem_map.mp hx
  exact List.mem_eraseDups.mp hd

/-- **No move takes a part away from its step.** -/
theorem Move.rooted {a a' : Activity} {w w' : World} (h : Move env a w a' w')
    (ha : a.Rooted env N) : a'.Rooted env N := by
  induction h with
  | pause =>
    exact beginPause_activity _ _ _ _ (fun _ => .ended _) (fun _ => .ended _) fun _ => .sleeping
  | wake => exact pollSleep_activity _ _ (fun _ => .ended _) (fun _ => .ended _) fun _ => .sleeping
  | dispatch =>
    cases ha with
    | dispatch ht =>
      rw [announce_devices]
      refine .applying fun q hq => ?_
      obtain ⟨x, hx, rfl⟩ := List.mem_map.mp hq
      exact ⟨_, ht, named_of_mem_announced hx⟩
  | serve before after hq =>
    cases ha with
    | applying h => exact .applying (forall_mem_replace h hq.rooted)
  | first _ ih =>
    cases ha with
    | seq hfirst hrest => exact .seq (ih hfirst) hrest
  | second =>
    cases ha with
    | seq _ hrest => exact hrest
  | branch before after _ ih =>
    cases ha with
    | join h => exact .join (forall_mem_replace h ih)
  | enter he =>
    cases ha with
    | enter hblock hbody =>
      exact .seq (hblock.pause List.mem_cons_self) (.seq (.rounds _ 0 hblock.nil hbody)
        (hblock.pause (List.mem_cons_of_mem _ List.mem_cons_self)))
  | begin =>
    cases ha with
    | rounds _ _ hblock hbody => exact .within _ _ hblock hbody hbody
  | inside _ ih =>
    cases ha with
    | within _ _ hblock hbody hcurrent => exact .within _ _ hblock hbody (ih hcurrent)
  | again =>
    cases ha with
    | within _ _ hblock hbody _ => exact .rounds _ _ hblock hbody
  | _ =>
    -- the other moves end a part
    exact .ended _

end Activity

/-! ### What moves report -/

/-- What is reported in a world is told by some steps. -/
def World.Told (env : Environment) (N : Path × Step → Prop) (w : World) : Prop :=
  ∀ r ∈ w.see Entry.reported?, ∃ x, N x ∧ Tells env x r.2

namespace World

/-- Nothing new is reported. -/
theorem Told.of_see {w w' : World} (h : w.Told env N)
    (hsee : w'.see Entry.reported? = w.see Entry.reported?) : w'.Told env N := by
  rw [Told, hsee]
  exact h

/-- What is new is told by some steps. -/
theorem Told.append {w w' : World} (h : w.Told env N) {new : List (String × Entry)}
    (hsee : w'.see Entry.reported? = w.see Entry.reported? ++ new)
    (hnew : ∀ r ∈ new, ∃ x, N x ∧ Tells env x r.2) : w'.Told env N := by
  rw [Told, hsee]
  intro r hr
  exact (List.mem_append.mp hr).elim (h r) (hnew r)

/-- An event is shown that a step tells. -/
theorem Told.emit {w : World} (h : w.Told env N) {x : Path × Step} (hx : N x) {e : Event}
    (he : Tells env x (.event e)) : (w.emit env e).Told env N := by
  refine h.append (see_emit _ _ rfl e) fun r hr => ?_
  rw [he.reported?_eq] at hr
  rw [List.mem_singleton.mp hr]
  exact ⟨x, hx, he⟩

/-- Something is noted that a step tells. -/
theorem Told.note {w : World} (h : w.Told env N) {x : Path × Step} (hx : N x) {e : Entry}
    (he : Tells env x e) : (w.note e).Told env N := by
  refine h.append (see_note _ _ e) fun r hr => ?_
  rw [he.reported?_eq] at hr
  rw [List.mem_singleton.mp hr]
  exact ⟨x, hx, he⟩

end World

/-- What a call came to is told by the transition that it is made for. -/
theorem Queue.settle_told {c : Call} (hc : c.Rooted env N) (result : Except DeviceError Unit)
    {w : World} (hw : w.Told env N) : (settle env c result w).2.Told env N := by
  obtain ⟨t, ht, hdevice⟩ := hc
  have hshown : ∀ error, (shown env c error w).Told env N := fun error =>
    (hw.of_see (see_note_none _ rfl)).emit ht (.applied hdevice error)
  rcases settle_cases env c result w with ⟨-, h⟩ | ⟨e, -, -, h⟩ | ⟨cause, -, -, h⟩
  · rw [h]
    exact hshown none
  · rw [h]
    exact (hshown (some e)).note ht (.failed hdevice e)
  · rw [h]
    exact (hshown _).of_see (see_fail_none _ rfl)

theorem Queue.Move.told {q q' : Queue} {w w' : World} (h : Queue.Move env q w q' w')
    (hq : q.Rooted env N) (hw : w.Told env N) : w'.Told env N := by
  cases h with
  | finish => exact hw
  | halt => exact hw
  | call hgoing hc => exact hw.of_see (see_call_none _ _ rfl rfl)
  | await => exact hw.of_see (see_note_none _ rfl)
  | answer => exact settle_told hq _ (hw.of_see (see_note_none _ rfl))
  | acknowledge => exact settle_told hq _ hw

namespace Activity

/-- A pause is announced with a length that its time option may have. -/
theorem beginPause_lasts (path : Path) (o : TimeOption) (w : World) :
    ∃ (draws : List Draw) (part : Float), beginPause env path (some o) w
      = beginSleep (o.duration part) ((w.notes (draws.map Entry.drew)).emit env
          (.paused path.text (o.duration part).toSeconds)) := by
  rw [beginPause, drawDuration]
  cases o.jitter with
  | none => exact ⟨[], 0, rfl⟩
  | some j => exact ⟨[.real j.min j.max], _, rfl⟩

/-- A transition tells the failure of a reference that means nothing. -/
theorem tells_of_failure? {path : Path} {t : Transition} {r : DeviceRef} {f : Failure}
    (hr : r ∈ references t) (hf : r.failure? env.resolve path = some f) :
    Tells env (path, .transition t) (.failed f) := by
  unfold DeviceRef.failure? at hf
  split at hf
  · cases hf
  · next cause hresolve =>
    obtain rfl := Option.some.inj hf
    exact .unresolved hr hresolve

/-- A transition tells the references that mean nothing, and the devices that it names. -/
theorem announce_told {path : Path} {t : Transition} (ht : N (path, .transition t)) {w : World}
    (hw : w.Told env N) : (announce env path t w).2.Told env N := by
  have hlabels : (announced env t).map (·.1.label)
      = (t.named env.resolve).eraseDups.map Device.label := by
    rw [announced, foldl_count, List.map_map]
    rfl
  rw [announce_eq, hlabels]
  refine Told.emit ?_ ht .transition
  refine (hw.of_see (see_note_none _ rfl)).append (see_notes _ _ _) fun x hx => ?_
  obtain ⟨e, he, hx⟩ := List.mem_filterMap.mp hx
  obtain ⟨r, hr, he⟩ := List.mem_flatMap.mp he
  -- that a reference is looked up is not reported, only what becomes of it
  rcases List.mem_cons.mp he with rfl | he
  · cases hx
  · obtain ⟨f, hf, rfl⟩ := Option.map_eq_some_iff.mp (Option.mem_toList.mp he)
    obtain rfl := Option.some.inj hx
    exact ⟨_, ht, tells_of_failure? hr hf⟩

/-- **What a move reports is told by the step that it is a move of.** -/
theorem Move.told {a a' : Activity} {w w' : World} (h : Move env a w a' w')
    (ha : a.Rooted env N) (hw : w.Told env N) : w'.Told env N := by
  induction h with
  | @pause path o w =>
    cases ha with
    | pause hs ho =>
      obtain ⟨draws, part, h⟩ := beginPause_lasts path o w
      -- the draws are not reported, only the pause that they come to
      rw [h, beginSleep_world]
      exact (hw.of_see (see_draws _ (fun _ => rfl) draws)).emit hs (.paused (ho o rfl) part)
  | dispatch =>
    cases ha with
    | dispatch ht => exact announce_told ht hw
  | serve before after hq =>
    cases ha with
    | applying h => exact hq.told (h _ (List.mem_append_right _ List.mem_cons_self)) hw
  | first _ ih =>
    cases ha with
    | seq hfirst _ => exact ih hfirst hw
  | branch before after _ ih =>
    cases ha with
    | join h => exact ih (h _ (List.mem_append_right _ List.mem_cons_self)) hw
  | inside _ ih =>
    cases ha with
    | within _ _ _ _ hcurrent => exact ih hcurrent hw
  | @bar block before after body cause w w' he =>
    cases ha with
    | enter hblock _ =>
      obtain ⟨steps, loop, pause, hmode, hmem, -⟩ := hblock
      obtain ⟨draws, times, -, heq⟩ := enterLoop_eq env block.mode w
      have hentered := hw.of_see (see_enterLoop (fun _ => rfl) he)
      -- what bars the loop is found from its mode, which is that of the composite
      rw [heq, ← hmode] at he
      exact (hentered.note hmem (.barred (Prod.mk.inj he).1)).of_see (see_fail_none _ rfl)
  | enter he =>
    exact (hw.of_see (see_enterLoop (fun _ => rfl) he)).of_see (see_note_none _ rfl)
  | expire => exact hw.of_see (see_note_none _ rfl)
  | begin =>
    cases ha with
    | rounds _ _ hblock _ =>
      obtain ⟨steps, loop, pause, hmode, hmem, -⟩ := hblock
      rw [← hmode]
      exact hw.emit hmem (.iteration _)
  | _ =>
    -- nothing is written by the other moves
    exact hw.of_see rfl

/-- What is planned for some steps is rooted in them. -/
theorem Planned.rooted {a : Activity} (h : a.Planned N) : a.Rooted env N := by
  induction h with
  | nothing => exact .ended _
  | pause hs ho => exact .pause hs ho
  | dispatch h => exact .dispatch h
  | seq _ _ hfirst hrest => exact .seq hfirst hrest
  | join _ ih => exact .join ih
  | enter hs hpauses _ hbody => exact .enter ⟨_, _, _, rfl, hs, hpauses⟩ hbody

end Activity

/-! ### Trees -/

namespace Step

/-- A text is the path of a step of a tree, and of no other step of it. -/
def LeadsTo (s : Step) (text : String) (x : Path × Step) : Prop :=
  x ∈ s.stepsAt s.rootPath ∧ x.1.text = text ∧
    ∀ y ∈ s.stepsAt s.rootPath, y.1.text = text → y = x

/-- The path of every step leads to it. -/
theorem leadsTo_of_mem {s : Step} {x : Path × Step} (hx : x ∈ s.stepsAt s.rootPath) :
    s.LeadsTo x.1.text x :=
  ⟨hx, rfl, fun y hy heq => stepsAt_unique s s.rootPath y hy x hx (Path.text_injective heq)⟩

/-- No two steps of a tree are named alike. -/
theorem nodup_texts (s : Step) : ((s.stepsAt s.rootPath).map fun x => x.1.text).Nodup := by
  refine List.pairwise_map.mpr ((List.pairwise_map.mp (nodup_stepsAt s s.rootPath)).imp ?_)
  intro x y hne htext
  exact hne (Path.text_injective htext)

/-- **A fault of a tree leads back to a step that it is a fault of**, and its text is the place of
no part of another one. -/
theorem faults_lead {s : Step} {f : Fault} (hf : f ∈ s.faults) :
    ∃ x, s.LeadsTo f.place.step.text x ∧ f ∈ x.2.ownFaults x.1 ∧
      ∀ y ∈ s.stepsAt s.rootPath, ∀ part, (Place.mk y.1 part).text = f.place.text → y = x := by
  rw [faults, faultsAt_eq_flatMap] at hf
  obtain ⟨x, hx, hown⟩ := List.mem_flatMap.mp hf
  obtain ⟨a, ha, -⟩ := mem_ownFaults.mp hown
  obtain ⟨hplace, -⟩ := fault?_eq_some ha
  rw [hplace]
  refine ⟨x, leadsTo_of_mem hx, hown, fun y hy part htext => ?_⟩
  have hstep : y.1 = x.1 := congrArg Place.step (Place.text_injective htext)
  exact stepsAt_unique s s.rootPath y hy x hx hstep

end Step

/-! ### Runs -/

/-- What is left of a run belongs to some steps, and so does what it has reported. -/
structure Machine.Rooted (env : Environment) (N : Path × Step → Prop) (m : Machine) : Prop where
  activity : m.activity.Rooted env N
  told : m.world.Told env N

theorem Machine.Moves.rooted {m m' : Machine} (h : Machine.Moves env m m')
    (hm : m.Rooted env N) : m'.Rooted env N := by
  refine h.keep (Machine.Rooted env N) (fun hmove hm => ?_) hm
  cases hmove with
  | act ha => exact ⟨ha.rooted hm.activity, ha.told hm.activity hm.told⟩
  | wait a w t => exact ⟨hm.activity, hm.told⟩
  | turn a w => exact ⟨hm.activity, hm.told⟩
  | cancel a w due => exact ⟨hm.activity, hm.told.of_see (see_cancelIf w rfl due)⟩

namespace Program

variable {p : Program}

/-- A step of a program, with its path. -/
def HasStep (p : Program) (x : Path × Step) : Prop := x ∈ p.step.stepsAt p.step.rootPath

theorem firstWorld_told (env : Environment) (p : Program) : (p.firstWorld env).Told env N := by
  rw [Told, see_firstWorld rfl]
  exact fun r hr => absurd hr List.not_mem_nil

theorem start_rooted (env : Environment) (p : Program) :
    (Machine.start env p).Rooted env p.HasStep := by
  by_cases hp : p.step.faults = []
  · rw [start_of_valid hp]
    exact ⟨(p.step.activity_planned env.scope _).rooted, firstWorld_told env p⟩
  · rw [start_of_faults hp]
    exact ⟨.ended _, firstWorld_told env p⟩

/-- **Every report of a run is told by a step of its program.** -/
theorem Reaches.told {m : Machine} (h : p.Reaches env m) : m.world.Told env p.HasStep :=
  (Machine.Moves.rooted h (start_rooted env p)).told

/-- A report that is told by some step of a program leads back to it. -/
theorem leads_of_told {w : World} (h : w.Told env p.HasStep) {r : String × Entry}
    (hr : r ∈ w.see Entry.reported?) : ∃ x, p.step.LeadsTo r.1 x ∧ Tells env x r.2 := by
  obtain ⟨x, hx, htells⟩ := h r hr
  obtain ⟨e, -, he⟩ := List.mem_filterMap.mp hr
  have htext : some r = some (x.1.text, r.2) := by
    rw [← htells.reported?_eq, Entry.eq_of_reported? he, he]
  rw [congrArg Prod.fst (Option.some.inj htext)]
  exact ⟨x, Step.leadsTo_of_mem hx, htells⟩

/-- The failures of a run lead back to the transitions that they are failures of, and the error that
ends it does to the composite whose loop cannot be entered, or to the faults of the program. -/
theorem Returns.leads {result : RunResult} {w : World} (h : p.Returns env result w) :
    (∀ f ∈ result.failures, ∃ x, p.step.LeadsTo f.step x ∧ Tells env x (.failed f)) ∧
      (∀ text cause, result.fatal = some (.loop text cause) →
        ∃ x, p.step.LeadsTo text x ∧ Tells env x (.barred x.1 cause)) ∧
      ∀ faults, result.fatal = some (.invalidProgram faults) → faults = p.step.faults := by
  obtain ⟨flow, w', hreach, hresult⟩ := h
  obtain ⟨rfl, -⟩ := Prod.mk.inj hresult
  have hruin : ∀ e, flow.error? = some e → p.Ruin w' e := by
    intro e he
    apply (flow_of_reaches hreach).2.1 e
    cases flow with
    | fatal cause => rw [Option.some.inj he]
    | completed | cancelled => cases he
  refine ⟨fun f hf => ?_, fun text cause he => ?_, fun faults he => ?_⟩
  · have hfailed : f ∈ w'.entries.filterMap Entry.failure? := Journal.failures_eq _ ▸ hf
    obtain ⟨e, hentry, he⟩ := List.mem_filterMap.mp hfailed
    cases e <;> cases he
    exact leads_of_told hreach.told (List.mem_filterMap.mpr ⟨_, hentry, rfl⟩)
  · cases hruin _ he with
    | loop hentry =>
      obtain ⟨x, hx, htells⟩ :=
        leads_of_told hreach.told (List.mem_filterMap.mpr ⟨_, hentry, rfl⟩)
      cases htells with
      | barred hbound => exact ⟨_, hx, .barred hbound⟩
  · cases hruin _ he with
    | invalid => rfl

/-- **Every path that is reported leads back to one step.**  No two steps of a program are named
alike.  A fault of the program is named by the step that it is a fault of, and so is everything that
a run reports of its steps up to any point, every failure of its result, and a loop that ends it. -/
theorem reports_lead_back (p : Program) :
    ((p.step.stepsAt p.step.rootPath).map fun x => x.1.text).Nodup ∧
    (∀ f ∈ p.step.faults, ∃ x, p.step.LeadsTo f.place.step.text x ∧ f ∈ x.2.ownFaults x.1 ∧
      ∀ y ∈ p.step.stepsAt p.step.rootPath, ∀ part,
        (Place.mk y.1 part).text = f.place.text → y = x) ∧
    (∀ env m, p.Reaches env m → ∀ r ∈ m.world.see Entry.reported?,
      ∃ x, p.step.LeadsTo r.1 x ∧ Tells env x r.2) ∧
    ∀ env result w, p.Returns env result w →
      (∀ f ∈ result.failures, ∃ x, p.step.LeadsTo f.step x ∧ Tells env x (.failed f)) ∧
      (∀ text cause, result.fatal = some (.loop text cause) →
        ∃ x, p.step.LeadsTo text x ∧ Tells env x (.barred x.1 cause)) ∧
      ∀ faults, result.fatal = some (.invalidProgram faults) → faults = p.step.faults := by
  refine ⟨p.step.nodup_texts, fun f => Step.faults_lead, fun env m h r => ?_, fun _ _ _ h => ?_⟩
  · exact leads_of_told h.told
  · exact h.leads

/-- A lamp is served, and after a pause a hall that nobody knows. -/
def lampAndHall : Program where
  step := .composite .serial
    [.transition { state := {}, devices := some [.light "lamp"],
                   pause := { after := some (.fixed 2) } },
     .transition { state := {}, devices := some [.group "hall"] }] {} {}

/-- What is reported of the lamp and the hall leads back to the two steps and to the whole, and the
fault of a program that is not run leads back as well. -/
theorem lamp_and_hall_lead_back :
    (∃ f ∈ Step.hasty.faults, ∃ x, Step.hasty.LeadsTo f.place.step.text x ∧
      f ∈ x.2.ownFaults x.1) ∧
    (∃ m, lampAndHall.Reaches .plain m ∧
      (m.world.see Entry.reported?).map Prod.fst = ["serial", "serial.steps[0].transition",
        "serial.steps[0].transition", "serial.steps[0].transition",
        "serial.steps[1].transition", "serial.steps[1].transition"] ∧
      ∀ r ∈ m.world.see Entry.reported?,
        ∃ x, lampAndHall.step.LeadsTo r.1 x ∧ Tells .plain x r.2) ∧
    ∃ result w, lampAndHall.Returns .plain result w ∧
      result.failures.map Failure.step = ["serial.steps[1].transition"] ∧
      ∀ f ∈ result.failures,
        ∃ x, lampAndHall.step.LeadsTo f.step x ∧ Tells .plain x (.failed f) := by
  obtain ⟨-, -, hreports, hresults⟩ := reports_lead_back lampAndHall
  refine ⟨?_, ⟨_, reaches_after 9, by rfl, hreports _ _ (reaches_after 9)⟩, ?_⟩
  · have hfault : .time ⟨.root .transition, .pauseBefore⟩ (.seconds (-1)) ∈ Step.hasty.faults :=
      List.mem_singleton.mpr rfl
    obtain ⟨-, hfaults, -⟩ := reports_lead_back ⟨none, Step.hasty⟩
    obtain ⟨x, hx, hown, -⟩ := hfaults _ hfault
    exact ⟨_, hfault, x, hx, hown⟩
  · have hfailures : (lampAndHall.run? .plain 9).map (·.1.failures.map Failure.step)
        = some ["serial.steps[1].transition"] := rfl
    obtain ⟨⟨result, w⟩, hrun, hfailures⟩ := Option.map_eq_some_iff.mp hfailures
    have hreturns := returns_of_run? hrun
    exact ⟨result, w, hreturns, hfailures, (hresults _ _ _ hreturns).1⟩

end Program

end Lightshow
