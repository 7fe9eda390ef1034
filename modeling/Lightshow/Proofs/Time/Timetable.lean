import Lightshow.Proofs.Run.Errands
import Lightshow.Proofs.Run.Plain
import Lightshow.Proofs.Time.Course
import Lightshow.Proofs.Time.Work

/-!
# The timetable of a run

A run at a steady pace keeps to a timetable.  It is known before it begins when each loop of the
program is entered, when each transition is dispatched, and when the run returns; however deep steps
are nested, and in whatever order the parts of the run go on at an instant.

What has started so far and what is still to start make up the timetable at any time.  A move lets
some steps start, when it is time for them, and the clock moves only if nothing is to be done
before.  In the end everything has started, and nothing is left that would take time.

All of this holds as long as there are ticks.  A pause that is over after the last one, or a window
that closes later, would come to its end then, or else in the far future.

## Main definitions

* `Program.InRange` — there are ticks as long as it matters.
* `Journal.starts` — the steps that have started, with their instants.
* `Ration.counted` — the iterations of counted loops.

## Main results

* `Program.Runs.outlook` — what has started and what is still to start.
* `Program.Runs.ends` — a run with counted loops ends.
* `Program.timetable` — **how long a program takes, and when its steps start.**
-/

namespace Lightshow

open Relation World

variable {env : Environment} {cost : Call → ℕ → Duration}

/-- There are ticks until a program is over that ends at an instant, or before, and until the windows
of all acknowledgements close that are waited for until then. -/
structure Program.InRange (env : Environment) (p : Program) (last : Instant) : Prop where
  ends : last ≤ lastTick
  windows : ∀ x ∈ p.transitions, x.2.wait = true → env.WindowInRange last x.2.state

/-- So the windows of all calls of a run close in time. -/
theorem Program.InRange.calls {p : Program} {m : Machine} {last : Instant}
    (h : p.InRange env last) (hreaches : p.Reaches env m) :
    ∀ c ∈ m.world.see Entry.call?, c.wait = true → env.WindowInRange last c.state := by
  intro c hc hwait
  obtain ⟨t, hmem, hstate, hwait'⟩ := hreaches.belongs.calls c hc
  rw [hstate]
  exact h.windows (c.path, t) hmem (hwait'.symm.trans hwait)

/-! ### Steps that have started -/

/-- The loops that were entered and the transitions that were dispatched so far, each with its
instant, the first one first. -/
def Journal.starts (j : Journal) : List Record :=
  j.reverse.filterMap fun r => r.entry.start?.map (Record.mk r.time)

/-- What a view shows to be new between two worlds happens now. -/
theorem World.Grows.dated {view : Entry → Option Entry} {w w' : World} (h : w.Grows w')
    {new : List Entry} (hsee : w'.see view = w.see view ++ new) :
    (w'.journal.reverse.filterMap fun r => (view r.entry).map (Record.mk r.time))
      = (w.journal.reverse.filterMap fun r => (view r.entry).map (Record.mk r.time))
        ++ new.map (Record.mk w.now) := by
  obtain ⟨-, later, hlater, htimes⟩ := h
  have hview : later.reverse.filterMap (fun r => (view r.entry).map (Record.mk r.time))
      = (later.entries.filterMap view).map (Record.mk w.now) := by
    rw [Journal.entries, List.filterMap_map, List.map_filterMap]
    refine List.filterMap_congr fun r hr => ?_
    rw [htimes r (List.mem_reverse.mp hr)]
    rfl
  rw [see_of_journal hlater] at hsee
  rw [hlater, List.reverse_append, List.filterMap_append, hview, List.append_cancel_left hsee]

/-- What starts between two worlds starts now. -/
theorem World.Grows.starts {w w' : World} (h : w.Grows w') {started : List Entry}
    (hsee : w'.see Entry.start? = w.see Entry.start? ++ started) :
    w'.journal.starts = w.journal.starts ++ started.map (Record.mk w.now) := h.dated hsee

/-! ### Runs on course -/

/-- A counted loop makes the iterations that are left. -/
def Ration.counted : Ration := ⟨fun mode => mode.number.toNat, Bound.left⟩

theorem Ration.counted_covers (halted : Bool) : counted.Covers LoopMode.Counted halted where
  enters hmode hbound := by
    rw [hmode.yields hbound]
    exact Nat.le_refl _
  begins _ _ _ _ _ hmode hbound hgoes := by
    show Bound.left _ _ < Bound.left _ _
    rw [hmode.left_of_continues hbound hgoes]
    exact Nat.lt_succ_self _

namespace Program

variable {p : Program} {m : Machine}

/-- Nothing has happened in the beginning but that the run started. -/
theorem firstWorld_eq (hcalm : env.cancellation = {}) : p.firstWorld env
    = World.note (.event (.started env.runId p.displayName)) {} := by
  rw [firstWorld, emit_calm hcalm, cancelOnTime_calm hcalm]

/-- **A run with counted loops ends**, if the caller sets no time at which it is cancelled. -/
theorem Runs.ends {P : TimeOption → Prop} (h : p.Runs env m)
    (hnone : env.cancellation.time = none)
    (hcounted : ∀ n ∈ p.step.nodes, n.Uses P LoopMode.Counted) :
    ∃ fuel flow w, m.run? env fuel = some (flow, w) := by
  refine Machine.exists_run? (p.Runs env) (Machine.toGo env .counted) (fun m hruns hlive => ?_) _ m
    (Nat.lt_succ_self _) h
  exact ⟨hruns.trans (Machine.round_ticks m), Machine.round_toGo hlive
    (fun halted _ => Ration.counted_covers halted) (hruns.reaches.supplied hcounted).uses
    (.inr hnone)⟩

/-- So a program with counted loops returns. -/
theorem exists_returns {P : TimeOption → Prop} (hnone : env.cancellation.time = none)
    (hcounted : ∀ n ∈ p.step.nodes, n.Uses P LoopMode.Counted) :
    ∃ fuel flow w, p.Runs env ⟨.ended flow, w⟩ ∧ p.run? env fuel = some (flow.result env w) := by
  have hstart : p.Runs env (Machine.start env p) := .refl
  obtain ⟨fuel, flow, w, hrun⟩ := hstart.ends hnone hcounted
  have hafter := (Machine.run?_eq_some_iff fuel _ flow w).mp hrun
  refine ⟨fuel, flow, w, hafter ▸ runs_after env p fuel, ?_⟩
  rw [Program.run?, hrun]
  rfl

section

variable (hvalid : p.step.faults = []) (hpaced : env.Paced cost)
  (hsteady : ∀ n ∈ p.step.nodes, n.Steady)
include hvalid hpaced hsteady

theorem Runs.onCourse (h : p.Runs env m) : m.activity.OnCourse m.world.now where
  ready := h.reaches.ready
  arranged := h.reaches.arranged
  steady := (h.reaches.supplied hsteady).uses
  completed := h.completed hvalid hpaced hsteady
  distinct := h.reaches.ledger.distinct
  punctual := h.serving_punctual

/-- **What has started and what is still to start make up the timetable**, and the end is in sight
at any time. -/
theorem Runs.outlook {last : Instant} (hrange : p.InRange env last)
    (hlast : (p.step.span env cost p.step.rootPath fun _ _ => 0) ≤ last) (h : p.Runs env m) :
    (m.activity.outlook env cost m.world.journal.tally m.world.now).ends
        = p.step.span env cost p.step.rootPath (fun _ _ => 0) ∧
      (m.world.journal.starts
        ++ (m.activity.outlook env cost m.world.journal.tally m.world.now).starts).Perm
          (p.step.starts env cost p.step.rootPath (fun _ _ => 0) 0) := by
  induction h with
  | refl =>
    have hlook : (Step.activity env.scope p.step.rootPath p.step).outlook env cost (fun _ _ => 0) 0
        = _ := Step.activity_outlook p.step p.step.rootPath (fun _ _ => 0) 0
    rw [start_of_valid hvalid, firstWorld_eq hpaced.calm]
    exact ⟨(congrArg Outlook.ends hlook).trans (Nat.zero_add _),
      List.Perm.of_eq (congrArg Outlook.starts hlook)⟩
  | tail hprev htick ih =>
    have hruns : p.Runs env _ := hprev
    obtain ⟨hends, hstarts⟩ := ih
    cases htick with
    | @act a a' w w' ha =>
      have hruns' : p.Runs env ⟨a', w'⟩ := hruns.tail (.act ha)
      have hgoing : w'.halted = false := hruns'.going hvalid hpaced hsteady
      obtain ⟨started, hsee, hfollows⟩ := ha.outlook hpaced (hruns.onCourse hvalid hpaced hsteady)
        hgoing (hruns.whole hpaced).1 hrange.ends (hends ▸ hlast) (hrange.calls hruns'.reaches)
      show (a'.outlook env cost w'.journal.tally w'.now).ends = _ ∧ List.Perm
        (w'.journal.starts ++ (a'.outlook env cost w'.journal.tally w'.now).starts) _
      rw [ha.leads.now, ha.grows.starts hsee, List.append_assoc]
      exact ⟨hfollows.ends.trans hends, (hfollows.starts.append_left _).trans hstarts⟩
    | turn => exact ⟨hends, hstarts⟩
    | cancel a w =>
      rw [cancelOnTime_calm hpaced.calm]
      exact ⟨hends, hstarts⟩
    | @wait a w hwaits =>
      have hnone : env.cancellation.time = none := by rw [hpaced.calm]
      obtain ⟨hdues, hlater⟩ := hwaits.dues
      have hmoves : w.now < Machine.nextInstant env a w :=
        hlater _ (Machine.nextInstant_mem (.inr hnone) hdues)
      have hsame : a.outlook env cost w.journal.tally _ = a.outlook env cost w.journal.tally w.now :=
        (hwaits.outlook (Nat.le_of_lt hmoves) _ fun t ht => Machine.nextInstant_le env w ht).1
      show (a.outlook env cost w.journal.tally _).ends = _ ∧ List.Perm
        (w.journal.starts ++ (a.outlook env cost w.journal.tally _).starts) _
      rw [hsame]
      exact ⟨hends, hstarts⟩

end

/-- **How long a program takes, and when its steps start.**  Let the loops of a program be counted
and its pauses known in advance, let the world be paced, so that `cost` tells how long each call
takes, and let the clock get as far as the program's span and all windows that are opened meanwhile.
Then the run returns, with nothing wrong, when the program's span has passed; and the loops that
were entered and the transitions that were dispatched are those of its timetable, each at its
instant.

The span of a composite whose iterations are alike, each of them `b` long without the pauses around
it, is what one would expect. -/
theorem timetable (hvalid : p.step.faults = []) (hpaced : env.Paced cost)
    (hsteady : ∀ n ∈ p.step.nodes, n.Steady)
    (hrange : p.InRange env (p.step.span env cost p.step.rootPath fun _ _ => 0)) :
    (∃ fuel result w, p.run? env fuel = some (result, w) ∧ result.status = .completed ∧
      w.now = p.step.span env cost p.step.rootPath (fun _ _ => 0) ∧
      w.journal.starts.Perm (p.step.starts env cost p.step.rootPath (fun _ _ => 0) 0)) ∧
    ∀ path order steps loop pause tally b,
      (∀ i < loop.mode.number.toNat, order.span
        (Step.spans env cost path 0 steps (tally.after (Step.callsAll env path 0 steps) i)) = b) →
      Step.span env cost path (.composite order steps loop pause) tally
        = match env.scope with
          | .perIteration => loop.mode.number.toNat * (pauseSpan pause.before + b
              + pauseSpan pause.after + pauseSpan loop.pause)
          | .aroundLoop => pauseSpan pause.before
              + loop.mode.number.toNat * (b + pauseSpan loop.pause) + pauseSpan pause.after := by
  refine ⟨?_, fun path order steps loop pause tally b halike => ?_⟩
  · have hstart : p.Runs env (Machine.start env p) := .refl
    obtain ⟨fuel, flow, w, hrun⟩ := hstart.ends (by rw [hpaced.calm]) hsteady
    have hended := (Machine.run?_eq_some_iff fuel _ flow w).mp hrun
    have hruns : p.Runs env ⟨.ended flow, w⟩ := hended ▸ runs_after env p fuel
    obtain rfl := hruns.completed hvalid hpaced hsteady flow (List.mem_singleton_self flow)
    obtain ⟨hends, hstarts⟩ := hruns.outlook hvalid hpaced hsteady hrange (Nat.le_refl _)
    have hstopped : (w.emit env (.stopped env.runId Flow.completed.status)).journal.starts
        = w.journal.starts := by
      have hsee : (w.emit env (.stopped env.runId Flow.completed.status)).see Entry.start?
          = w.see Entry.start? ++ [] := see_emit _ _ rfl _
      rw [(emit_grows _ w).starts hsee, List.map_nil, List.append_nil]
    refine ⟨fuel, _, _, by rw [Program.run?, hrun]; rfl, rfl, ?_, ?_⟩
    · exact (now_cancelIf _ _).trans hends
    · rw [hstopped, ← List.append_nil w.journal.starts]
      exact hstarts
  · exact Step.span_composite halike pause

/-- A lamp is served twice and a spot once, side by side, each call being acknowledged, and beside
this the spot once more after a rest; then comes a loop that makes no iteration, and a rest.  All of
this is done twice.  The first time that a transition calls a device takes longer. -/
theorem lamp_and_spot_timetable :
    let reply : ℕ → Reply := fun n =>
      ⟨Duration.millis (if n = 0 then 3 else 1), .pending (some (Duration.millis 2, .succeeded))⟩
    let env := { Environment.plain with
      gateway := fun j c => reply (j.tally c.path c.device)
      ackTimeout := Duration.millis 1
      scope := .aroundLoop }
    let lamp : Transition :=
      { state := {}, devices := some [.light "lamp", .light "lamp", .light "spot"], wait := true }
    let spot : Transition :=
      { state := {}, devices := some [.light "spot"], pause := { before := some (.fixed 0.002) } }
    let p : Program := ⟨none, .composite .serial
      [.composite .parallel [.transition lamp, .transition spot] {} {},
        .composite .parallel [.transition lamp] { mode := .counted 0 }
          { after := some (.fixed 0.25) }]
      { mode := .counted 2, pause := some (.fixed 0.01) } {}⟩
    ∃ fuel result w, p.run? env fuel = some (result, w) ∧ result.status = .completed ∧
      w.now = Duration.millis 534 ∧
      ⟨Duration.millis 270, .dispatched (.child (.child (.root .serial) 0 .parallel) 1 .transition)
        spot⟩ ∈ w.journal.starts := by
  intro reply env lamp spot p
  let cost : Call → ℕ → Duration := fun c n => (reply n).span env c
  have hmillis : ∀ n, Duration.perMilli ∣ Duration.millis n := fun n => Nat.dvd_mul_left _ n
  have hpaced : env.Paced cost :=
    { calm := rfl
      harmless := fun _ _ _ _ h => by cases h
      whole := fun _ _ => ⟨hmillis _, fun span a h => by cases h; exact hmillis 2⟩
      timeout := hmillis 1
      span := fun j c => (Reply.span_time env (reply (j.tally c.path c.device)) c 0).symm }
  have hvalid : p.step.faults = [] := by decide +kernel
  have hsteady : ∀ n ∈ p.step.nodes, n.Steady := by
    have hmode : ∀ n, (LoopMode.counted n).Counted := fun _ => rfl
    have hnone : ∀ o ∈ (none : Option TimeOption), o.Steady := fun _ h => by cases h
    have hsome : ∀ {x : TimeOption}, x.Steady → ∀ o ∈ some x, o.Steady := fun hx _ h =>
      Option.some.inj h ▸ hx
    have hbrief : (TimeOption.fixed 0.002).Steady := ⟨rfl, by decide +kernel⟩
    have hround : (TimeOption.fixed 0.01).Steady := ⟨rfl, by decide +kernel⟩
    have hrest : (TimeOption.fixed 0.25).Steady := ⟨rfl, by decide +kernel⟩
    simp only [p, Step.nodes, Step.nodesAll, List.append_nil, List.cons_append, List.nil_append,
      List.forall_mem_cons]
    exact ⟨⟨hmode 2, hsome hround, hnone, hnone⟩, ⟨hmode 1, hnone, hnone, hnone⟩, ⟨hnone, hnone⟩,
      ⟨hsome hbrief, hnone⟩, ⟨hmode 0, hnone, hnone, hsome hrest⟩,
      ⟨hnone, hnone⟩, List.forall_mem_nil _⟩
  have hspan : (p.step.span env cost p.step.rootPath fun _ _ => 0) = Duration.millis 534 := by
    decide +kernel
  have hrange : p.InRange env (p.step.span env cost p.step.rootPath fun _ _ => 0) := by
    refine ⟨hspan ▸ by decide, fun x _ _ => hspan ▸ ?_⟩
    -- no fade is so long that it mattered
    exact Nat.le_trans (Nat.add_le_add_left (Nat.add_le_add_right x.2.state.fadeDuration_le _) _)
      (show Duration.millis 534 + (Duration.millis (DeviceState.wordMax * 100) + Duration.millis 1)
        ≤ lastTick by decide)
  obtain ⟨⟨fuel, result, w, hrun, hstatus, hnow, hstarts⟩, -⟩ :=
    timetable hvalid hpaced hsteady hrange
  refine ⟨fuel, result, w, hrun, hstatus, hnow.trans hspan, hstarts.mem_iff.mpr ?_⟩
  decide +kernel

end Program

end Lightshow
