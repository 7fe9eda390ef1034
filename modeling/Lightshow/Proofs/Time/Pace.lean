import Lightshow.Proofs.Run.Status
import Lightshow.Proofs.Run.Uses
import Lightshow.Proofs.Time.Outlook

/-!
# Runs at a steady pace

Nothing is left to chance in a run if no part of it halts, if the time that each call takes is known
in advance, if no pause has a random part, if all loops are counted, and if all spans are whole
milliseconds, for which clocks can tell exactly when they are over.  Then the world is *paced* and
the steps are *steady*.

In such a run nothing halts: the caller does not cancel, no call comes to an error that ends the
run, and a counted loop can always be entered.  So all parts that end are completed.

## Main definitions

* `Environment.Paced` — a world in which it is known how long each call takes.
* `Step.Steady` — a step whose pauses and loops are known in advance.

## Main results

* `Program.Runs.going` — a run at a steady pace does not halt.
* `Program.Runs.completed` — all its parts that end are completed.
* `Program.Runs.whole` — all its instants are whole milliseconds.
-/

namespace Lightshow

open Relation World

variable {env : Environment} {cost : Call → ℕ → Duration}

/-! ### Worlds and steps -/

/-- What a call comes to does not end the run. -/
def Dispatch.Harmless : Dispatch → Prop
  | .failed cause => cause.isFatal = false
  | .pending ack => ∀ span cause, ack = some (span, .failed cause) → cause.isFatal = false
  | .done => True

/-- All spans of a reply are whole milliseconds. -/
structure Reply.Whole (r : Reply) : Prop where
  latency : Duration.perMilli ∣ r.latency
  ack : ∀ span a, r.outcome = .pending (some (span, a)) → Duration.perMilli ∣ span

/-- A world in which the caller does not cancel, no call comes to an error that ends the run, and
`cost` tells how long each call takes, given how often the device was called before for the
transition.  All spans are whole milliseconds. -/
structure Environment.Paced (env : Environment) (cost : Call → ℕ → Duration) : Prop where
  calm : env.cancellation = {}
  harmless : ∀ j c, (env.gateway j c).outcome.Harmless
  whole : ∀ j c, (env.gateway j c).Whole
  timeout : Duration.perMilli ∣ env.ackTimeout
  span : ∀ j c, (env.gateway j c).span env c
    = cost { c with time := 0 } (Journal.tally j c.path c.device)

/-- A time option without a random part, whose length is a whole number of milliseconds. -/
def TimeOption.Steady (o : TimeOption) : Prop := o.jitter = none ∧ Duration.perMilli ∣ o.duration 0

/-- A mode that repeats its steps a given number of times. -/
def LoopMode.Counted (mode : LoopMode) : Prop := mode = .counted mode.number

/-- The pauses and the loop of a step on its own are known in advance. -/
def Step.Steady : Step → Prop := Step.Uses TimeOption.Steady LoopMode.Counted

/-- The loop of a step on its own makes a number of iterations that is known in advance. -/
def Step.Counted : Step → Prop := Step.Uses (fun _ => True) LoopMode.Counted

/-- The bound of a counted loop is its number. -/
theorem LoopMode.Counted.yields {mode : LoopMode} {bound : Bound} (h : mode.Counted)
    (hbound : mode.Yields bound) : bound = .count mode.number := by
  obtain ⟨zone, started, wall, times, hbound⟩ := hbound
  rw [h] at hbound
  exact (Except.ok.inj hbound).symm

/-- A counted loop can be entered. -/
theorem LoopMode.Counted.enters {mode : LoopMode} (h : mode.Counted) {zone : Zone}
    {started : Instant} {wall : UtcTime} {times : UInt64} {cause : LoopError} :
    mode.bound zone started wall times ≠ .error cause := by
  rw [h]
  exact nofun

/-! ### Whole milliseconds -/

/-- The window for the acknowledgement of a state closes until the last tick, if it is opened at an
instant. -/
def Environment.WindowInRange (env : Environment) (now : Instant) (state : DeviceState) : Prop :=
  now + (state.fadeDuration + env.ackTimeout) ≤ lastTick

/-- And so it does if it is opened earlier. -/
theorem Environment.WindowInRange.mono {now now' : Instant} {state : DeviceState}
    (h : env.WindowInRange now' state) (hnow : now ≤ now') : env.WindowInRange now state :=
  Nat.le_trans (Nat.add_le_add_right hnow _) h

/-- A window that is opened at a whole millisecond closes after exactly the fade and the timeout, if
there are ticks until then. -/
theorem Window.opened_due (env : Environment) {state : DeviceState} {now : Instant}
    {ack : Option (Duration × Ack)} (hnow : Duration.perMilli ∣ now)
    (htimeout : Duration.perMilli ∣ env.ackTimeout) (hrange : env.WindowInRange now state) :
    (Window.opened env state now ack).due
      = now + (ack.map fun a => min a.1 (state.fadeDuration + env.ackTimeout)).getD
          (state.fadeDuration + env.ackTimeout) := by
  have hcloses : alarm now (state.fadeDuration + env.ackTimeout)
      = now + (state.fadeDuration + env.ackTimeout) :=
    alarm_of_dvd hnow (Nat.dvd_add state.dvd_fadeDuration htimeout) hrange
  cases ack with
  | none => exact hcloses
  | some a =>
    show min (now + a.1) (alarm now _) = _
    rw [hcloses, Nat.add_min_add_left]
    rfl

/-- What is known of a window is known at a whole millisecond. -/
theorem Window.dvd_due (env : Environment) {state : DeviceState} {now : Instant}
    {ack : Option (Duration × Ack)} (hnow : Duration.perMilli ∣ now)
    (hack : ∀ span a, ack = some (span, a) → Duration.perMilli ∣ span) :
    Duration.perMilli ∣ (Window.opened env state now ack).due := by
  have hcloses := dvd_alarm hnow (state.fadeDuration + env.ackTimeout)
  cases ack with
  | none => exact hcloses
  | some a =>
    have hspan : Duration.perMilli ∣ now + a.1 := Nat.dvd_add hnow (hack a.1 a.2 rfl)
    show Duration.perMilli ∣ min (now + a.1) (alarm now _)
    rcases min_choice (now + a.1) (alarm now (state.fadeDuration + env.ackTimeout)) with heq | heq
    · rwa [heq]
    · rwa [heq]

/-- In a paced world a call takes as long as its reply says, if there are ticks until then. -/
theorem Environment.Paced.finishes (h : env.Paced cost) {c : Call} {r : Reply} (hr : r.Whole)
    {now : Instant} (hnow : Duration.perMilli ∣ now)
    (hrange : c.wait = true → env.WindowInRange (now + r.latency) c.state) :
    r.outcome.finishes env c (now + r.latency) = now + r.span env c := by
  obtain ⟨latency, outcome⟩ := r
  rw [Reply.span, ← Nat.add_assoc]
  cases outcome with
  | pending ack =>
    rw [Dispatch.finishes]
    cases hwait : c.wait with
    | false => rfl
    | true =>
      rw [if_pos rfl,
        Window.opened_due env (Nat.dvd_add hnow hr.latency) h.timeout (hrange hwait)]
      cases ack <;> rfl
  | _ => rfl

/-! ### Nobody cancels -/

namespace World

variable (hcalm : env.cancellation = {})
include hcalm

/-- If the caller never cancels then events are only shown. -/
theorem emit_calm (e : Event) (w : World) : w.emit env e = w.note (.event e) := by
  rw [emit, hcalm]
  rfl

theorem call_calm (c : Call) (w : World) : w.call env c = w.note (.called c) := by
  rw [call, hcalm]
  rfl

theorem cancelOnTime_calm (w : World) : w.cancelOnTime env = w := by
  rw [cancelOnTime, hcalm]
  rfl

end World

theorem Queue.settle_cancelled (hcalm : env.cancellation = {}) (c : Call)
    (result : Except DeviceError Unit) (w : World) :
    (settle env c result w).2.cancelled = w.cancelled := by
  have hshown : ∀ error, (shown env c error w).cancelled = w.cancelled := fun error => by
    rw [shown, emit_calm hcalm]
    rfl
  rcases settle_cases env c result w with ⟨-, h⟩ | ⟨e, -, -, h⟩ | ⟨cause, -, -, h⟩
  · rw [h]
    exact hshown none
  · rw [h]
    exact hshown (some e)
  · rw [h]
    exact hshown (some (.gateway cause))

/-- No move cancels a run, if the caller does not. -/
theorem Activity.Move.cancelled (hcalm : env.cancellation = {}) {a a' : Activity} {w w' : World}
    (h : Activity.Move env a w a' w') : w'.cancelled = w.cancelled := by
  induction h with
  | @pause path o w =>
    obtain ⟨draws, span, h⟩ := beginPause_eq env path o w
    rw [h, beginSleep_world, emit_calm hcalm, cancelled_note, cancelled_notes]
  | @dispatch path t w =>
    rw [announce_eq, emit_calm hcalm, cancelled_note, cancelled_notes, cancelled_note]
  | serve _ _ hq =>
    cases hq with
    | call => rw [call_calm hcalm, cancelled_note]
    | answer => rw [Queue.settle_cancelled hcalm, cancelled_note]
    | acknowledge => exact Queue.settle_cancelled hcalm _ _ _
    | _ => rfl
  | first _ ih => exact ih
  | branch _ _ _ ih => exact ih
  | inside _ ih => exact ih
  | @bar block _ _ _ _ w w' he =>
    obtain ⟨draws, times, -, h⟩ := enterLoop_eq env block.mode w
    rw [h] at he
    obtain ⟨-, rfl⟩ := Prod.mk.inj he
    exact cancelled_notes w _
  | @enter block _ _ _ _ w w' he =>
    obtain ⟨draws, times, -, h⟩ := enterLoop_eq env block.mode w
    rw [h] at he
    obtain ⟨-, rfl⟩ := Prod.mk.inj he
    exact cancelled_notes w _
  | begin => rw [emit_calm hcalm, cancelled_note]
  | _ => rfl

/-! ### Nothing fails -/

/-- A call that is answered without harm does not end the run. -/
theorem Dispatch.Harmless.comesTo {c : Call} {outcome : Dispatch} {error : Option DeviceError}
    (h : outcome.Harmless) (hcomes : c.ComesTo env outcome error) : c.fatal? error = none := by
  cases hcomes with
  | done => rfl
  | failed cause => exact Queue.fatal?_eq_none h
  | unread => rfl
  | told span ack =>
    cases ack with
    | succeeded => rfl
    | failed cause => exact Queue.fatal?_eq_none (h span cause rfl)
    | dropped => rfl
  | late => rfl

namespace Program

variable {p : Program} {m : Machine}

/-- Nothing ends a run early whose loops are counted, if no call comes to an error that does. -/
theorem Reaches.errorless_of {P : TimeOption → Prop} (h : p.Reaches env m)
    (hcounted : ∀ n ∈ p.step.nodes, n.Uses P LoopMode.Counted)
    (hsettled : ∀ x ∈ m.world.see Entry.settled?, x.1.fatal? x.2 = none) :
    m.world.see Entry.error? = [] := by
  refine List.filterMap_eq_nil_iff.mpr fun e he => ?_
  cases e with
  | settled c error => exact hsettled (c, error) (List.mem_filterMap.mpr ⟨_, he, rfl⟩)
  | barred path cause =>
    -- a counted loop can be entered
    obtain ⟨mode, zone, started, wall, times, hmode, hbound⟩ :=
      (h.supplied hcounted).met _ (List.mem_filterMap.mpr ⟨_, he, rfl⟩)
    exact absurd hbound hmode.enters
  | _ => rfl

/-- So it is in a paced world. -/
theorem Reaches.errorless (h : p.Reaches env m) (hpaced : env.Paced cost)
    (hsteady : ∀ n ∈ p.step.nodes, n.Steady) : m.world.see Entry.error? = [] := by
  refine h.errorless_of hsteady fun x hx => ?_
  obtain ⟨outcome, ⟨history, -, houtcome⟩, hcomes⟩ := h.answered x hx
  have hharmless := hpaced.harmless history x.1
  rw [← houtcome] at hharmless
  exact hharmless.comesTo hcomes

/-- A run that nobody cancels is not cancelled. -/
theorem Runs.uncancelled (h : p.Runs env m) (hcalm : env.cancellation = {}) :
    m.world.cancelled = false := by
  induction h with
  | refl =>
    rw [start_world, firstWorld, emit_calm hcalm, cancelOnTime_calm hcalm]
    rfl
  | tail _ htick ih =>
    cases htick with
    | act ha => exact (ha.cancelled hcalm).trans ih
    | turn => exact ih
    | cancel a w =>
      rw [cancelOnTime_calm hcalm]
      exact ih
    | wait => exact ih

variable (h : p.Runs env m) (hvalid : p.step.faults = []) (hpaced : env.Paced cost)
  (hsteady : ∀ n ∈ p.step.nodes, n.Steady)
include h hvalid hpaced hsteady

/-- **A run at a steady pace does not halt.** -/
theorem Runs.going : m.world.halted = false := by
  have hsound := Machine.Moves.sound h.reaches (start_sound hvalid)
  have hfailed : m.world.failed = false := by
    refine Bool.eq_false_iff.mpr fun hf => ?_
    exact hsound.failed.mp hf (h.reaches.errorless hpaced hsteady)
  rw [World.halted, h.uncancelled hpaced.calm, hfailed]
  rfl

/-- **All its parts that end are completed.** -/
theorem Runs.completed : ∀ flow ∈ m.activity.endings, flow = .completed :=
  h.reaches.completed hvalid (h.going hvalid hpaced hsteady)

end Program

/-! ### Whole milliseconds throughout -/

/-- All that is due of a pause that begins at a whole millisecond is due at one. -/
theorem Activity.beginPause_whole (path : Path) (o : TimeOption) {w : World}
    (hnow : Duration.perMilli ∣ w.now) :
    ∀ t ∈ (beginPause env path (some o) w).1.dues, Duration.perMilli ∣ t := by
  obtain ⟨draws, span, h⟩ := beginPause_eq env path o w
  have hleads : w.Leads ((w.notes (draws.map Entry.drew)).emit env
      (.paused path.text span.toSeconds)) := (notes_leads _ w).trans (emit_leads env _ _)
  rw [h]
  unfold beginSleep pollSleep
  split
  · exact fun t ht => absurd ht List.not_mem_nil
  · split
    · exact fun t ht => absurd ht List.not_mem_nil
    · intro t ht
      rw [List.mem_singleton.mp ht, hleads.now]
      exact dvd_spanEnds hnow span

/-- So is what is due of a queue that moves at one, in a paced world. -/
theorem Queue.Move.whole {q q' : Queue} {w w' : World} (h : Queue.Move env q w q' w')
    (hpaced : env.Paced cost) (hnow : Duration.perMilli ∣ w.now) (hq : q.Answered env w) :
    ∀ t ∈ q'.due, Duration.perMilli ∣ t := by
  have hnext : ∀ (call : Call) (left : ℕ) (flow : Option Flow),
      ∀ t ∈ (next call left flow).due, Duration.perMilli ∣ t := by
    intro call left flow t ht
    cases flow <;> exact absurd ht nofun
  cases h with
  | finish => exact fun t ht => absurd ht nofun
  | halt => exact fun t ht => absurd ht nofun
  | call =>
    intro t ht
    obtain rfl := Option.some.inj ht
    exact Nat.dvd_add hnow (hpaced.whole _ _).latency
  | @await call left outcome returns window _ _ ha =>
    intro t ht
    obtain rfl := Option.some.inj ht
    obtain ⟨history, -, houtcome⟩ := hq
    rcases afterCall_cases env call w.now outcome with ⟨_, hresult, -⟩ | ⟨ack, hack, -, hwindow⟩
    · rw [hresult] at ha
      exact absurd ha nofun
    · obtain rfl := Sum.inr.inj (ha.symm.trans hwindow)
      refine Window.dvd_due env hnow fun span a ha => ?_
      exact (hpaced.whole history call).ack span a (by rw [← houtcome, hack, ha])
  | answer => exact hnext _ _ _
  | acknowledge => exact hnext _ _ _

namespace Program

variable {p : Program} {m : Machine}

/-- **All instants of a run are whole milliseconds**, in a paced world. -/
theorem Runs.whole (h : p.Runs env m) (hpaced : env.Paced cost) :
    Duration.perMilli ∣ m.world.now ∧ ∀ t ∈ m.activity.dues, Duration.perMilli ∣ t := by
  induction h with
  | refl =>
    have hnow : (p.firstWorld env).now = 0 :=
      ((cancelOnTime_grows env {}).trans (emit_grows _ _)).1
    rw [start_world, hnow, start_dues]
    exact ⟨Nat.dvd_zero _, fun t ht => absurd ht List.not_mem_nil⟩
  | tail hprev htick ih =>
    have hruns : p.Runs env _ := hprev
    obtain ⟨hnow, hdues⟩ := ih
    cases htick with
    | act ha =>
      have hqueues := (Machine.Moves.answered hruns.reaches (start_answered env p)).queues
      refine ⟨ha.leads.now ▸ hnow, fun t ht => ?_⟩
      exact (ha.dues hruns.reaches.ready (fun _ _ => Activity.beginPause_whole _ _ hnow)
        (fun q hq _ hmove => hmove.whole hpaced hnow (hqueues q hq)) t ht).elim (hdues t) id
    | turn => exact ⟨hnow, hdues⟩
    | cancel a w =>
      rw [cancelOnTime_calm hpaced.calm]
      exact ⟨hnow, hdues⟩
    | wait hwaits =>
      have hnone : env.cancellation.time = none := by rw [hpaced.calm]
      exact ⟨hdues _ (Machine.nextInstant_mem (.inr hnone) hwaits.dues.1), hdues⟩

end Program

end Lightshow
