import Lightshow.Proofs.Time.Acknowledged
import Lightshow.Proofs.Time.Agenda

/-!
# Pauses around loops and within iterations

The pauses of a composite are made in each iteration or around all of them.  A loop that runs once
makes them once in either case, but not in the same place: the pause of the loop comes after the
pause that follows the steps, or before it.

Both are over at the same instant all the same, as long as alarms do not treat one of them
differently because of the other.  Alarms round, and they do so alike if the steps end at a whole
millisecond; for then each pause lasts its own number of milliseconds, whatever comes before it.  And
the steps do end at one if the gateway answers on whole milliseconds, as one does that is itself
waited for by alarms.  Nor does it matter which alarm rounds if the two pauses are whole milliseconds
themselves.  Alarms also give up on instants that no clock shows, and then it matters which pause
comes first.

So the agenda of a program whose loops run once does not depend on where its pauses are made, as long
as neither of this happens.  What a run does if nobody cancels and nothing ends it before is on the
agenda, and what its calls come to follows from the gateway's answers.

## Main definitions

* `Gateway.table` — a gateway that answers by transition, device and number.
* `Step.Once` — a step whose loop runs once and whose pauses have no random part.
* `Step.Swapped` — how long pauses last that change places.
* `Duration.Brief` — a clock shows when a span is over.
* `Environment.under` — the world with the pauses made in a certain place.
* `Swaps` — spans of a kind can change places.

## Main results

* `Swaps.of_replies`, `Swaps.of_spans` — two reasons for which they can.
* `Swaps.swap` — **they are then over at the same instant.**
* `Step.around_agenda` — the agenda of a composite that runs once.
* `Step.activity_indifferent` — **the agenda of a step does not depend on where pauses are made.**
* `Program.scopes_alike` — **neither does what a run does.**
* `Program.scopes_unlike` — runs that differ.
-/

namespace Lightshow

open Relation World

/-! ### Gateways and steps -/

/-- The gateway whose reply to a call depends on the transition and the device, and on how often the
transition applied its state to the device before. -/
def Gateway.table (reply : Path → Device → ℕ → Reply) : Gateway :=
  fun _ c => reply c.path c.device c.turn

/-- A step on its own whose loop runs once and whose pauses have no random part. -/
def Step.Once : Step → Prop := Step.Uses (fun o => o.jitter = none) (· = .counted 1)

/-- Something is true of how long the pauses of a composite on its own last that change places, the
pause of its loop and the one that follows its steps; unless one of them takes no time at all. -/
def Step.Swapped (R : Duration → Prop) : Step → Prop
  | .transition _ => True
  | .composite _ _ loop pause => pauseSpan loop.pause = 0 ∨ pauseSpan pause.after = 0 ∨
      R (pauseSpan loop.pause) ∧ R (pauseSpan pause.after)

/-- A clock shows when a span is over, even if it begins at the last tick. -/
def Duration.Brief (span : Duration) : Prop := lastTick + span ≤ Bound.clockRange

instance (span : Duration) : Decidable span.Brief := Nat.decLe _ _

instance {R : Duration → Prop} [DecidablePred R] : ∀ n : Step, Decidable (n.Swapped R)
  | .transition _ => .isTrue trivial
  | .composite .. => inferInstanceAs (Decidable (_ ∨ _ ∨ _ ∧ _))

/-- The world with the pauses of composites made in a certain place. -/
def Environment.under (env : Environment) (scope : PauseScope) : Environment :=
  { env with scope := scope }

variable {env : Environment} {answer : Call → Reply}

/-- A loop that runs once is counted. -/
theorem Step.Once.uses {n : Step} (h : n.Once) :
    n.Uses (fun o => o.jitter = none) LoopMode.Counted := by
  cases n with
  | transition t => exact h
  | composite order steps loop pause =>
    obtain ⟨hmode, hrest⟩ := h
    refine ⟨?_, hrest⟩
    rw [hmode]
    rfl

theorem Step.Swapped.and {R R' : Duration → Prop} {n : Step} (h : n.Swapped R)
    (h' : n.Swapped R') : n.Swapped fun span => R span ∧ R' span := by
  cases n with
  | transition t => trivial
  | composite =>
    rcases h with h | h | ⟨hloop, hafter⟩
    · exact .inl h
    · exact .inr (.inl h)
    rcases h' with h' | h' | ⟨hloop', hafter'⟩
    · exact .inl h'
    · exact .inr (.inl h')
    exact .inr (.inr ⟨⟨hloop, hloop'⟩, hafter, hafter'⟩)

/-! ### Pauses that change places -/

/-- Spans of a kind can change places.  A clock shows when they are over; and a run that waits only
for calls and pauses keeps to certain instants, such that the alarm for a span that begins at one of
these is rounded as if it began at a whole millisecond. -/
structure Swaps (env : Environment) (answer : Call → Reply) (R : Duration → Prop)
    (On : Instant → Prop) : Prop where
  start : On 0
  spans (span : Duration) {now : Instant} (hnow : On now) : On (spanEnds now span)
  calls {c : Call} (hc : On c.time) : On (c.completes env (answer c))
  brief {span : Duration} (h : R span) : span.Brief
  rounds {span : Duration} (h : R span) {now : Instant} (hnow : On now) :
    wholeMillis (now + span) = wholeMillis now + wholeMillis span

/-- A call that is made at a whole millisecond completes at one. -/
theorem Call.dvd_completes {c : Call} {r : Reply} (hr : r.Whole) (hc : Duration.perMilli ∣ c.time) :
    Duration.perMilli ∣ c.completes env r := by
  have hreturns : Duration.perMilli ∣ c.time + r.latency := Nat.dvd_add hc hr.latency
  obtain ⟨latency, outcome⟩ := r
  cases outcome with
  | pending ack =>
    rw [completes, Dispatch.finishes]
    split
    · exact Window.dvd_due env hreturns fun span a h => hr.ack span a (congrArg _ h)
    · exact hreturns
  | _ => exact hreturns

namespace Swaps

/-- **The gateway answers on whole milliseconds**, and so all instants are such. -/
theorem of_replies (hwhole : ∀ c, (answer c).Whole) :
    Swaps env answer Duration.Brief (Duration.perMilli ∣ ·) where
  start := Nat.dvd_zero _
  spans _ _ hnow := dvd_spanEnds hnow _
  calls hc := Call.dvd_completes (hwhole _) hc
  brief h := h
  rounds _ _ hnow := by rw [wholeMillis_add hnow, wholeMillis_of_dvd hnow]

/-- **The spans are whole milliseconds**, at whatever instants they begin. -/
theorem of_spans : Swaps env answer (fun span => span.Brief ∧ Duration.perMilli ∣ span)
    fun _ => True where
  start := trivial
  spans _ _ _ := trivial
  calls _ := trivial
  brief h := h.1
  rounds h now _ := by
    rw [Nat.add_comm now, wholeMillis_add h.2, wholeMillis_of_dvd h.2, Nat.add_comm]

variable {R : Duration → Prop} {On : Instant → Prop} (h : Swaps env answer R On) {now : Instant}
include h

theorem pauses (o : Option TimeOption) (hnow : On now) : On (pauseEnds o now) :=
  h.spans (pauseSpan o) hnow

/-- A span that takes time waits for the next millisecond, and then takes its own number of them. -/
theorem ends {span : Duration} (hspan : R span) (hpos : span ≠ 0) (hnow : On now)
    (hrange : now + span ≤ lastTick) : spanEnds now span = wholeMillis now + wholeMillis span := by
  rw [spanEnds, if_neg hpos, alarm_of_range hrange, h.rounds hspan hnow]

/-- The same if it is over before the last tick. -/
theorem ends_of_lt {span : Duration} (hspan : R span) (hpos : span ≠ 0) (hnow : On now)
    (hlast : spanEnds now span < lastTick) :
    spanEnds now span = wholeMillis now + wholeMillis span := by
  have hclock : now + span < Bound.clockRange :=
    Nat.lt_of_lt_of_le (Nat.add_lt_add_right (Nat.lt_of_le_of_lt (le_spanEnds _ _) hlast) span)
      (h.brief hspan)
  have halarm : alarm now span < lastTick := by rwa [spanEnds, if_neg hpos] at hlast
  exact h.ends hspan hpos hnow (add_le_lastTick hclock halarm)

/-- **Two spans can change places** if they are over before the last tick. -/
theorem swap {a b : Duration} (hab : a = 0 ∨ b = 0 ∨ R a ∧ R b) (hnow : On now)
    (hlast : spanEnds (spanEnds now b) a < lastTick) :
    spanEnds (spanEnds now b) a = spanEnds (spanEnds now a) b := by
  have hzero : ∀ t, spanEnds t 0 = t := fun t => if_pos rfl
  by_cases hpos : a = 0
  · rw [hpos, hzero, hzero]
  by_cases hpos' : b = 0
  · rw [hpos', hzero, hzero]
  obtain ⟨ha, hb⟩ := (hab.resolve_left hpos).resolve_left hpos'
  have hwhole : ∀ span, wholeMillis (wholeMillis now + wholeMillis span)
      = wholeMillis now + wholeMillis span := fun span =>
    wholeMillis_of_dvd (Nat.dvd_add (dvd_wholeMillis now) (dvd_wholeMillis span))
  have hfirst : spanEnds now b = wholeMillis now + wholeMillis b :=
    h.ends_of_lt hb hpos' hnow (Nat.lt_of_le_of_lt (le_spanEnds _ _) hlast)
  have hboth : spanEnds (spanEnds now b) a = wholeMillis now + wholeMillis b + wholeMillis a := by
    rw [h.ends_of_lt ha hpos (h.spans b hnow) hlast, hfirst, hwhole]
  -- so there are ticks until they are over in the other order
  have hrange : wholeMillis now + wholeMillis a + wholeMillis b ≤ lastTick := by
    rw [Nat.add_right_comm, ← hboth]
    exact Nat.le_of_lt hlast
  have hfirst' : spanEnds now a = wholeMillis now + wholeMillis a :=
    h.ends ha hpos hnow (Nat.le_trans (Nat.add_le_add (le_wholeMillis now) (le_wholeMillis a))
      (Nat.le_trans (Nat.le_add_right _ _) hrange))
  have hboth' : spanEnds (spanEnds now a) b = wholeMillis now + wholeMillis a + wholeMillis b := by
    rw [h.ends hb hpos' (h.spans a hnow), hfirst', hwhole]
    rw [hfirst']
    exact Nat.le_trans (Nat.add_le_add_left (le_wholeMillis b) _) hrange
  rw [hboth, hboth', Nat.add_right_comm]

end Swaps

/-- What follows only matters from the instant on at which it begins. -/
theorem Outlook.andThen_congr {first first' : Outlook} {rest rest' : Instant → Outlook}
    (hfirst : first = first') (hrest : rest first'.ends = rest' first'.ends) :
    first.andThen rest = first'.andThen rest' := by
  rw [hfirst, andThen, andThen, hrest]

/-- What is done side by side ends at one of the instants at which its parts end, or at once. -/
theorem Outlook.together_on {On : Instant → Prop} {now : Instant} {parts : List Outlook}
    (hnow : On now) (h : ∀ o ∈ parts, On o.ends) : On (Outlook.together now parts).ends := by
  show On ((parts.map Outlook.ends).foldr max now)
  induction parts with
  | nil => exact hnow
  | cons o parts ih =>
    obtain ⟨ho, hparts⟩ := List.forall_mem_cons.mp h
    rw [List.map_cons, List.foldr_cons]
    rcases max_choice o.ends ((parts.map Outlook.ends).foldr max now) with hmax | hmax
    · rw [hmax]
      exact ho
    · rw [hmax]
      exact ih hparts

/-- Where pauses are made does not matter for calls. -/
theorem Call.series_under (scope : PauseScope) (left : ℕ) : ∀ call : Call,
    Call.series (env.under scope) answer left call = Call.series env answer left call := by
  induction left with
  | zero => exact fun _ => rfl
  | succ left ih =>
    intro call
    funext now
    rw [series, series, ih]
    rfl

variable {R : Duration → Prop} {On : Instant → Prop}

/-- Calls that follow each other keep to the instants. -/
theorem Swaps.series (h : Swaps env answer R On) (left : ℕ) : ∀ (call : Call) {now : Instant},
    On now → On (Call.series env answer left call now).ends := by
  induction left with
  | zero => exact fun _ _ hnow => hnow
  | succ left ih => exact fun call now hnow => ih _ (h.calls (c := { call with time := now }) hnow)

/-! ### Steps -/

/-- It does not matter for the agenda of an activity where pauses are made, and it keeps to the
instants from which on pauses can change places, if it begins at one and is over before the last
tick. -/
def Activity.Indifferent (env : Environment) (answer : Call → Reply) (On : Instant → Prop)
    (a : PauseScope → Activity) : Prop :=
  ∀ now, On now → ((a .perIteration).agenda (env.under .perIteration) answer now).ends < lastTick →
    (a .aroundLoop).agenda (env.under .aroundLoop) answer now
        = (a .perIteration).agenda (env.under .perIteration) answer now ∧
      On ((a .perIteration).agenda (env.under .perIteration) answer now).ends

/-- The same for each of some activities. -/
def Activity.IndifferentAll (env : Environment) (answer : Call → Reply) (On : Instant → Prop)
    (as : PauseScope → List Activity) : Prop :=
  ∀ now, On now →
    (∀ o ∈ Activity.agendaAll (env.under .perIteration) answer (as .perIteration) now,
      o.ends < lastTick) →
    Activity.agendaAll (env.under .aroundLoop) answer (as .aroundLoop) now
        = Activity.agendaAll (env.under .perIteration) answer (as .perIteration) now ∧
      ∀ o ∈ Activity.agendaAll (env.under .perIteration) answer (as .perIteration) now, On o.ends

namespace Activity.Indifferent

theorem ended (flow : Flow) : Indifferent env answer On fun _ => .ended flow :=
  fun _ hnow _ => ⟨rfl, hnow⟩

theorem pause (h : Swaps env answer R On) (path : Path) (o : Option TimeOption) :
    Indifferent env answer On fun _ => .pause path o :=
  fun _ hnow _ => ⟨rfl, h.pauses o hnow⟩

theorem seq {a b : PauseScope → Activity} (ha : Indifferent env answer On a)
    (hb : Indifferent env answer On b) :
    Indifferent env answer On fun scope => .seq (a scope) (b scope) := by
  intro now hnow hlast
  obtain ⟨hfirst, hends⟩ := ha now hnow (Nat.lt_of_le_of_lt (le_agenda _ _) hlast)
  obtain ⟨hrest, hover⟩ := hb _ hends hlast
  exact ⟨Outlook.andThen_congr hfirst hrest, hover⟩

theorem join {as : PauseScope → List Activity} (has : IndifferentAll env answer On as) :
    Indifferent env answer On fun scope => .join (as scope) := by
  intro now hnow hlast
  obtain ⟨hsame, hends⟩ := has now hnow fun o ho => Nat.lt_of_le_of_lt
    ((foldr_max_le_iff.mp (Nat.le_refl _)).2 _ (List.mem_map_of_mem ho)) hlast
  exact ⟨congrArg (Outlook.together now) hsame, Outlook.together_on hnow hends⟩

/-- The devices of a transition are served in the same way. -/
theorem dispatch (h : Swaps env answer R On) (path : Path) (t : Transition) :
    Indifferent env answer On fun _ => .dispatch path t := by
  intro now hnow _
  -- new queues have only calls before them, and no pauses
  have hqueues : ∀ scope, (newQueues now path t (announced (env.under scope) t)).map
        (Queue.agenda (env.under scope) answer now)
      = (newQueues now path t (announced env t)).map (Queue.agenda env answer now) := by
    intro scope
    refine List.map_congr_left fun q hq => ?_
    obtain ⟨d, -, rfl⟩ := List.mem_map.mp hq
    exact congrFun (Call.series_under scope _ _) now
  simp only [Activity.agenda, Outlook.andThen, hqueues]
  refine ⟨trivial, Outlook.together_on hnow fun o ho => ?_⟩
  obtain ⟨q, hq, rfl⟩ := List.mem_map.mp ho
  obtain ⟨d, -, rfl⟩ := List.mem_map.mp hq
  exact h.series _ _ hnow

end Activity.Indifferent

namespace Step

/-- **The agenda of a composite that runs once** is that of its steps between the pauses around
them, and the pause of the loop comes last or changes places with the one that follows the steps. -/
theorem around_agenda (path : Path) (order : Order) {loop : Loop} (hmode : loop.mode = .counted 1)
    (pause : Pause) {once : Activity} {now steps : Instant}
    (hsteps : (once.agenda env answer (pauseEnds pause.before now)).ends = steps) :
    (around .perIteration path order loop pause once).agenda env answer now
        = ⟨pauseEnds loop.pause (pauseEnds pause.after steps),
          (once.agenda env answer (pauseEnds pause.before now)).starts⟩ ∧
      (around .aroundLoop path order loop pause once).agenda env answer now
        = ⟨pauseEnds pause.after (pauseEnds loop.pause steps),
          (once.agenda env answer (pauseEnds pause.before now)).starts⟩ := by
  have hnumber : loop.mode.number.toNat = 1 := by
    rw [hmode]
    rfl
  subst hsteps
  constructor
  · simp only [around, Activity.agenda, hnumber, Outlook.repeated, Outlook.andThen, pauseEnds_none,
      List.nil_append, List.append_nil]
  · simp only [around, Activity.agenda, hnumber, Outlook.repeated, Outlook.andThen,
      List.nil_append, List.append_nil]

theorem around_indifferent (h : Swaps env answer R On) (path : Path) (order : Order)
    {loop : Loop} (hmode : loop.mode = .counted 1) {pause : Pause}
    (hown : pauseSpan loop.pause = 0 ∨ pauseSpan pause.after = 0 ∨
      R (pauseSpan loop.pause) ∧ R (pauseSpan pause.after)) {once : PauseScope → Activity}
    (honce : Activity.Indifferent env answer On once) :
    Activity.Indifferent env answer On fun scope =>
      around scope path order loop pause (once scope) := by
  intro now hnow hlast
  have hagenda := @around_agenda (env.under .perIteration) answer path order loop hmode pause
    (once .perIteration) now _ rfl
  rw [hagenda.1] at hlast ⊢
  have hsteps : ((once .perIteration).agenda (env.under .perIteration) answer
      (pauseEnds pause.before now)).ends < lastTick :=
    Nat.lt_of_le_of_lt (Nat.le_trans (le_pauseEnds pause.after _) (le_pauseEnds loop.pause _)) hlast
  obtain ⟨hsame, hends⟩ := honce _ (h.pauses pause.before hnow) hsteps
  have hagenda' := (@around_agenda (env.under .aroundLoop) answer path order loop hmode pause
    (once .aroundLoop) now _ (congrArg Outlook.ends hsame)).2
  -- the pause after the steps and the pause of the loop have changed places
  have hswap : pauseEnds loop.pause (pauseEnds pause.after _)
      = pauseEnds pause.after (pauseEnds loop.pause _) := h.swap hown hends hlast
  rw [hagenda', hsame, hswap]
  exact ⟨rfl, h.pauses _ (h.pauses _ hends)⟩

mutual

/-- **The agenda of a step whose loops run once does not depend on where pauses are made**, if its
pauses can change places. -/
theorem activity_indifferent (h : Swaps env answer R On) : ∀ (s : Step) (path : Path),
    (∀ n ∈ s.nodes, n.Once) → (∀ n ∈ s.nodes, n.Swapped R) →
      Activity.Indifferent env answer On fun scope => activity scope path s
  | .transition t, path, _, _ => by
    simp only [activity]
    exact (Activity.Indifferent.pause h _ _).seq ((Activity.Indifferent.dispatch h path t).seq
      (Activity.Indifferent.pause h _ _))
  | .composite order steps loop pause, path, honce, hswapped => by
    obtain ⟨⟨hmode, -⟩, hsteps⟩ := List.forall_mem_cons.mp honce
    obtain ⟨hown, hswapped⟩ := List.forall_mem_cons.mp hswapped
    obtain ⟨hserial, hparallel⟩ := activities_indifferent h steps path 0 hsteps hswapped
    simp only [activity_composite]
    refine around_indifferent h path order hmode hown ?_
    cases order with
    | serial => exact hserial
    | parallel => exact .join hparallel

theorem activities_indifferent (h : Swaps env answer R On) : ∀ (steps : List Step)
    (path : Path) (index : ℕ), (∀ n ∈ nodesAll steps, n.Once) →
      (∀ n ∈ nodesAll steps, n.Swapped R) →
      (Activity.Indifferent env answer On fun scope =>
        Activity.chain (activities scope path index steps)) ∧
      Activity.IndifferentAll env answer On fun scope => activities scope path index steps
  | [], path, index, _, _ => by
    simp only [activities]
    exact ⟨.ended _, fun now _ _ => ⟨rfl, fun o ho => absurd ho List.not_mem_nil⟩⟩
  | s :: rest, path, index, honce, hswapped => by
    obtain ⟨hs, hrest⟩ := List.forall_mem_append.mp honce
    obtain ⟨hown, hswapped⟩ := List.forall_mem_append.mp hswapped
    have hfirst := activity_indifferent h s (.child path index s.kind) hs hown
    obtain ⟨hserial, hparallel⟩ := activities_indifferent h rest path (index + 1) hrest hswapped
    simp only [activities]
    refine ⟨hfirst.seq hserial, fun now hnow hlast => ?_⟩
    obtain ⟨hlast, hlasts⟩ := List.forall_mem_cons.mp hlast
    obtain ⟨hsame, hends⟩ := hfirst now hnow hlast
    obtain ⟨hall, hover⟩ := hparallel now hnow hlasts
    exact ⟨congrArg₂ List.cons hsame hall, List.forall_mem_cons.mpr ⟨hends, hover⟩⟩

end

end Step

/-! ### Runs -/

/-- What was done so far, without the instants. -/
theorem World.see_deed (w : World) : w.see Entry.deed? = w.journal.deeds.map Record.entry := by
  have hentry : ∀ r : Record, (r.entry.deed?.map (Record.mk r.time)).map Record.entry
      = r.entry.deed? := fun r => by
    rw [Option.map_map]
    exact Option.map_id_apply
  rw [Journal.deeds, List.map_filterMap, funext hentry, see, entries, Journal.entries,
    List.filterMap_map]
  rfl

/-- A call is among what was done. -/
theorem Entry.call_of_deed (e : Entry) : e.call? = e.deed?.bind Entry.call? := by
  cases e <;> rfl

/-- If the same was done then the same calls were made. -/
theorem World.calls_perm {w w' : World} (h : (w.see Entry.deed?).Perm (w'.see Entry.deed?)) :
    w.journal.calls.Perm w'.journal.calls := by
  have hcalls : ∀ w : World, w.journal.calls = (w.see Entry.deed?).filterMap Entry.call? :=
    fun w => (Journal.calls_eq _).trans (see_factor w Entry.call_of_deed)
  rw [hcalls, hcalls]
  exact h.filterMap _

namespace Program

variable {p : Program} {flow : Flow} {w w' : World}

/-- **The failures of a run follow from the transitions that it dispatched and the calls that it
made**, if the gateway's answers do not depend on what happened before. -/
theorem Runs.failures_of_answer (h : p.Runs env ⟨.ended flow, w⟩)
    (hanswer : ∀ j c, env.gateway j c = answer c) :
    w.journal.failures.Perm ((w.see Entry.dispatched?).flatMap (unresolved env)
      ++ (w.see Entry.call?).filterMap fun c => c.failure? (c.ends env (answer c)).error) := by
  have hpromises : w.journal.promises env
      = (w.see Entry.call?).reverse.map fun c => c.ends env (answer c) := by
    rw [see, entries, ← Journal.map_replies env, List.map_map, Journal.promises]
    refine List.map_congr_left fun x hx => ?_
    obtain ⟨t, history, -, hx⟩ := Journal.mem_replies hx
    rw [hx, hanswer]
    rfl
  -- and promises are kept
  refine h.failures.trans (List.Perm.append_left _ ?_)
  refine ((h.endings rfl).filterMap _).trans ?_
  rw [hpromises, List.filterMap_map]
  exact (List.reverse_perm _).filterMap _

/-- Runs that do the same fail in the same way, wherever pauses are made. -/
theorem Runs.failures_perm {scope scope' : PauseScope} {flow' : Flow}
    (h : p.Runs (env.under scope) ⟨.ended flow, w⟩)
    (h' : p.Runs (env.under scope') ⟨.ended flow', w'⟩)
    (hanswer : ∀ j c, env.gateway j c = answer c)
    (hdeeds : (w.see Entry.deed?).Perm (w'.see Entry.deed?)) :
    w.journal.failures.Perm w'.journal.failures := by
  have hdispatched : ∀ e : Entry, e.dispatched? = e.deed?.bind Entry.dispatched? :=
    fun e => by cases e <;> rfl
  have hfailures := h.failures_of_answer hanswer
  have hfailures' := h'.failures_of_answer hanswer
  rw [see_factor w hdispatched, see_factor w Entry.call_of_deed] at hfailures
  rw [see_factor w' hdispatched, see_factor w' Entry.call_of_deed] at hfailures'
  refine hfailures.trans (List.Perm.trans ?_ hfailures'.symm)
  exact ((hdeeds.filterMap _).flatMap_right _).append ((hdeeds.filterMap _).filterMap _)

/-- **A run that nobody cancels and nothing ends before does what is on the agenda** of the
program. -/
theorem done_of_run? {fuel : ℕ} {result : RunResult} (hrun : p.run? env fuel = some (result, w))
    (hanswer : ∀ j c, env.gateway j c = answer c)
    (hplain : ∀ n ∈ p.step.nodes, n.Uses (fun o => o.jitter = none) LoopMode.Counted)
    (hcalm : w.cancelled = false) (hstatus : result.status ≠ .fatal) :
    ∃ w', p.Runs env ⟨.ended .completed, w'⟩ ∧ result.failures = w'.journal.failures ∧
      w.journal.calls = w'.journal.calls ∧
      w.now = ((p.step.activity env.scope p.step.rootPath).agenda env answer 0).ends ∧
      w'.journal.deeds.Perm
        ((p.step.activity env.scope p.step.rootPath).agenda env answer 0).starts := by
  obtain ⟨flow, w', h, hresult⟩ := runs_of_run? hrun
  obtain ⟨rfl, rfl⟩ := Prod.mk.inj hresult
  -- nothing ended the run before it was done, so it is completed
  have hnone : ∀ e, ¬p.Ruin w' e := by
    intro e he
    have hfatal : flow.isFatal = true := (flow_of_reaches h.reaches).1.mpr ⟨e, he⟩
    cases flow with
    | fatal cause => exact hstatus rfl
    | _ => cases hfatal
  have hcalm' : w'.cancelled = false := by
    rw [emit, cancelled_cancelIf] at hcalm
    exact (Bool.or_eq_false_iff.mp hcalm).1
  obtain ⟨rfl, hgoing⟩ := completed_of_unruined h.reaches hcalm' hnone
  have hvalid : p.step.faults = [] := by
    by_contra hfaults
    exact hnone _ (.invalid hfaults)
  obtain ⟨hends, hdeeds⟩ := h.agenda hanswer hvalid hplain hgoing
  refine ⟨w', h, rfl, ?_, (emit_grows _ w').1.trans hends, ?_⟩
  · rw [Journal.calls_eq, Journal.calls_eq]
    exact see_emit_none _ _ rfl rfl
  · rw [← List.append_nil w'.journal.deeds]
    exact hdeeds

/-- **It does not matter where pauses are made if loops run once.**  Let all loops of a program run
once and its pauses have no random part, and let the gateway answer by the transition, the device
and the number of the call.  Then the program returns wherever pauses are made, unless the caller
sets a time at which it is cancelled, if the fades of the transitions that wait leave room for the
timeout.

Moreover, let the gateway answer on whole milliseconds, or let the pauses that change places be whole
milliseconds; let a clock show when these are over; and let the run end before the last tick.  If
nobody cancels and nothing ends the run before, it makes the same calls in both cases, at the same
instants, records the same failures, each as often, and ends at the same instant. -/
theorem scopes_alike {reply : Path → Device → ℕ → Reply} (hgateway : env.gateway = .table reply)
    (honce : ∀ n ∈ p.step.nodes, n.Once) :
    ((∀ x ∈ p.transitions, x.2.wait = true →
        (x.2.state.fadeDuration + env.ackTimeout).Representable) →
      env.cancellation.time = none → ∀ scope, ∃ fuel result w,
        p.run? (env.under scope) fuel = some (result, w)) ∧
    ∀ fuel fuel' result result' w w',
      p.run? (env.under .perIteration) fuel = some (result, w) →
      p.run? (env.under .aroundLoop) fuel' = some (result', w') →
      ((∀ path d turn, (reply path d turn).Whole) ∨
        ∀ n ∈ p.step.nodes, n.Swapped (Duration.perMilli ∣ ·)) →
      (∀ n ∈ p.step.nodes, n.Swapped Duration.Brief) → w.now < lastTick →
      w.cancelled = false → w'.cancelled = false →
      result.status ≠ .fatal → result'.status ≠ .fatal →
        w.journal.calls.Perm w'.journal.calls ∧ result.failures.Perm result'.failures ∧
          w.now = w'.now := by
  have hplain : ∀ n ∈ p.step.nodes, n.Uses (fun o => o.jitter = none) LoopMode.Counted :=
    fun n hn => (honce n hn).uses
  have hanswer : ∀ j c, env.gateway j c = reply c.path c.device c.turn := by
    rw [hgateway]
    exact fun _ _ => rfl
  refine ⟨fun _ hnone scope => ?_, ?_⟩
  · obtain ⟨fuel, flow, w, -, hresult⟩ := @exists_returns (env.under scope) p _ hnone hplain
    exact ⟨fuel, (flow.result (env.under scope) w).1, (flow.result (env.under scope) w).2, hresult⟩
  · intro fuel fuel' result result' w w' hrun hrun' hwhole hbrief hlast hcalm hcalm' hstatus hstatus'
    obtain ⟨v, h, hfailures, hcalls, hends, hdeeds⟩ :=
      done_of_run? hrun hanswer hplain hcalm hstatus
    obtain ⟨v', h', hfailures', hcalls', hends', hdeeds'⟩ :=
      done_of_run? hrun' hanswer hplain hcalm' hstatus'
    -- both do what is on one agenda
    have hagenda : (p.step.activity .aroundLoop p.step.rootPath).agenda (env.under .aroundLoop)
          (fun c => reply c.path c.device c.turn) 0
        = (p.step.activity .perIteration p.step.rootPath).agenda (env.under .perIteration)
          (fun c => reply c.path c.device c.turn) 0 := by
      rw [hends] at hlast
      rcases hwhole with hwhole | hwhole
      · have hswaps := @Swaps.of_replies env (fun c => reply c.path c.device c.turn)
          fun c => hwhole c.path c.device c.turn
        exact (p.step.activity_indifferent hswaps p.step.rootPath honce hbrief 0 hswaps.start
          hlast).1
      · have hswaps := @Swaps.of_spans env (fun c => reply c.path c.device c.turn)
        exact (p.step.activity_indifferent hswaps p.step.rootPath honce
          (fun n hn => (hbrief n hn).and (hwhole n hn)) 0 hswaps.start hlast).1
    have hdone : (v.see Entry.deed?).Perm (v'.see Entry.deed?) := by
      rw [World.see_deed, World.see_deed]
      exact (hdeeds.trans (hdeeds'.trans (.of_eq (congrArg Outlook.starts hagenda))).symm).map _
    rw [hcalls, hcalls', hfailures, hfailures', hends, hends']
    exact ⟨World.calls_perm hdone, h.failures_perm h' hanswer hdone,
      (congrArg Outlook.ends hagenda).symm⟩

/-- A spot that fails is served beside a lamp, and then the lamp once more.  The pause after the spot
and that of its loop change places, so that what is shown is not the same; but the spot fails once,
the lamp is called twice, and the run ends after eight milliseconds in any case. -/
theorem lamp_after_spot_paused :
    let reply : Path → Device → ℕ → Reply := fun _ d _ =>
      if d.name = "lamp" then ⟨Duration.millis 3, .pending (some (Duration.millis 1, .succeeded))⟩
      else ⟨0, .failed .timeout⟩
    let env := { Environment.plain with gateway := .table reply }
    let spot : Step := .composite .serial
      [.transition { state := {}, devices := some [.light "spot"] }]
      { mode := .counted 1, pause := some (.fixed 0.0015) } { after := some (.fixed 0.002) }
    let both : Step := .composite .parallel [spot, .light "lamp" (.counted 1)]
      { mode := .counted 1 } { before := some (.fixed 0.001) }
    let p : Program :=
      ⟨none, .composite .serial [both, .light "lamp" (.counted 1)] { mode := .counted 1 } {}⟩
    (∀ n ∈ p.step.nodes, n.Once) ∧
      (∀ x ∈ p.transitions, x.2.wait = true →
        (x.2.state.fadeDuration + env.ackTimeout).Representable) ∧
      (∀ scope, ∃ fuel result w, p.run? (env.under scope) fuel = some (result, w)) ∧
      (∀ path d turn, (reply path d turn).Whole) ∧ (∀ n ∈ p.step.nodes, n.Swapped Duration.Brief) ∧
      ∃ result result' w w', p.run? (env.under .perIteration) 20 = some (result, w) ∧
        p.run? (env.under .aroundLoop) 20 = some (result', w') ∧
        w.shown ≠ w'.shown ∧
        w.journal.calls.Perm w'.journal.calls ∧ w.journal.calls.length = 3 ∧
        result.failures.Perm result'.failures ∧ result.failures.length = 1 ∧
        w.now = w'.now ∧ w.now = 8000000 := by
  intro reply env spot both p
  have honce : ∀ n ∈ p.step.nodes, n.Once := by
    simp [p, both, spot, Step.light, Step.nodes, Step.nodesAll, Step.Once, Step.Uses, TimeOption.fixed]
  have hwhole : ∀ path d turn, (reply path d turn).Whole := by
    intro path d turn
    have hmillis : ∀ n, Duration.perMilli ∣ Duration.millis n := fun n => Nat.dvd_mul_left _ n
    simp only [reply]
    split
    · exact ⟨hmillis 3, fun span a h => by cases h; exact hmillis 1⟩
    · exact ⟨Nat.dvd_zero _, fun span a h => by cases h⟩
  have hbrief : ∀ n ∈ p.step.nodes, n.Swapped Duration.Brief := by decide +kernel
  have hroom : ∀ x ∈ p.transitions, x.2.wait = true →
      (x.2.state.fadeDuration + env.ackTimeout).Representable := by decide +kernel
  have hseen : (p.run? (env.under .perIteration) 20).map (fun x => (x.2.cancelled, x.1.status,
      x.2.journal.calls.length, x.1.failures.length, x.2.now))
      = some (false, .completed, 3, 1, 8000000) := by decide +kernel
  have hseen' : (p.run? (env.under .aroundLoop) 20).map (fun x => (x.2.cancelled, x.1.status))
      = some (false, .completed) := by decide +kernel
  have hdiffer : (p.run? (env.under .perIteration) 20).map (·.2.shown)
      ≠ (p.run? (env.under .aroundLoop) 20).map (·.2.shown) := by decide +kernel
  obtain ⟨⟨result, w⟩, hrun, hseen⟩ := Option.map_eq_some_iff.mp hseen
  obtain ⟨⟨result', w'⟩, hrun', hseen'⟩ := Option.map_eq_some_iff.mp hseen'
  obtain ⟨hcalm, hseen⟩ := Prod.mk.inj hseen
  obtain ⟨hstatus, hseen⟩ := Prod.mk.inj hseen
  obtain ⟨hlength, hseen⟩ := Prod.mk.inj hseen
  obtain ⟨hfailed, hnow⟩ := Prod.mk.inj hseen
  obtain ⟨hcalm', hstatus'⟩ := Prod.mk.inj hseen'
  have hshown : w.shown ≠ w'.shown := by
    rw [hrun, hrun'] at hdiffer
    exact fun heq => hdiffer (congrArg some heq)
  have hlast : w.now < lastTick := by
    rw [hnow]
    decide
  obtain ⟨hreturns, halike⟩ := @scopes_alike env p reply rfl honce
  obtain ⟨hcalls, hfailures, hends⟩ := halike 20 20 result result' w w' hrun hrun' (.inl hwhole)
    hbrief hlast hcalm hcalm' (by rw [hstatus]; decide) (by rw [hstatus']; decide)
  exact ⟨honce, hroom, hreturns hroom rfl, hwhole, hbrief, result, result', w, w', hrun, hrun',
    hshown, hcalls, hlength, hfailures, hfailed, hends, hnow⟩

/-- A lamp is served, and the pause after it and that of its loop change places.  If the call takes
half a millisecond and the pauses a part of one each, then the run ends after two milliseconds or
after three.  And if the pauses are ten years and one that a clock barely shows, then the run ends
after forty years, since no clock shows when the longer pause is over if it comes last; or at the last
tick, if it comes first. -/
theorem scopes_unlike :
    let served (latency : Duration) : Environment :=
      { Environment.plain with gateway := .table fun _ _ _ => { latency } }
    let lamp (loop after : Float) : Program := ⟨none, .composite .serial
      [.transition { state := { on := some true }, devices := some [.light "lamp"] }]
      { mode := .counted 1, pause := some (.fixed loop) } { after := some (.fixed after) }⟩
    let ends (env : Environment) (p : Program) (scope : PauseScope) :=
      (p.run? (env.under scope) 20).map fun x => (x.1.status, x.2.cancelled, x.2.now)
    (∀ loop after, ∀ n ∈ (lamp loop after).step.nodes, n.Once) ∧
      (lamp 0.0006 0.0004).step.faults = [] ∧
      (lamp 9223372036697079808.0 315360000.0).step.faults = [] ∧
      ends (served 500000) (lamp 0.0006 0.0004) .perIteration
        = some (.completed, false, Duration.millis 2) ∧
      ends (served 500000) (lamp 0.0006 0.0004) .aroundLoop
        = some (.completed, false, Duration.millis 3) ∧
      ends (served 0) (lamp 9223372036697079808.0 315360000.0) .perIteration
        = some (.completed, false, Duration.seconds (40 * 365 * 86400)) ∧
      ends (served 0) (lamp 9223372036697079808.0 315360000.0) .aroundLoop
        = some (.completed, false, lastTick) := by
  intro served lamp ends
  refine ⟨?_, ?_, ?_, ?_, ?_, ?_, ?_⟩
  · simp [lamp, Step.nodes, Step.nodesAll, Step.Once, Step.Uses, TimeOption.fixed]
  all_goals decide +kernel

end Program

end Lightshow
