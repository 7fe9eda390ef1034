import Lightshow.Proofs.Run.Owing
import Lightshow.Proofs.Time.Punctual

/-!
# How long a program takes

If it is known how long each call takes then it can be told in advance how long a program takes, and
when each of its steps starts, as long as its loops are counted and nothing is left to chance.  A
transition takes as long as the device that is served longest; steps one after the other take as
long as all of them together, steps side by side as long as the longest; and a loop takes as long as
its iterations together, with the pauses around them.

How long a call takes may depend on how often the transition has called the device before, and so
the iterations of a loop may differ.  If it does not then they are all alike.

## Main definitions

* `Reply.span` — how long it takes until it is known what a call came to.
* `Tally`, `Journal.tally` — how often devices were called.
* `Step.span`, `Step.starts` — how long a step takes, and when the steps in it start.

## Main results

* `Step.span_congr` — how long a step takes if no call depends on earlier ones.
* `Step.span_composite`, `Step.alike` — composites whose iterations are alike.
-/

namespace Lightshow

variable (env : Environment)

/-! ### Calls -/

/-- How long it takes until it is known what a call came to: until the call returns, and if there is
an acknowledgement to wait for until it comes, or until the fade is over and the timeout has
passed. -/
def Reply.span (c : Call) (r : Reply) : Duration :=
  r.latency +
    match r.outcome with
    | .pending ack =>
      if c.wait then
        let timeout := c.state.fadeDuration + env.ackTimeout
        (ack.map fun (delay, _) => min delay timeout).getD timeout
      else 0
    | .done | .failed _ => 0

/-- How long a call takes does not depend on when it is made. -/
theorem Reply.span_time (r : Reply) (c : Call) (t : Instant) :
    r.span env { c with time := t } = r.span env c := rfl

/-- How often devices were called for the transitions of a program. -/
abbrev Tally := Path → Device → ℕ

/-- How often devices were called so far. -/
def Journal.tally (j : Journal) : Tally :=
  fun path d => (j.entries.filterMap (Entry.callAt? path)).count d

/-- A tally after certain calls were made a number of times. -/
def Tally.after (tally calls : Tally) (n : ℕ) : Tally :=
  fun path d => tally path d + n * calls path d

variable (cost : Call → ℕ → Duration)

/-- How long the calls take that a queue makes one after the other.  `cost` tells how long a call
takes, but for its time, and given how often the device was called before. -/
def Call.spans (c : Call) (earlier : ℕ) : (left : ℕ) → Duration
  | 0 => 0
  | left + 1 =>
    cost c earlier + Call.spans { c with turn := c.turn + 1 } (earlier + 1) left

/-! ### Steps -/

/-- How long a pause takes, if there is one, without a random part. -/
def pauseSpan (o : Option TimeOption) : Duration := (o.map (·.duration 0)).getD 0

/-- The longest of some spans. -/
def longest (spans : List Duration) : Duration := spans.foldr max 0

/-- How long some iterations take together. -/
def laps (lap : ℕ → Duration) (n : ℕ) : Duration := ((List.range n).map lap).sum

/-- How often a counted loop repeats its steps. -/
def LoopMode.number : LoopMode → UInt64
  | .counted n => n
  | _ => 0

/-- How long it takes to serve the devices of a transition: each of them as often as it is named,
and all of them side by side. -/
def Transition.span (path : Path) (t : Transition) (tally : Tally) : Duration :=
  longest ((Activity.announced env t).map fun (d, n) =>
    Call.spans cost ⟨0, path, d, t.state, t.wait, 0⟩ (tally path d) n)

mutual

/-- How often a step calls devices. -/
def Step.calls (path : Path) : Step → Tally
  | .transition t => fun p d => if path = p then (t.named env.resolve).count d else 0
  | .composite _ steps loop _ => fun p d => loop.mode.number.toNat * Step.callsAll path 0 steps p d

/-- How often the steps of a composite call devices, of which the first has number `index`. -/
def Step.callsAll (path : Path) (index : ℕ) : List Step → Tally
  | [] => fun _ _ => 0
  | s :: rest => fun p d =>
    Step.calls (.child path index s.kind) s p d + Step.callsAll path (index + 1) rest p d

end

/-- How long the steps of a composite take in one iteration. -/
def Order.span (order : Order) (spans : List Duration) : Duration :=
  match order with
  | .serial => spans.sum
  | .parallel => longest spans

mutual

/-- How long a step takes that starts after certain calls. -/
def Step.span (path : Path) : Step → Tally → Duration
  | .transition t, tally =>
    pauseSpan t.pause.before + t.span env cost path tally + pauseSpan t.pause.after
  | .composite order steps loop pause, tally =>
    let once i := order.span
      (Step.spans path 0 steps (tally.after (Step.callsAll env path 0 steps) i))
    match env.scope with
    | .perIteration =>
      laps (fun i => pauseSpan pause.before + once i + pauseSpan pause.after + pauseSpan loop.pause)
        loop.mode.number.toNat
    | .aroundLoop =>
      pauseSpan pause.before + laps (fun i => once i + pauseSpan loop.pause) loop.mode.number.toNat
        + pauseSpan pause.after

/-- How long each of the steps of a composite takes. -/
def Step.spans (path : Path) (index : ℕ) : List Step → Tally → List Duration
  | [], _ => []
  | s :: rest, tally =>
    Step.span (.child path index s.kind) s tally :: Step.spans path (index + 1) rest tally

end

mutual

/-- When the loops in a step are entered and the transitions in it dispatched, if it starts at an
instant after certain calls. -/
def Step.starts (path : Path) : Step → Tally → Instant → List Record
  | .transition t, _, start => [⟨start + pauseSpan t.pause.before, .dispatched path t⟩]
  | .composite order steps loop pause, tally, start =>
    let earlier i := tally.after (Step.callsAll env path 0 steps) i
    let once i := order.span (Step.spans env cost path 0 steps (earlier i))
    ⟨start, .entered path (.count loop.mode.number)⟩ ::
      match env.scope with
      | .perIteration =>
        let lap i := pauseSpan pause.before + once i + pauseSpan pause.after + pauseSpan loop.pause
        (List.range loop.mode.number.toNat).flatMap fun i =>
          Step.startsAll order path 0 steps (earlier i)
            (start + laps lap i + pauseSpan pause.before)
      | .aroundLoop =>
        let lap i := once i + pauseSpan loop.pause
        (List.range loop.mode.number.toNat).flatMap fun i =>
          Step.startsAll order path 0 steps (earlier i)
            (start + pauseSpan pause.before + laps lap i)

/-- The same for the steps of a composite in one iteration. -/
def Step.startsAll (order : Order) (path : Path) (index : ℕ) :
    List Step → Tally → Instant → List Record
  | [], _, _ => []
  | s :: rest, tally, start =>
    Step.starts (.child path index s.kind) s tally start ++
      Step.startsAll order path (index + 1) rest tally
        (match order with
        | .serial => start + Step.span env cost (.child path index s.kind) s tally
        | .parallel => start)

end

/-! ### Calls that do not depend on earlier ones -/

variable {env cost}

theorem Call.spans_congr (hcost : ∀ c n, cost c n = cost c 0) (left : ℕ) :
    ∀ (c : Call) (n m : ℕ), Call.spans cost c n left = Call.spans cost c m left := by
  induction left with
  | zero => exact fun _ _ _ => rfl
  | succ left ih =>
    intro c n m
    rw [Call.spans, Call.spans, hcost c n, hcost c m, ih _ (n + 1) (m + 1)]

mutual

/-- How long a step takes does not depend on earlier calls, if no call does. -/
theorem Step.span_congr (hcost : ∀ c n, cost c n = cost c 0) : ∀ (s : Step) (path : Path)
    (tally tally' : Tally), Step.span env cost path s tally = Step.span env cost path s tally'
  | .transition t, path, tally, tally' => by
    have hspans : t.span env cost path tally = t.span env cost path tally' := by
      refine congrArg longest (List.map_congr_left fun x _ => ?_)
      exact Call.spans_congr hcost _ _ _ _
    rw [Step.span, Step.span, hspans]
  | .composite order steps loop pause, path, tally, tally' => by
    have hsteps := Step.spans_congr hcost steps path 0
    simp only [Step.span, hsteps _ tally']

theorem Step.spans_congr (hcost : ∀ c n, cost c n = cost c 0) : ∀ (steps : List Step)
    (path : Path) (index : ℕ) (tally tally' : Tally),
      Step.spans env cost path index steps tally = Step.spans env cost path index steps tally'
  | [], path, index, tally, tally' => by rw [Step.spans, Step.spans]
  | s :: rest, path, index, tally, tally' => by
    rw [Step.spans, Step.spans, Step.span_congr hcost s _ tally tally',
      Step.spans_congr hcost rest path (index + 1) tally tally']

end

/-- Iterations that are alike. -/
theorem laps_of_alike {lap : ℕ → Duration} {d : Duration} {n : ℕ} (h : ∀ i < n, lap i = d) :
    laps lap n = n * d := by
  have hlaps : (List.range n).map lap = (List.range n).map (Function.const ℕ d) :=
    List.map_congr_left fun i hi => h i (List.mem_range.mp hi)
  rw [laps, hlaps, List.map_const, List.length_range, List.sum_replicate_nat]

/-- **How long a composite takes whose iterations are alike**, each of them `b` long without the
pauses around it. -/
theorem Step.span_composite {path : Path} {order : Order} {steps : List Step} {loop : Loop}
    {tally : Tally} {b : Duration} (halike : ∀ i < loop.mode.number.toNat, order.span
      (Step.spans env cost path 0 steps (tally.after (Step.callsAll env path 0 steps) i)) = b)
    (pause : Pause) : Step.span env cost path (.composite order steps loop pause) tally
      = match env.scope with
        | .perIteration => loop.mode.number.toNat * (pauseSpan pause.before + b
            + pauseSpan pause.after + pauseSpan loop.pause)
        | .aroundLoop => pauseSpan pause.before
            + loop.mode.number.toNat * (b + pauseSpan loop.pause) + pauseSpan pause.after := by
  rw [Step.span]
  cases env.scope with
  | perIteration =>
    exact laps_of_alike fun i hi => congrArg
      (pauseSpan pause.before + · + pauseSpan pause.after + pauseSpan loop.pause) (halike i hi)
  | aroundLoop =>
    have hlaps : laps (fun i => order.span (Step.spans env cost path 0 steps
        (tally.after (Step.callsAll env path 0 steps) i)) + pauseSpan loop.pause)
          loop.mode.number.toNat = loop.mode.number.toNat * (b + pauseSpan loop.pause) :=
      laps_of_alike fun i hi => congrArg (· + pauseSpan loop.pause) (halike i hi)
    exact congrArg (pauseSpan pause.before + · + pauseSpan pause.after) hlaps

/-- The iterations of a composite are alike if no call depends on earlier ones. -/
theorem Step.alike (hcost : ∀ c n, cost c n = cost c 0) (path : Path) (order : Order)
    (steps : List Step) (tally : Tally) (i : ℕ) : order.span
      (Step.spans env cost path 0 steps (tally.after (Step.callsAll env path 0 steps) i))
        = order.span (Step.spans env cost path 0 steps tally) := by
  rw [Step.spans_congr hcost steps path 0 _ tally]

end Lightshow
