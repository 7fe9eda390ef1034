import Lightshow.Proofs.Run.Plain
import Lightshow.Proofs.Time.Promises

/-!
# Runs that are cancelled

A run that the caller cancels may have a lot before it: loops without end, deadlines, pauses of any
length in any number of branches.  None of this is waited for.  Each branch that sleeps ends, no
iteration begins, no call is made; what remains is to see the calls through that are in flight.

That such a run ends at all follows since its loops make no more iterations; and that it ends when
the last of these calls completes follows since it waits for nothing else.  When that is depends on
the gateway's replies, which came before: if an acknowledgement is waited for, the call completes
when this comes, or when the window for it closes.

## Main results

* `Program.Reaches.returns_of_cancelled` — a run that is cancelled ends.
* `Program.cancelled_returns` — **when a run ends that is cancelled.**
-/

namespace Lightshow

open World

variable {env : Environment}

/-- A run that was cancelled remains so. -/
theorem World.Ops.cancelled {w w' : World} (h : Ops w w') (hw : w.cancelled = true) :
    w'.cancelled = true := by
  refine h.keep (·.cancelled = true) (fun hop hw => ?_) hw
  cases hop with
  | cancel due w => rw [cancelled_cancelIf, hw, Bool.true_or]
  | _ => exact hw

namespace Program

variable {p : Program} {m : Machine}

/-- **A run that is cancelled ends**, whatever it still has before it. -/
theorem Reaches.returns_of_cancelled (h : p.Reaches env m) (hcancelled : m.world.cancelled = true) :
    ∃ fuel flow w, m.run? env fuel = some (flow, w) := by
  refine Machine.exists_run? (fun m => p.Reaches env m ∧ m.world.cancelled = true)
    (Machine.toGo env Ration.none) (fun m hm hlive => ?_) _ m (Nat.lt_succ_self _) ⟨h, hcancelled⟩
  obtain ⟨hreaches, hcancelled⟩ := hm
  have hround : Machine.Moves env m (m.round env) := Machine.round_moves m
  refine ⟨⟨hreaches.trans hround, hround.ops.cancelled hcancelled⟩, ?_⟩
  have huses := (hreaches.supplied fun n _ => n.uses_of_forall fun _ => trivial).uses
  refine Machine.round_toGo hlive (fun halted hhalted => ?_) huses (.inl hcancelled)
  -- the run is to halt, so no loop goes on
  obtain rfl : halted = true := hhalted (halted_of_cancelled hcancelled)
  exact Ration.none_covers

/-- A run that goes on from some round to its end is a run of the program. -/
theorem run?_of_after {n fuel : ℕ} {flow : Flow} {w : World}
    (h : (Machine.after env n (Machine.start env p)).run? env fuel = some (flow, w)) :
    p.run? env (n + fuel) = some (flow.result env w) := by
  have hafter := (Machine.run?_eq_some_iff fuel _ flow w).mp h
  rw [← Machine.after_add] at hafter
  rw [Program.run?, (Machine.run?_eq_some_iff _ _ flow w).mpr hafter]
  rfl

/-- **When a run ends that is cancelled.**  Let the fades of the transitions that wait leave room for
the timeout, and let the caller cancel a run at some instant, while it is under way.  Each call that
is in flight then has got a reply that allows it to end, and completes at the only instant at which
the reply does so.  The run returns, and it does so exactly when it was cancelled or when the last of
these calls completes, whichever is later.  No time passes in the meantime, in any of the rounds of
the run, unless one of these calls is still in flight and does not complete before the clock stands
still again. -/
theorem cancelled_returns
    (hroom : ∀ x ∈ p.transitions, x.2.wait = true →
      (x.2.state.fadeDuration + env.ackTimeout).Representable)
    {n : ℕ} {later earlier : Journal} {t : Instant}
    (h : (Machine.after env n (Machine.start env p)).world.journal
      = later ++ ⟨t, .cancelled⟩ :: earlier) :
    (∀ f ∈ earlier.flights env, ∃ r, (f.1, r) ∈ earlier.replies env ∧
      (∃ e, f.1.MayEnd env r e) ∧ ∀ e, f.1.MayEnd env r e → e.time = f.2) ∧
    (∃ fuel result w, p.run? env fuel = some (result, w) ∧
      w.now = latest t (earlier.flights env)) ∧
    ∀ k m m' later', Machine.after env k (Machine.start env p) = m →
      Machine.after env (k + 1) (Machine.start env p) = m' →
      m'.world.journal = later' ++ ⟨t, .cancelled⟩ :: earlier → m'.world.now ≠ m.world.now →
        t ≤ m.world.now ∧ m.world.now < m'.world.now ∧
          ∃ f ∈ earlier.flights env, f ∈ m'.world.journal.flights env ∧ m'.world.now ≤ f.2 := by
  refine ⟨?_, ?_, ?_⟩
  · exact (runs_after env p n).reaches.flights_end hroom (h.trans (List.append_cons ..))
  · have hruns := runs_after env p n
    have hcancelled := hruns.reaches.faithful.cancelled_of_split h
    obtain ⟨fuel, flow, w, hrun⟩ := hruns.reaches.returns_of_cancelled hcancelled
    refine ⟨n + fuel, _, _, run?_of_after hrun, ?_⟩
    have hended := (Machine.run?_eq_some_iff fuel _ flow w).mp hrun
    have hticks : Machine.Ticks env (Machine.after env n (Machine.start env p)) _ :=
      Machine.after_ticks fuel _
    rw [hended] at hticks
    obtain ⟨since, hsince⟩ := (Machine.Moves.ops hticks.moves).journal
    have hsplit : w.journal = (since ++ later) ++ ⟨t, .cancelled⟩ :: earlier := by
      rw [List.append_assoc, ← h]
      exact hsince.symm
    -- nothing is in flight in the end
    have hruns' : p.Runs env ⟨.ended flow, w⟩ := hruns.trans hticks
    rw [← (hruns'.lands _ t earlier hsplit).2.1]
    exact now_cancelIf _ _
  · rintro k m m' later' rfl rfl hsplit hmoved
    rw [Machine.after_add] at hsplit hmoved ⊢
    have hruns := runs_after env p k
    generalize Machine.after env k (Machine.start env p) = m at hruns hsplit hmoved ⊢
    cases hlive : m.activity.flow? with
    | some flow =>
      rw [Machine.after_ended 1 (by rw [hlive]; exact nofun)] at hmoved
      exact absurd rfl hmoved
    | none =>
      have hafter : m.after env 1 = m.round env := Machine.after_live 0 hlive
      rw [hafter] at hsplit hmoved ⊢
      obtain ⟨m', hticks, hnow, hsame | ⟨hwaits, hround⟩⟩ := Machine.round_cases env m
      · rw [hsame] at hmoved
        exact absurd hnow hmoved
      · rw [hround] at hsplit ⊢
        have hruns' : p.Runs env m' := hruns.trans hticks
        have hcancelled := hruns'.reaches.faithful.cancelled_of_split hsplit
        obtain ⟨hle, -, hmem⟩ := hruns'.lands _ t earlier hsplit
        obtain ⟨hmoves, f, hf, hlate⟩ := Machine.waits_flight env hwaits hcancelled
        have hflight := hruns'.flights.mem_iff.mpr hf
        rw [← hnow]
        exact ⟨hle, hmoves, f, hmem f hflight, hflight, hlate⟩

/-- A lamp is being served, whose acknowledgement is to come after seven nanoseconds, and beside it
a loop without end rests for a minute, when the caller cancels after one: the run returns when the
acknowledgement has come, and the clock first moves to the instant at which the call returns. -/
theorem lamp_acknowledged_after_cancellation :
    let env := { Environment.plain with
      gateway := fun _ c => if c.device.name = "lamp" then ⟨3, .pending (some (4, .succeeded))⟩ else {}
      ackTimeout := 1000
      cancellation := { time := some 1 } }
    let lamp : Transition := { state := {}, devices := some [.light "lamp"], wait := true }
    let spot : Transition := { state := {}, devices := some [.light "spot"] }
    let rest : Loop := { mode := .infinite, pause := some (.fixed 60) }
    let p : Program := ⟨none, .composite .parallel
      [.transition lamp, .composite .serial [.transition spot] rest {}] {} {}⟩
    (∃ fuel result w, p.run? env fuel = some (result, w) ∧ w.now = 7) ∧
      ∃ m m', Machine.after env 1 (Machine.start env p) = m ∧
        Machine.after env 2 (Machine.start env p) = m' ∧ m.world.now = 1 ∧ m'.world.now = 3 ∧
        ∃ f ∈ m'.world.journal.flights env, 3 ≤ f.2 := by
  intro env lamp spot rest p
  obtain ⟨m, hm⟩ : ∃ m, Machine.after env 1 (Machine.start env p) = m := ⟨_, rfl⟩
  obtain ⟨m', hm'⟩ : ∃ m, Machine.after env 2 (Machine.start env p) = m := ⟨_, rfl⟩
  obtain ⟨earlier, hearlier⟩ : ∃ j, m.world.journal = j := ⟨_, rfl⟩
  have hsplit : m'.world.journal
      = m'.world.journal.take (m'.world.journal.length - earlier.length - 1)
        ++ ⟨1, .cancelled⟩ :: earlier := by
    rw [← hearlier, ← hm, ← hm']
    decide +kernel
  have hlatest : latest 1 (earlier.flights env) = 7 := by
    rw [← hearlier, ← hm]
    decide +kernel
  have hnow : m.world.now = 1 := by
    rw [← hm]
    decide +kernel
  have hnow' : m'.world.now = 3 := by
    rw [← hm']
    decide +kernel
  have hafter := hsplit
  rw [← hm'] at hafter
  have hroom : ∀ x ∈ p.transitions, x.2.wait = true →
      (x.2.state.fadeDuration + env.ackTimeout).Representable := by decide +kernel
  obtain ⟨-, ⟨fuel, result, w, hrun, hends⟩, hwaits⟩ := cancelled_returns hroom hafter
  have hmoved : m'.world.now ≠ m.world.now := by
    rw [hnow, hnow']
    decide
  obtain ⟨-, -, f, -, hf, hlate⟩ := hwaits 1 m m' _ hm hm' hsplit hmoved
  rw [hnow'] at hlate
  exact ⟨⟨fuel, result, w, hrun, hends.trans hlatest⟩, m, m', hm, hm', hnow, hnow', f, hf, hlate⟩

end Program

end Lightshow
