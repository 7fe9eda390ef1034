import Lightshow.Proofs.Run.Serving
import Lightshow.Proofs.Time.Waiting

/-!
# Nothing happens late

What is due at an instant is done at this instant, since the clock never passes it.  So when a call
returns, or the window of its acknowledgement tells what it came to, the clock shows the time for
which this was to be expected when the gateway was called: that is when the call *finishes*.

## Main definitions

* `Dispatch.finishes`, `Call.completes` — when it is known what a call comes to.

## Main results

* `Activity.Move.dues` — what is due after a move was due before, or is due later.
* `Program.Runs.punctual` — **nothing is late in a run.**
* `Queue.finishes_of_answer`, `Queue.finishes_of_window` — calls that return on time.
-/

namespace Lightshow

open World

variable {env : Environment}

/-! ### When calls finish -/

/-- When it is known what a call comes to that returns at an instant: at once, or when there is an
acknowledgement to wait for as soon as it comes or comes too late. -/
def Dispatch.finishes (env : Environment) (c : Call) (returns : Instant) : Dispatch → Instant
  | .pending ack => if c.wait then (Window.opened env c.state returns ack).due else returns
  | .done | .failed _ => returns

/-- When it is known what a call comes to that the gateway replies to. -/
def Call.completes (env : Environment) (c : Call) (r : Reply) : Instant :=
  r.outcome.finishes env c (c.time + r.latency)

/-- A window tells nothing before it is opened. -/
theorem Window.le_due (env : Environment) (state : DeviceState) (now : Instant)
    (ack : Option (Duration × Ack)) : now ≤ (Window.opened env state now ack).due := by
  have hcloses : now ≤ (Window.opened env state now ack).closes := le_alarm now _
  cases ack with
  | none => exact hcloses
  | some a => exact Nat.le_min.mpr ⟨Nat.le_add_right now a.1, hcloses⟩

namespace Queue

/-- A call does not finish before it returns. -/
theorem le_finishes (env : Environment) (c : Call) (returns : Instant) (outcome : Dispatch) :
    returns ≤ outcome.finishes env c returns := by
  cases outcome with
  | pending ack =>
    rw [Dispatch.finishes]
    split
    · exact Window.le_due ..
    · exact Nat.le_refl _
  | _ => exact Nat.le_refl _

variable {c : Call} {now : Instant} {outcome : Dispatch}

/-- If it is known what a call came to when it returns then it has finished. -/
theorem finishes_of_answer {result : Except DeviceError Unit}
    (h : afterCall env c now outcome = .inl result) : outcome.finishes env c now = now := by
  cases outcome with
  | pending ack =>
    rw [Dispatch.finishes]
    split
    · next hwait =>
      refine Nat.le_antisymm (Nat.le_of_not_lt fun hlater => ?_) (Window.le_due ..)
      have hnone := (Window.result?_eq_none_iff env now _).mpr hlater
      simp only [afterCall, hwait, if_true, hnone] at h
      cases h
    · rfl
  | _ => rfl

/-- Otherwise the window of its acknowledgement tells. -/
theorem finishes_of_window {window : Window} (h : afterCall env c now outcome = .inr window) :
    outcome.finishes env c now = window.due := by
  rcases afterCall_cases env c now outcome with ⟨result, hresult, -⟩ | ⟨ack, rfl, hwait, hwindow⟩
  · rw [hresult] at h
    exact absurd h nofun
  · obtain rfl := Sum.inr.inj (h.symm.trans hwindow)
    exact if_pos hwait

end Queue

/-! ### What is due -/

namespace Queue

/-- What is due after a move of a queue is due no earlier than at the instant of the move. -/
theorem Move.due {q q' : Queue} {w w' : World} (h : Move env q w q' w') :
    ∀ t ∈ q'.due, w.now ≤ t := by
  have hnext : ∀ (call : Call) (left : ℕ) (flow : Option Flow),
      ∀ t ∈ (next call left flow).due, w.now ≤ t := by
    intro call left flow t ht
    cases flow <;> exact absurd ht nofun
  cases h with
  | finish => exact fun t ht => absurd ht nofun
  | halt => exact fun t ht => absurd ht nofun
  | call => exact fun t ht => Option.some.inj ht ▸ Nat.le_add_right _ _
  | await _ ha => exact fun t ht => Option.some.inj ht ▸ Nat.le_of_lt (window_waits ha)
  | answer => exact hnext _ _ _
  | acknowledge => exact hnext _ _ _

end Queue

namespace Activity

/-- Nothing is due for what has not begun. -/
theorem Idle.dues {a : Activity} (h : Idle a) : a.dues = [] := by
  induction h with
  | seq _ _ ih => exact ih
  | join _ ih =>
    rw [Activity.dues, duesAll_eq_flatMap]
    exact List.flatMap_eq_nil_iff.mpr ih
  | _ => rfl

theorem beginSleep_dues (span : Duration) (w : World) :
    ∀ t ∈ (beginSleep span w).1.dues, w.now ≤ t := by
  unfold beginSleep pollSleep
  split
  · exact fun t ht => absurd ht List.not_mem_nil
  · split
    · exact fun t ht => absurd ht List.not_mem_nil
    · intro t ht
      rw [List.mem_singleton.mp ht]
      exact le_spanEnds w.now span

/-- A pause that begins is due no earlier than at its instant. -/
theorem beginPause_dues (path : Path) (o : TimeOption) (w : World) :
    ∀ t ∈ (beginPause env path (some o) w).1.dues, w.now ≤ t := by
  obtain ⟨draws, span, h⟩ := beginPause_eq env path o w
  have hleads : w.Leads ((w.notes (draws.map Entry.drew)).emit env
      (.paused path.text span.toSeconds)) := (notes_leads _ w).trans (emit_leads env _ _)
  rw [h]
  exact fun t ht => hleads.now ▸ beginSleep_dues span _ t ht

/-- **What is due after a move was due before, or it is due of a pause that begins or of a queue
that moves.** -/
theorem Move.dues {S : Instant → Prop} {a a' : Activity} {w w' : World} (h : Move env a w a' w')
    (hready : Ready a)
    (hpause : ∀ path o, ∀ t ∈ (beginPause env path (some o) w).1.dues, S t)
    (hqueue : ∀ q ∈ a.queues, ∀ q', Queue.Move env q w q' w' → ∀ t ∈ q'.due, S t) :
    ∀ t ∈ a'.dues, t ∈ a.dues ∨ S t := by
  induction h with
  | pause => exact fun t ht => .inr (hpause _ _ t ht)
  | @wake instant w =>
    unfold pollSleep
    split
    · exact fun t ht => absurd ht List.not_mem_nil
    · split
      · exact fun t ht => absurd ht List.not_mem_nil
      · exact fun t ht => .inl ht
  | dispatch =>
    intro t ht
    obtain ⟨q, hq, hdue⟩ := List.mem_filterMap.mp ht
    obtain ⟨d, -, rfl⟩ := List.mem_map.mp hq
    exact absurd hdue nofun
  | serve before after hq =>
    intro t ht
    obtain ⟨r, hr, hdue⟩ := List.mem_filterMap.mp ht
    rcases List.mem_append.mp hr with hr | hr
    · exact .inl (List.mem_filterMap.mpr ⟨r, List.mem_append_left _ hr, hdue⟩)
    · rcases List.mem_cons.mp hr with rfl | hr
      · exact .inr (hqueue _ (List.mem_append_right _ List.mem_cons_self) _ hq t hdue)
      · refine .inl (List.mem_filterMap.mpr ⟨r, List.mem_append_right _ ?_, hdue⟩)
        exact List.mem_cons_of_mem _ hr
  | first _ ih =>
    cases hready with
    | seq hfirst _ => exact ih hfirst hpause fun q hq => hqueue q (List.mem_append_left _ hq)
  | second =>
    cases hready with
    | seq _ hrest =>
      rw [hrest.dues]
      exact fun t ht => absurd ht List.not_mem_nil
  | @branch a _ _ _ before after _ ih =>
    cases hready with
    | join hready =>
      have hmem : a ∈ before ++ a :: after := List.mem_append_right _ List.mem_cons_self
      have ih := ih (hready a hmem) hpause fun q hq => hqueue q (by
        rw [Activity.queues, queuesAll_eq_flatMap]
        exact List.mem_flatMap.mpr ⟨a, hmem, hq⟩)
      intro t ht
      simp only [Activity.dues, duesAll_eq_flatMap, List.flatMap_append, List.flatMap_cons,
        List.mem_append] at ht ⊢
      rcases ht with ht | ht | ht
      · exact .inl (.inl ht)
      · exact (ih t ht).imp_left fun h => .inr (.inl h)
      · exact .inl (.inr (.inr ht))
  | begin =>
    cases hready with
    | rounds _ _ _ hbody =>
      intro t ht
      exact absurd (hbody.dues ▸ ht : t ∈ ([] : List Instant)) List.not_mem_nil
  | inside _ ih =>
    cases hready with
    | within _ _ _ _ hcurrent =>
      exact ih hcurrent hpause fun q hq => hqueue q (List.mem_append_right _ hq)
  | _ => exact fun t ht => absurd ht List.not_mem_nil

mutual

/-- A queue that is served is due when its activity is. -/
theorem serving_dues {q : Queue} {t : Instant} (ht : q.due = some t) :
    ∀ a : Activity, q ∈ a.serving → t ∈ a.dues
  | .applying queues => by
    intro hq
    obtain ⟨r, hr, hq⟩ := List.mem_flatMap.mp hq
    exact List.mem_filterMap.mpr ⟨q, Queue.eq_of_mem_live hq ▸ hr, ht⟩
  | .seq first _ => serving_dues ht first
  | .join branches => servingAll_dues ht branches
  | .within _ _ _ _ current => serving_dues ht current
  | .ended _ | .pause .. | .sleeping _ | .dispatch .. | .enter .. | .rounds .. =>
    fun hq => absurd hq List.not_mem_nil

theorem servingAll_dues {q : Queue} {t : Instant} (ht : q.due = some t) :
    ∀ branches : List Activity, q ∈ servingAll branches → t ∈ duesAll branches
  | [] => fun hq => absurd hq List.not_mem_nil
  | a :: rest => by
    intro hq
    rcases List.mem_append.mp hq with hq | hq
    · exact List.mem_append_left _ (serving_dues ht a hq)
    · exact List.mem_append_right _ (servingAll_dues ht rest hq)

end

/-- If a run is to halt then only queues that are served are waited for. -/
theorem Waits.serving {a : Activity} {now : Instant} (h : a.Waits true now) :
    ∀ t ∈ a.dues, ∃ q ∈ a.serving, q.due = some t := by
  induction h with
  | sleeping hgoing => exact absurd hgoing nofun
  | applying =>
    intro t ht
    obtain ⟨q, hq, hdue⟩ := List.mem_filterMap.mp ht
    refine ⟨q, List.mem_flatMap.mpr ⟨q, hq, ?_⟩, hdue⟩
    cases q with
    | ended => exact absurd hdue nofun
    | _ => exact List.mem_singleton_self _
  | first _ _ ih => exact ih
  | join _ _ ih =>
    intro t ht
    rw [Activity.dues, duesAll_eq_flatMap] at ht
    obtain ⟨a, ha, ht⟩ := List.mem_flatMap.mp ht
    cases hflow : a.flow? with
    | some flow =>
      rw [eq_ended_of_flow? hflow] at ht
      exact absurd ht List.not_mem_nil
    | none =>
      obtain ⟨q, hq, hdue⟩ := ih a ha hflow t ht
      rw [Activity.serving, servingAll_eq_flatMap]
      exact ⟨q, List.mem_flatMap.mpr ⟨a, ha, hq⟩, hdue⟩
  | within _ _ _ _ _ ih => exact ih

end Activity

/-! ### Runs -/

namespace Program

variable {p : Program} {m : Machine}

theorem Reaches.ready (h : p.Reaches env m) : m.activity.Ready :=
  (Machine.Moves.accounted h (start_accounted env p)).ready

/-- Nothing is due in the beginning. -/
theorem start_dues (env : Environment) (p : Program) :
    (Machine.start env p).activity.dues = [] := by
  by_cases hp : p.step.faults = []
  · rw [start_of_valid hp]
    exact (Step.activity_idle env.scope p.step _).dues
  · rw [start_of_faults hp]
    rfl

/-- **Nothing is late in a run.** -/
theorem Runs.punctual (h : p.Runs env m) : ∀ t ∈ m.activity.dues, m.world.now ≤ t := by
  induction h with
  | refl =>
    rw [start_dues]
    exact fun t ht => absurd ht List.not_mem_nil
  | tail hprev htick ih =>
    cases htick with
    | act ha =>
      intro t ht
      rw [ha.leads.now]
      exact (ha.dues (Runs.reaches hprev).ready (fun _ _ => Activity.beginPause_dues _ _ _)
        (fun _ _ _ hq => hq.due) t ht).elim (ih t) id
    | turn => exact ih
    | cancel a w =>
      intro t ht
      have hle := ih t ht
      rwa [← (cancelOnTime_grows env w).1] at hle
    | wait => exact fun t ht => Machine.nextInstant_le env _ ht

/-- A queue that is served is not late. -/
theorem Runs.serving_punctual (h : p.Runs env m) :
    ∀ q ∈ m.activity.serving, ∀ t ∈ q.due, m.world.now ≤ t :=
  fun _ hq t ht => h.punctual t (Activity.serving_dues ht m.activity hq)

end Program

end Lightshow
