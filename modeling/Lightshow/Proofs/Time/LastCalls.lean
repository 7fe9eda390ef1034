import Lightshow.Proofs.Run.Bounds
import Lightshow.Proofs.Run.Result
import Lightshow.Proofs.Time.Cancelled

/-!
# The last calls of a run that is cancelled

The caller may cancel at any time, but a run looks for it only before it begins something: a call,
a transition, an iteration, a pause, and while it rests.  So how a cancelled run ends depends on
what it has before it.  If there is a place left at which it looks, the run is cancelled there, or
an error ends it before.  If nothing is left but to see the last calls through, it does not look
any more, and ends as if nobody had cancelled.

A loop that is bound to an instant looks before its next iteration only if the instant has not come
yet.  Whether it will look is therefore said relative to an instant: the end of the run for what
must still look, and the present for what never will.

## Main definitions

* `Queue.MustLook`, `Activity.MustLook` — something is left at which the run looks.
* `Queue.Spent`, `Activity.Spent` — nothing is left but to see calls through.

## Main results

* `Activity.Move.mustLook`, `Activity.Move.spent` — single moves.
* `Machine.Ticks.mustLook`, `Machine.Ticks.spent` — runs.
* `Program.status_of_cancelled` — **how a run ends that is cancelled.**
* `Program.lamp_completed_though_cancelled` — a run that is cancelled and completes.
-/

namespace Lightshow

open Relation World

variable {env : Environment} {w w' : World}

/-! ### What is left of a run -/

/-- A queue has calls before it, or it has ended otherwise than completed. -/
def Queue.MustLook : Queue → Prop
  | .ready _ left | .calling _ left _ _ | .awaiting _ left _ => 0 < left
  | .ended flow => flow ≠ .completed

/-- A queue has no calls before it, and it has not ended as cancelled. -/
def Queue.Spent : Queue → Prop
  | .ready _ left | .calling _ left _ _ | .awaiting _ left _ => left = 0
  | .ended flow => flow ≠ .cancelled

/-- In an activity that goes on at `last` at the latest something is left at which it looks whether
the run is to halt, or something has ended otherwise than completed. -/
inductive Activity.MustLook (last : Instant) : Activity → Prop
  | ended {flow : Flow} (h : flow ≠ .completed) : MustLook last (.ended flow)
  | pause (path : Path) (o : TimeOption) : MustLook last (.pause path (some o))
  | sleeping (wake : Instant) : MustLook last (.sleeping wake)
  | dispatch (path : Path) (t : Transition) : MustLook last (.dispatch path t)
  | applying {queues : List Queue} {q : Queue} (hmem : q ∈ queues) (h : q.MustLook) :
      MustLook last (.applying queues)
  | first {first : Activity} (rest : Activity) (h : MustLook last first) :
      MustLook last (.seq first rest)
  | second (first : Activity) {rest : Activity} (h : MustLook last rest) :
      MustLook last (.seq first rest)
  | join {branches : List Activity} {a : Activity} (hmem : a ∈ branches) (h : MustLook last a) :
      MustLook last (.join branches)
  | before (block : Block) (o : TimeOption) (body : Activity) (after : Option TimeOption) :
      MustLook last (.enter block (some o) body after)
  | after (block : Block) (before : Option TimeOption) (body : Activity) (o : TimeOption) :
      MustLook last (.enter block before body (some o))
  | enter {block : Block} (before : Option TimeOption) (body : Activity)
      (after : Option TimeOption)
      (h : ∀ bound, block.mode.Yields bound → bound.continues 0 last = true) :
      MustLook last (.enter block before body after)
  | rounds (block : Block) {bound : Bound} {completed : ℕ} (body : Activity)
      (h : bound.continues completed last = true) :
      MustLook last (.rounds block bound completed body)
  | current (block : Block) (bound : Bound) (completed : ℕ) (body : Activity) {current : Activity}
      (h : MustLook last current) : MustLook last (.within block bound completed body current)
  | again (block : Block) {bound : Bound} {completed : ℕ} (body current : Activity)
      (h : bound.continues (completed + 1) last = true) :
      MustLook last (.within block bound completed body current)

/-- From `now` on nothing is left of an activity but to see calls through, and no part of it has
ended as cancelled. -/
inductive Activity.Spent (now : Instant) : Activity → Prop
  | ended {flow : Flow} (h : flow ≠ .cancelled) : Spent now (.ended flow)
  | rest (path : Path) : Spent now (.pause path none)
  | applying {queues : List Queue} (h : ∀ q ∈ queues, q.Spent) : Spent now (.applying queues)
  | seq {first rest : Activity} (hfirst : Spent now first) (hrest : Spent now rest) :
      Spent now (.seq first rest)
  | join {branches : List Activity} (h : ∀ a ∈ branches, Spent now a) : Spent now (.join branches)
  | rounds (block : Block) {bound : Bound} {completed : ℕ} (body : Activity)
      (h : bound.continues completed now = false) : Spent now (.rounds block bound completed body)
  | within (block : Block) {bound : Bound} {completed : ℕ} (body : Activity) {current : Activity}
      (h : bound.continues (completed + 1) now = false) (hcurrent : Spent now current) :
      Spent now (.within block bound completed body current)

theorem Activity.Spent.mono {a : Activity} {now now' : Instant} (h : Spent now a)
    (hle : now ≤ now') : Spent now' a := by
  induction h with
  | ended h => exact .ended h
  | rest path => exact .rest path
  | applying h => exact .applying h
  | seq _ _ ihfirst ihrest => exact .seq ihfirst ihrest
  | join _ ih => exact .join ih
  | rounds block body h => exact .rounds block body (Bound.over_forever h le_rfl hle)
  | within block body h _ ih => exact .within block body (Bound.over_forever h le_rfl hle) ih

/-! ### Queues -/

namespace Queue

/-- What follows a call goes by the calls that are left, or an error has ended the queue. -/
theorem next_cases (env : Environment) (call : Call) (left : ℕ) (result : Except DeviceError Unit)
    (w : World) : (∃ c, next call left (settle env call result w).1 = .ready c left) ∨
      ∃ cause, next call left (settle env call result w).1 = .ended (.fatal cause) := by
  rw [settle_flow]
  cases call.fatal? (error? result) with
  | none => exact .inl ⟨_, rfl⟩
  | some cause => exact .inr ⟨cause, rfl⟩

/-- **A queue that must look does so, unless it goes on to see a call through.** -/
theorem Move.mustLook {q q' : Queue} (h : Move env q w q' w') (hw : w.halted = true)
    (hq : q.MustLook) : q'.MustLook := by
  have hnext : ∀ (call : Call) (left : ℕ) (result : Except DeviceError Unit) (w : World), 0 < left →
      (next call left (settle env call result w).1).MustLook := by
    intro call left result w hleft
    rcases next_cases env call left result w with ⟨c, h⟩ | ⟨cause, h⟩
    · rw [h]
      exact hleft
    · rw [h]
      exact nofun
  cases h with
  | finish => exact absurd hq (Nat.lt_irrefl 0)
  | halt => exact nofun
  | call hgoing => exact absurd hw (not_halted_of_going hgoing)
  | await => exact hq
  | answer => exact hnext _ _ _ _ hq
  | acknowledge => exact hnext _ _ _ _ hq

/-- **A queue without calls before it does not look.** -/
theorem Move.spent {q q' : Queue} (h : Move env q w q' w') (hq : q.Spent) : q'.Spent := by
  have hnext : ∀ (call : Call) (left : ℕ) (result : Except DeviceError Unit) (w : World), left = 0 →
      (next call left (settle env call result w).1).Spent := by
    intro call left result w hleft
    rcases next_cases env call left result w with ⟨c, h⟩ | ⟨cause, h⟩
    · rw [h]
      exact hleft
    · rw [h]
      exact nofun
  cases h with
  | finish => exact nofun
  | halt => exact absurd hq (Nat.succ_ne_zero _)
  | call => exact absurd hq (Nat.succ_ne_zero _)
  | await => exact hq
  | answer => exact hnext _ _ _ _ hq
  | acknowledge => exact hnext _ _ _ _ hq

end Queue

/-! ### Activities -/

namespace Activity

/-- **Where the run must look it does, or this is still to come.** -/
theorem Move.mustLook {a a' : Activity} (h : Move env a w a' w') (hw : w.halted = true)
    {last : Instant} (hnow : w.now ≤ last) (ha : MustLook last a) : MustLook last a' := by
  induction h with
  | rest => cases ha
  | pause =>
    rw [beginPause_of_halted _ _ hw]
    exact .ended nofun
  | wake =>
    rw [pollSleep_of_halted _ hw]
    exact .ended nofun
  | withhold => exact .ended nofun
  | dispatch hgoing => exact absurd hw (not_halted_of_going hgoing)
  | serve before after hq =>
    cases ha with
    | applying hmem hlook =>
      rcases mem_replace hmem with rfl | hmem
      · exact .applying (List.mem_append_right _ List.mem_cons_self) (hq.mustLook hw hlook)
      · exact .applying hmem hlook
  | served =>
    cases ha with
    | applying hmem hlook =>
      obtain ⟨flow, hflow, rfl⟩ := List.mem_map.mp hmem
      exact .ended (Flow.ne_completed_prevails.merge hflow hlook)
  | first _ ih =>
    cases ha with
    | first _ h => exact .first _ (ih hw hnow h)
    | second _ h => exact .second _ h
  | second =>
    cases ha with
    | first rest h =>
      cases h with
      | ended h => exact absurd rfl h
    | second first h => exact h
  | skip hf => exact .ended hf
  | branch before after _ ih =>
    cases ha with
    | join hmem h =>
      rcases mem_replace hmem with rfl | hmem
      · exact .join (List.mem_append_right _ List.mem_cons_self) (ih hw hnow h)
      · exact .join hmem h
  | joined =>
    cases ha with
    | join hmem h =>
      obtain ⟨flow, hflow, rfl⟩ := List.mem_map.mp hmem
      cases h with
      | ended h => exact .ended (Flow.ne_completed_prevails.merge hflow h)
  | bar => exact .ended nofun
  | enter he =>
    cases ha with
    | before block o body after => exact .first _ (.pause _ _)
    | after block before body o => exact .second _ (.second _ (.pause _ _))
    | enter before body after h =>
      exact .second _ (.first _ (.rounds _ _ (h _ (yields_of_enterLoop he))))
  | expire hb =>
    cases ha with
    | rounds block body h =>
      -- a loop that is over now does not go on at the end
      exact absurd ((Bound.over_forever hb le_rfl hnow).symm.trans h) Bool.false_ne_true
  | stop => exact .ended nofun
  | begin _ hgoing => exact absurd hw (not_halted_of_going hgoing)
  | inside _ ih =>
    cases ha with
    | current block bound completed body h => exact .current _ _ _ _ (ih hw hnow h)
    | again block body current h => exact .again _ _ _ h
  | again =>
    cases ha with
    | current block bound completed body h =>
      cases h with
      | ended h => exact absurd rfl h
    | again block body current h => exact .rounds _ _ h
  | leave hf => exact .ended hf

theorem merge_ne_cancelled {flows : List Flow} (h : ∀ flow ∈ flows, flow ≠ .cancelled) :
    Flow.merge flows ≠ .cancelled := by
  intro hmerge
  refine h (Flow.merge flows) (Flow.merge_mem ?_) hmerge
  rw [hmerge]
  exact nofun

/-- **Where nothing is left but to see calls through, nothing is cancelled.** -/
theorem Move.spent {a a' : Activity} (h : Move env a w a' w') (ha : Spent w.now a) :
    Spent w.now a' := by
  induction h with
  | rest => exact .ended nofun
  | serve before after hq =>
    cases ha with
    | applying h =>
      rw [List.forall_mem_append, List.forall_mem_cons] at h
      refine .applying ?_
      rw [List.forall_mem_append, List.forall_mem_cons]
      exact ⟨h.1, hq.spent h.2.1, h.2.2⟩
  | served =>
    cases ha with
    | applying h =>
      exact .ended (merge_ne_cancelled fun flow hflow => h _ (List.mem_map.mpr ⟨flow, hflow, rfl⟩))
  | first _ ih =>
    cases ha with
    | seq hfirst hrest => exact .seq (ih hfirst) hrest
  | second =>
    cases ha with
    | seq _ hrest => exact hrest
  | skip =>
    cases ha with
    | seq hfirst _ => exact hfirst
  | branch before after _ ih =>
    cases ha with
    | join h =>
      rw [List.forall_mem_append, List.forall_mem_cons] at h
      refine .join ?_
      rw [List.forall_mem_append, List.forall_mem_cons]
      exact ⟨h.1, ih h.2.1, h.2.2⟩
  | joined =>
    cases ha with
    | join h =>
      refine .ended (merge_ne_cancelled fun flow hflow => ?_)
      cases h _ (List.mem_map.mpr ⟨flow, hflow, rfl⟩) with
      | ended h => exact h
  | expire => exact .ended nofun
  | stop hb =>
    cases ha with
    | rounds block body h => exact absurd (h.symm.trans hb) Bool.false_ne_true
  | begin hb =>
    cases ha with
    | rounds block body h => exact absurd (h.symm.trans hb) Bool.false_ne_true
  | inside _ ih =>
    cases ha with
    | within block body h hcurrent => exact .within _ _ h (ih hcurrent)
  | again =>
    cases ha with
    | within block body h _ => exact .rounds _ _ h
  | leave =>
    cases ha with
    | within block body _ hcurrent => exact hcurrent
  | _ => cases ha

end Activity

/-! ### Runs -/

namespace Machine

/-- **The clock of a run that is cancelled does not go back.** -/
theorem Tick.now_le {m m' : Machine} (h : Tick env m m') (hm : m.world.cancelled = true) :
    m.world.now ≤ m'.world.now := by
  cases h with
  | act ha => exact Nat.le_of_eq ha.leads.now.symm
  | turn => exact Nat.le_refl _
  | cancel => exact Nat.le_of_eq (now_cancelIf _ _).symm
  | wait hwaits =>
    obtain ⟨hdues, hlater⟩ := hwaits.dues
    exact Nat.le_of_lt (hlater _ (nextInstant_mem (.inl hm) hdues))

theorem Tick.cancelled {m m' : Machine} (h : Tick env m m') (hm : m.world.cancelled = true) :
    m'.world.cancelled = true := (Move.ops h.move).cancelled hm

/-- **A run that must look when it is cancelled does not complete.** -/
theorem Ticks.mustLook {m m' : Machine} (h : Ticks env m m') (hm : m.world.cancelled = true) :
    m.world.now ≤ m'.world.now ∧ (m.activity.MustLook m'.world.now →
      m'.activity.MustLook m'.world.now) := by
  induction h using ReflTransGen.head_induction_on with
  | refl => exact ⟨Nat.le_refl _, id⟩
  | head htick _ ih =>
    obtain ⟨hle, hlook⟩ := ih (htick.cancelled hm)
    have hnow := Nat.le_trans (htick.now_le hm) hle
    refine ⟨hnow, fun hmust => hlook ?_⟩
    cases htick with
    | act ha => exact ha.mustLook (halted_of_cancelled hm) hnow hmust
    | _ => exact hmust

/-- **A run that is spent when it is cancelled does not notice.** -/
theorem Ticks.spent {m m' : Machine} (h : Ticks env m m') (hm : m.world.cancelled = true)
    (hspent : m.activity.Spent m.world.now) : m'.activity.Spent m'.world.now := by
  refine (h.keep (fun m => m.world.cancelled = true ∧ m.activity.Spent m.world.now)
    (fun htick hm => ⟨htick.cancelled hm.1, ?_⟩) ⟨hm, hspent⟩).2
  have hle := htick.now_le hm.1
  cases htick with
  | act ha => exact (ha.spent hm.2).mono hle
  | _ => exact hm.2.mono hle

end Machine

namespace Program

/-- **How a run ends that is cancelled.**  Consider a run at any time after the caller has cancelled
it, and let it go on and return.  If something was left at which it looks whether it is to halt, it
is not completed, and its exit code tells so.  If nothing was left but to see calls through, it is
not cancelled: it is completed, unless one of its calls came to an error that ends the run. -/
theorem status_of_cancelled {p : Program} {m : Machine} {flow : Flow} (hruns : p.Runs env m)
    (hcancelled : m.world.cancelled = true) (h : Machine.Ticks env m ⟨.ended flow, w⟩) :
    let (result, last) := flow.result env w
    p.Returns env result last ∧
      (m.activity.MustLook last.now → result.status ≠ .completed ∧ result.exitCode ≠ 0) ∧
      (m.activity.Spent m.world.now → result.status ≠ .cancelled ∧
        (result.fatal = none → result.status = .completed)) := by
  have hnow : (w.emit env (.stopped env.runId flow.status)).now = w.now := now_cancelIf _ _
  refine ⟨⟨flow, w, hruns.reaches.trans h.moves, rfl⟩, fun hmust => ?_, fun hspent => ?_⟩
  · have hlook : (Activity.ended flow).MustLook w.now :=
      (h.mustLook hcancelled).2 (hnow ▸ hmust)
    have hstatus : flow.status ≠ .completed := by
      cases hlook with
      | ended hflow =>
        cases flow with
        | completed => exact absurd rfl hflow
        | _ => exact nofun
    exact ⟨hstatus, fun hcode => hstatus ((RunResult.exitCode_iff _).1.mp hcode).1⟩
  · have hended : (Activity.ended flow).Spent w.now := h.spent hcancelled hspent
    cases hended with
    | ended hflow =>
      cases flow with
      | completed => exact ⟨nofun, fun _ => rfl⟩
      | cancelled => exact absurd rfl hflow
      | fatal cause => exact ⟨nofun, nofun⟩

/-- A lamp is to be served some times, each call taking five nanoseconds, and the caller cancels
after two.  If it was to be served three times, two calls are left, and the run is cancelled.  If
it was to be served once, none is left, and the run completes. -/
theorem lamp_cancelled_within_first_call :
    let env := { Environment.plain with
      gateway := fun _ _ => { latency := 5 }
      cancellation := { time := some 2 } }
    let p (n : ℕ) : Program :=
      ⟨none, .transition { state := {}, devices := some (List.replicate n (.light "lamp")) }⟩
    ∀ n ∈ [1, 3], ∃ m flow w, (p n).Runs env m ∧ m.world.cancelled = true ∧
      Machine.Ticks env m ⟨.ended flow, w⟩ ∧ w.now = 5 ∧
        ((flow.result env w).1.status = .completed ↔ n = 1) := by
  intro env p n hn
  have hticks : Machine.Ticks env (Machine.after env 2 (Machine.start env (p n)))
      (Machine.after env 3 (Machine.start env (p n))) := by
    rw [Machine.after_add 2 1]
    exact Machine.after_ticks 1 _
  obtain ⟨m, hm⟩ : ∃ m, Machine.after env 2 (Machine.start env (p n)) = m := ⟨_, rfl⟩
  obtain ⟨m', hm'⟩ : ∃ m, Machine.after env 3 (Machine.start env (p n)) = m := ⟨_, rfl⟩
  have hruns : (p n).Runs env m := hm ▸ runs_after env (p n) 2
  rw [hm, hm'] at hticks
  let lamp : Call := ⟨0, .root .transition, ⟨.light, 1, "lamp"⟩, {}, false, 0⟩
  rcases List.mem_pair.mp hn with rfl | rfl
  · have hcancelled : m.world.cancelled = true := by rw [← hm]; decide +kernel
    have hactivity : m.activity
        = .seq (.applying [.calling lamp 0 .done 5]) (.pause (.root .transition) none) := by
      rw [← hm]; rfl
    have hflow : m'.activity.flow? = some .completed := by rw [← hm']; decide +kernel
    have hended : m' = ⟨.ended .completed, m'.world⟩ := by rw [← Activity.eq_ended_of_flow? hflow]
    have hnow : m'.world.now = 5 := by rw [← hm']; decide +kernel
    rw [hended] at hticks
    obtain ⟨-, -, hspent⟩ := status_of_cancelled hruns hcancelled hticks
    have hstatus := (hspent (hactivity ▸ .seq (.applying (by simp [Queue.Spent])) (.rest _))).2 rfl
    exact ⟨m, _, m'.world, hruns, hcancelled, hticks, hnow, iff_of_true hstatus rfl⟩
  · have hcancelled : m.world.cancelled = true := by rw [← hm]; decide +kernel
    have hactivity : m.activity
        = .seq (.applying [.calling lamp 2 .done 5]) (.pause (.root .transition) none) := by
      rw [← hm]; rfl
    have hflow : m'.activity.flow? = some .cancelled := by rw [← hm']; decide +kernel
    have hended : m' = ⟨.ended .cancelled, m'.world⟩ := by rw [← Activity.eq_ended_of_flow? hflow]
    have hnow : m'.world.now = 5 := by rw [← hm']; decide +kernel
    rw [hended] at hticks
    obtain ⟨-, hmust, -⟩ := status_of_cancelled hruns hcancelled hticks
    have hstatus := (hmust (hactivity ▸ .first _
      (.applying List.mem_cons_self (by simp [Queue.MustLook])))).1
    exact ⟨m, _, m'.world, hruns, hcancelled, hticks, hnow, iff_of_false hstatus nofun⟩

/-- A run may be cancelled before it returns and complete all the same: the caller cancels while the
only call of the program is in flight. -/
theorem lamp_completed_though_cancelled :
    let env := { Environment.plain with
      gateway := fun _ _ => { latency := 5 }
      cancellation := { time := some 2 } }
    let p : Program := ⟨none, .transition { state := {}, devices := some [.light "lamp"] }⟩
    ∃ result w, p.run? env 3 = some (result, w) ∧ ⟨2, .cancelled⟩ ∈ w.journal ∧ w.now = 5 ∧
      result.status = .completed ∧ result.exitCode = 0 := by
  intro env p
  have hseen : ((p.run? env 3).map fun x =>
      (x.2.journal.contains ⟨2, .cancelled⟩, x.2.now, x.1.status, x.1.exitCode))
        = some (true, 5, .completed, 0) := by decide +kernel
  obtain ⟨⟨result, w⟩, hrun, hseen⟩ := Option.map_eq_some_iff.mp hseen
  obtain ⟨hcancelled, hseen⟩ := Prod.ext_iff.mp hseen
  obtain ⟨hnow, hseen⟩ := Prod.ext_iff.mp hseen
  obtain ⟨hstatus, hcode⟩ := Prod.ext_iff.mp hseen
  exact ⟨result, w, hrun, List.contains_iff_mem.mp hcancelled, hnow, hstatus, hcode⟩

end Program

end Lightshow
