import Lightshow.Proofs.Run.Uses
import Lightshow.Proofs.Time.Waiting

/-!
# Work that is left

Every move of a run does some work, and no move brings more than it does, as long as the loops of
the run are rationed: each of them makes a limited number of iterations, or none at all since the
run is to halt.  So there is no end to a run only if there is no end to one of its loops.

A round may do no work, if nothing happens at its instant.  But then the clock moves to an instant
at which something does.

## Main definitions

* `Ration`, `Ration.Covers` — how many iterations loops still make.
* `Activity.work` — the work that is left of an activity.
* `Machine.toGo` — the rounds that a run may still take.

## Main results

* `Activity.Move.work_lt` — a move does some work.
* `Machine.round_toGo` — a round brings a run nearer to its end.
* `Machine.exists_run?` — **a run whose loops are rationed ends.**
-/

namespace Lightshow

open Relation World

variable {env : Environment} {P : TimeOption → Prop} {Q : LoopMode → Prop}

/-! ### Rations -/

/-- How many iterations a loop makes, before it is entered and after some of them. -/
structure Ration where
  times : LoopMode → ℕ
  left : Bound → ℕ → ℕ

/-- Loops with certain modes make no more iterations than they are given, in a run that is to halt
or not. -/
structure Ration.Covers (r : Ration) (Q : LoopMode → Prop) (halted : Bool) : Prop where
  enters : ∀ {mode bound}, Q mode → mode.Yields bound → r.left bound 0 ≤ r.times mode
  begins : halted = false → ∀ {mode bound completed now}, Q mode → mode.Yields bound →
    bound.continues completed now = true → r.left bound (completed + 1) < r.left bound completed

/-- Once a run is to halt there are no more iterations. -/
def Ration.none : Ration := ⟨fun _ => 0, fun _ _ => 0⟩

theorem Ration.none_covers : none.Covers Q true where
  enters _ _ := Nat.le_refl 0
  begins h := absurd h nofun

/-! ### Work -/

/-- The moves that a queue still makes, at most. -/
def Queue.work : Queue → ℕ
  | .ready _ left => 3 * left + 1
  | .calling _ left .. => 3 * left + 3
  | .awaiting _ left _ => 3 * left + 2
  | .ended _ => 0

/-- **A move of a queue does some work.** -/
theorem Queue.Move.work_lt {q q' : Queue} {w w' : World} (h : Queue.Move env q w q' w') :
    q'.work < q.work := by
  have hnext : ∀ (call : Call) (left : ℕ) (flow : Option Flow),
      (next call left flow).work ≤ 3 * left + 1 := by
    intro call left flow
    cases flow with
    | none => exact Nat.le_refl _
    | some flow => exact Nat.zero_le _
  cases h with
  | finish => exact Nat.zero_lt_one
  | halt => exact Nat.succ_pos _
  | @call call c left =>
    show 3 * left + 3 < 3 * (left + 1) + 1
    omega
  | await => exact Nat.lt_succ_self _
  | answer => exact Nat.lt_of_le_of_lt (hnext ..) (Nat.add_lt_add_left (by decide) _)
  | acknowledge => exact Nat.lt_of_le_of_lt (hnext ..) (Nat.lt_succ_self _)

mutual

/-- The moves that an activity still makes, at most. -/
def Activity.work (env : Environment) (r : Ration) : Activity → ℕ
  | .ended _ => 0
  | .pause .. => 2
  | .sleeping _ => 1
  | .dispatch path t => ((newQueues 0 path t (announced env t)).map Queue.work).sum + 2
  | .applying queues => (queues.map Queue.work).sum + 1
  | .seq first rest => Activity.work env r first + Activity.work env r rest + 1
  | .join branches => Activity.workAll env r branches + 1
  | .enter block _ body _ => r.times block.mode * (Activity.work env r body + 2) + 8
  | .rounds _ bound completed body =>
    r.left bound completed * (Activity.work env r body + 2) + 1
  | .within _ bound completed body current =>
    r.left bound (completed + 1) * (Activity.work env r body + 2)
      + (Activity.work env r current + 2)

/-- The moves that some activities still make, at most. -/
def Activity.workAll (env : Environment) (r : Ration) : List Activity → ℕ
  | [] => 0
  | a :: rest => Activity.work env r a + Activity.workAll env r rest

end

namespace Activity

variable {r : Ration}

theorem workAll_eq_sum (branches : List Activity) :
    workAll env r branches = (branches.map (work env r)).sum := by
  induction branches with
  | nil => rfl
  | cons a branches ih => rw [workAll, ih, List.map_cons, List.sum_cons]

/-- The work for new queues does not depend on the time. -/
theorem newQueues_work (now : Instant) (path : Path) (t : Transition)
    (devices : List (Device × ℕ)) : (newQueues now path t devices).map Queue.work
      = (newQueues 0 path t devices).map Queue.work := by
  rw [newQueues, newQueues, List.map_map, List.map_map]
  rfl

/-- **A move of an activity does some work**, unless it looks at a pause that is not over. -/
theorem Move.work_lt {a a' : Activity} {w w' : World} (h : Move env a w a' w')
    (hcovers : r.Covers Q w.halted) (huses : Uses P Q a) :
    (a' = a ∧ w' = w) ∨ a'.work env r < a.work env r := by
  induction h with
  | rest => exact .inr Nat.two_pos
  | pause =>
    refine .inr (beginPause_activity (P := fun a => a.work env r < 2) _ _ _ _ (fun _ => ?_)
      (fun _ => ?_) fun _ _ => ?_)
    · exact Nat.two_pos
    · exact Nat.two_pos
    · exact Nat.one_lt_two
  | @wake instant w =>
    unfold pollSleep
    split
    · exact .inr Nat.one_pos
    · split
      · exact .inr Nat.one_pos
      · exact .inl ⟨rfl, rfl⟩
  | withhold => exact .inr (Nat.succ_pos _)
  | dispatch =>
    right
    rw [Activity.work, Activity.work, announce_devices, newQueues_work]
    exact Nat.lt_succ_self _
  | serve before after hq =>
    right
    have hwork := hq.work_lt
    simp only [Activity.work, List.map_append, List.map_cons, List.sum_append, List.sum_cons]
    omega
  | served => exact .inr (Nat.succ_pos _)
  | first _ ih =>
    cases huses with
    | seq hfirst _ =>
      refine (ih hcovers hfirst).imp (fun h => ⟨by rw [h.1], h.2⟩) fun h => ?_
      rw [Activity.work, Activity.work]
      omega
  | second =>
    right
    rw [Activity.work, Activity.work]
    omega
  | skip => exact .inr (Nat.succ_pos _)
  | branch before after _ ih =>
    cases huses with
    | join hbranches =>
      have huses := hbranches _ (List.mem_append_right _ List.mem_cons_self)
      refine (ih hcovers huses).imp (fun h => ⟨by rw [h.1], h.2⟩) fun h => ?_
      simp only [Activity.work, workAll_eq_sum, List.map_append, List.map_cons, List.sum_append,
        List.sum_cons]
      omega
  | joined => exact .inr (Nat.succ_pos _)
  | bar => exact .inr (Nat.succ_pos _)
  | @enter block before after body bound w w' he =>
    cases huses with
    | enter hmode =>
      have htimes := hcovers.enters hmode (yields_of_enterLoop he)
      have hmul := Nat.mul_le_mul_right (body.work env r + 2) htimes
      right
      simp only [Activity.work]
      omega
  | expire => exact .inr (Nat.succ_pos _)
  | stop => exact .inr (Nat.succ_pos _)
  | @begin block bound completed body w hb hw =>
    cases huses with
    | rounds _ hmode hbound =>
      have hleft := hcovers.begins hw hmode hbound hb
      have hmul := Nat.mul_le_mul_right (body.work env r + 2) (Nat.succ_le_of_lt hleft)
      rw [Nat.succ_mul] at hmul
      right
      simp only [Activity.work]
      omega
  | inside _ ih =>
    cases huses with
    | within _ _ _ _ hcurrent =>
      refine (ih hcovers hcurrent).imp (fun h => ⟨by rw [h.1], h.2⟩) fun h => ?_
      rw [Activity.work, Activity.work]
      omega
  | again =>
    right
    simp only [Activity.work]
    omega
  | leave => exact .inr (Nat.succ_pos _)

/-- What an activity does by several moves takes some work, or is nothing. -/
theorem Moves.work_lt {a a' : Activity} {w w' : World} (h : Moves env (a, w) (a', w'))
    (hcovers : ∀ halted, (w.halted = true → halted = true) → r.Covers Q halted)
    (huses : Uses P Q a) : (a' = a ∧ w' = w) ∨ a'.work env r < a.work env r := by
  suffices hall : ∀ y : Progress, Moves env (a, w) y → Uses P Q y.1 ∧ (w.halted = true →
      y.2.halted = true) ∧ ((y.1 = a ∧ y.2 = w) ∨ y.1.work env r < a.work env r) from
    (hall _ h).2.2
  intro y hy
  induction hy with
  | refl => exact ⟨huses, id, .inl ⟨rfl, rfl⟩⟩
  | tail _ hmove ih =>
    obtain ⟨huses, hhalted, hwork⟩ := ih
    refine ⟨hmove.uses huses, fun hw => hmove.leads.halted (hhalted hw), ?_⟩
    have hstep := hmove.work_lt (hcovers _ hhalted) huses
    rcases hstep with ⟨ha, hw⟩ | hstep
    · rwa [ha, hw]
    · rcases hwork with ⟨ha, -⟩ | hwork
      · exact .inr (ha ▸ hstep)
      · exact .inr (hstep.trans hwork)

end Activity

/-! ### Rounds -/

namespace Machine

variable {r : Ration}

/-- One round more, if nothing happens at the instant of the clock. -/
def spare (m : Machine) : ℕ :=
  if ∃ t ∈ m.activity.dues, t ≤ m.world.now then 0 else 1

/-- The rounds that a run still takes, at most. -/
def toGo (env : Environment) (r : Ration) (m : Machine) : ℕ :=
  2 * m.activity.work env r + m.spare

theorem spare_le (m : Machine) : m.spare ≤ 1 := by
  unfold spare
  split
  · exact Nat.zero_le 1
  · exact Nat.le_refl 1

/-- The world in which a round begins: nothing has happened since the round before, but that the
caller may have cancelled. -/
theorem cancelOnTime_begins {w : World}
    (hcaller : w.cancelled = true ∨ env.cancellation.time = none) :
    (w.nextRound.cancelOnTime env).now = w.now ∧
      (w.nextRound.cancelOnTime env).yielded = false ∧
      (w.halted = true → (w.nextRound.cancelOnTime env).halted = true) ∧
      ((w.nextRound.cancelOnTime env).cancelled = true ∨ env.cancellation.time = none) := by
  refine ⟨now_cancelIf _ _, ?_, (cancelIf_leads _ w.nextRound).halted, hcaller.imp_left fun h => ?_⟩
  · unfold World.cancelOnTime World.cancelIf
    split <;> rfl
  · rw [World.cancelOnTime, cancelled_cancelIf]
    exact Bool.or_eq_true_iff.mpr (.inl h)

/-- Where everything waits the clock moves to an instant at which something is due. -/
theorem spare_of_waits {a : Activity} {w : World} (h : a.Waits w.halted w.now)
    (hcaller : w.cancelled = true ∨ env.cancellation.time = none) :
    spare ⟨a, w⟩ = 1 ∧ spare ⟨a, { w with now := nextInstant env a w }⟩ = 0 := by
  obtain ⟨hdues, hlater⟩ := h.dues
  refine ⟨if_neg ?_, if_pos ⟨_, nextInstant_mem hcaller hdues, Nat.le_refl _⟩⟩
  rintro ⟨t, ht, hle⟩
  exact Nat.not_lt.mpr hle (hlater t ht)

/-- **A round brings a run nearer to its end**, unless it is the last. -/
theorem round_toGo {m : Machine} (hlive : m.activity.flow? = none)
    (hcovers : ∀ halted, (m.world.halted = true → halted = true) → r.Covers Q halted)
    (huses : m.activity.Uses P Q)
    (hcaller : m.world.cancelled = true ∨ env.cancellation.time = none) :
    (m.round env).activity.flow? ≠ none ∨ (m.round env).toGo env r < m.toGo env r := by
  obtain ⟨a, w⟩ := m
  obtain ⟨hnow, hfresh, hhalted, hcaller⟩ := cancelOnTime_begins hcaller
  generalize hv : w.nextRound.cancelOnTime env = v at hnow hfresh hhalted hcaller
  have hpoll : Activity.Moves env (a, v) (Activity.poll env a v) := Activity.poll_moves a v
  have hsettled : Activity.Settled v (Activity.poll env a v) := Activity.poll_settled a v
  rcases hp : Activity.poll env a v with ⟨a', w'⟩
  rw [hp] at hpoll hsettled
  cases hflow : a'.flow? with
  | some flow =>
    left
    rw [Activity.eq_ended_of_flow? hflow] at hp
    simp [round, hv, hp, Activity.flow?]
  | none =>
    right
    have hround : round env ⟨a, w⟩ = advance env v ⟨a', w'⟩ := by
      simp only [round, hv, hp]
      cases a' with
      | ended => cases hflow
      | _ => rfl
    have hwork := Activity.Moves.work_lt hpoll (fun halted h => hcovers halted (h ∘ hhalted)) huses
    rw [hround]
    rcases hwork with ⟨rfl, rfl⟩ | hwork
    · -- nothing happened, so everything waits, and the clock moves
      have hwaits : a'.Waits w'.halted w'.now := hsettled.2 ⟨hfresh, rfl⟩ hflow
      obtain ⟨hspare, hspare'⟩ := spare_of_waits hwaits hcaller
      have hsame : spare ⟨a', w⟩ = spare ⟨a', w'⟩ := by
        rw [spare, spare, hnow]
      have hadvance : advance env w' ⟨a', w'⟩
          = ⟨a', { w' with now := nextInstant env a' w' }⟩ := by
        refine if_neg ?_
        rw [hfresh]
        simp
      rw [hadvance, toGo, toGo, hsame, hspare, hspare']
      exact Nat.lt_succ_self _
    · have hactivity : (advance env v ⟨a', w'⟩).activity = a' := by
        unfold advance
        split <;> rfl
      have hle := spare_le (advance env v ⟨a', w'⟩)
      show 2 * (advance env v ⟨a', w'⟩).activity.work env r + _ < 2 * a.work env r + _
      rw [hactivity]
      omega

/-- **A run that comes nearer to its end with every round ends.** -/
theorem exists_run? (I : Machine → Prop) (size : Machine → ℕ)
    (hround : ∀ m : Machine, I m → m.activity.flow? = none →
      I (m.round env) ∧ ((m.round env).activity.flow? ≠ none ∨ size (m.round env) < size m)) :
    ∀ (n : ℕ) (m : Machine), size m < n → I m →
      ∃ fuel flow w, m.run? env fuel = some (flow, w) := by
  have hended : ∀ m : Machine, m.activity.flow? ≠ none →
      ∃ fuel flow w, m.run? env fuel = some (flow, w) := by
    intro m hm
    obtain ⟨a, w⟩ := m
    obtain ⟨flow, hflow⟩ := Option.ne_none_iff_exists'.mp hm
    obtain rfl : a = .ended flow := Activity.eq_ended_of_flow? hflow
    exact ⟨0, flow, w, rfl⟩
  have hagain : ∀ m : Machine, m.activity.flow? = none →
      (∃ fuel flow w, (m.round env).run? env fuel = some (flow, w)) →
      ∃ fuel flow w, m.run? env fuel = some (flow, w) := by
    rintro ⟨a, w⟩ hm ⟨fuel, flow, w', hrun⟩
    refine ⟨fuel + 1, flow, w', ?_⟩
    cases a with
    | ended => exact absurd hm nofun
    | _ => exact hrun
  intro n
  induction n with
  | zero => exact fun m hm => absurd hm (Nat.not_lt_zero _)
  | succ n ih =>
    intro m hm hI
    cases hflow : m.activity.flow? with
    | some flow => exact hended m (by rw [hflow]; exact nofun)
    | none =>
      obtain ⟨hI', hnear⟩ := hround m hI hflow
      refine hagain m hflow ?_
      rcases hnear with hover | hless
      · exact hended _ hover
      · exact ih _ (Nat.lt_of_lt_of_le hless (Nat.le_of_lt_succ hm)) hI'

end Machine

end Lightshow
