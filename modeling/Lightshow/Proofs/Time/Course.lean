import Lightshow.Proofs.Time.Pace

/-!
# Staying on course

In a run at a steady pace a move changes nothing about the outlook: each part ends when it was
expected to, and the steps that were to start either have started now or are still to start at the
same instants.  For this a part has to be *on course*, which says that its queues are served on time
and that none of what has ended has ended badly.

What a part does is told by how often it calls devices.  The calls that are made in a move are those
that it had to make, so the outlook of everything that comes later stays what it was.

## Main definitions

* `Activity.OnCourse` — what is true of an activity at any time of a steady run.
* `Outlook.Follows` — an outlook after some steps have started.

## Main results

* `Activity.Move.calls` — calls that are made are no more to be made.
* `Queue.Move.ends` — a queue ends when it was expected to.
* `Activity.Move.outlook` — **the outlook of an activity after a move.**
-/

namespace Lightshow

open Relation World

variable {env : Environment} {cost : Call → ℕ → Duration}

/-! ### Activities on course -/

/-- What is true of an activity at any time of a run at a steady pace. -/
structure Activity.OnCourse (now : Instant) (a : Activity) : Prop where
  ready : a.Ready
  arranged : a.Arranged
  steady : a.Uses TimeOption.Steady LoopMode.Counted
  completed : ∀ flow ∈ a.endings, flow = .completed
  distinct : (a.serving.filterMap Queue.serves?).Nodup
  punctual : ∀ q ∈ a.serving, ∀ t ∈ q.due, now ≤ t

namespace Activity.OnCourse

variable {now : Instant}

theorem first {a rest : Activity} (h : OnCourse now (.seq a rest)) : OnCourse now a where
  ready := by
    cases h.ready with
    | seq hfirst _ => exact hfirst
  arranged := by
    cases h.arranged with
    | seq hfirst _ _ => exact hfirst
  steady := by
    cases h.steady with
    | seq hfirst _ => exact hfirst
  completed flow hflow := h.completed flow (List.mem_append_left _ hflow)
  distinct := h.distinct
  punctual := h.punctual

theorem branch {before after : List Activity} {a : Activity}
    (h : OnCourse now (.join (before ++ a :: after))) : OnCourse now a := by
  have hmem : a ∈ before ++ a :: after := List.mem_append_right _ List.mem_cons_self
  have hserving : (Activity.join (before ++ a :: after)).serving
      = before.flatMap serving ++ (a.serving ++ after.flatMap serving) := by
    rw [serving, servingAll_eq_flatMap, List.flatMap_append, List.flatMap_cons]
  have hsublist : a.serving.Sublist (Activity.join (before ++ a :: after)).serving := by
    rw [hserving]
    exact (List.sublist_append_left _ _).trans (List.sublist_append_right _ _)
  refine ⟨?_, ?_, ?_, fun flow hflow => h.completed flow ?_,
    h.distinct.sublist (hsublist.filterMap _), fun q hq => h.punctual q (hsublist.subset hq)⟩
  · cases h.ready with
    | join hready => exact hready a hmem
  · cases h.arranged with
    | join harranged _ => exact harranged a hmem
  · cases h.steady with
    | join hsteady => exact hsteady a hmem
  · rw [endings, endingsAll_eq_flatMap]
    exact List.mem_flatMap.mpr ⟨a, hmem, hflow⟩

theorem current {block : Block} {bound : Bound} {completed : ℕ} {body a : Activity}
    (h : OnCourse now (.within block bound completed body a)) : OnCourse now a where
  ready := by
    cases h.ready with
    | within _ _ _ _ hcurrent => exact hcurrent
  arranged := by
    cases h.arranged with
    | within _ _ _ hcurrent _ _ => exact hcurrent
  steady := by
    cases h.steady with
    | within _ _ _ _ hcurrent => exact hcurrent
  completed flow hflow := h.completed flow (List.mem_append_right _ hflow)
  distinct := h.distinct
  punctual := h.punctual

end Activity.OnCourse

/-! ### Counted loops -/

/-- A counted loop that is over makes no more iterations. -/
theorem LoopMode.Counted.left_of_over {mode : LoopMode} {bound : Bound} {completed : ℕ}
    {now : Instant} (h : mode.Counted) (hbound : mode.Yields bound)
    (hover : bound.continues completed now = false) : bound.left completed = 0 := by
  rw [h.yields hbound] at hover ⊢
  exact Nat.sub_eq_zero_of_le (Nat.le_of_not_lt (of_decide_eq_false hover))

/-- A counted loop that goes on makes one iteration, and those that follow. -/
theorem LoopMode.Counted.left_of_continues {mode : LoopMode} {bound : Bound} {completed : ℕ}
    {now : Instant} (h : mode.Counted) (hbound : mode.Yields bound)
    (hgoes : bound.continues completed now = true) :
    bound.left completed = bound.left (completed + 1) + 1 := by
  rw [h.yields hbound] at hgoes ⊢
  have hlt : completed < mode.number.toNat := of_decide_eq_true hgoes
  show mode.number.toNat - completed = mode.number.toNat - (completed + 1) + 1
  omega

/-! ### Calls -/

/-- Where no calls are seen to be made, none are tallied. -/
theorem Journal.tally_of_see {w w' : World}
    (h : ∀ p, w'.see (Entry.callAt? p) = w.see (Entry.callAt? p)) :
    w'.journal.tally = w.journal.tally := by
  funext p d
  exact congrArg (List.count d) (h p)

/-- Calls that a queue makes are no more owed, and no other calls. -/
theorem Queue.Move.tally {q q' : Queue} {w w' : World} (h : Queue.Move env q w q' w')
    (hgoing : w'.halted = false) (p : Path) (d : Device) :
    w'.journal.tally p d + (q'.owed p).count d = w.journal.tally p d + (q.owed p).count d := by
  obtain ⟨new, hsee, -, -, hpays⟩ := h.pays
  have hview : ∀ v : World, v.journal.tally p d
      = ((v.see Entry.work?).filterMap (Entry.callAt? p)).count d := fun v => by
    rw [see, filterMap_callAt]
    rfl
  rw [hview, hview, hsee, ← (hpays p).2 hgoing, List.filterMap_append, List.count_append,
    List.count_append, Nat.add_assoc]

namespace Activity

/-- **Calls that are made in a move are no more to be made**, and no other calls. -/
theorem Move.calls {a a' : Activity} {w w' : World} (h : Move env a w a' w')
    (hcourse : a.OnCourse w.now) (hgoing : w'.halted = false) (p : Path) (d : Device) :
    w'.journal.tally p d + a'.calls env p d = w.journal.tally p d + a.calls env p d := by
  have hsilent : ∀ {v v' : World}, v'.see (Entry.callAt? p) = v.see (Entry.callAt? p) →
      v'.journal.tally p d = v.journal.tally p d := fun hsee => congrArg (List.count d) hsee
  induction h with
  | @pause path o w =>
    have hsee : (beginPause env path (some o) w).2.see (Entry.callAt? p)
        = w.see (Entry.callAt? p) :=
      see_beginPause_none rfl (fun _ => rfl) (fun _ _ => rfl) _ _
    have hcalls : (beginPause env path (some o) w).1.calls env p d = 0 :=
      beginPause_activity (P := fun a => a.calls env p d = 0) _ _ _ _ (fun _ => rfl) (fun _ => rfl)
        fun _ _ => rfl
    rw [hsilent hsee, hcalls]
    rfl
  | @wake instant w =>
    have hcalls : (pollSleep instant w).calls env p d = 0 :=
      pollSleep_activity (P := fun a => a.calls env p d = 0) _ _ (fun _ => rfl) (fun _ => rfl)
        fun _ _ => rfl
    rw [hcalls]
    rfl
  | withhold hw => exact absurd hw (not_halted_of_going hgoing)
  | @dispatch path t w hw =>
    have hsee : (announce env path t w).2.see (Entry.callAt? p) = w.see (Entry.callAt? p) :=
      see_announce_none rfl (fun _ => rfl) (fun _ => rfl) (fun _ _ => rfl) (fun _ _ => rfl) _ _
    have howed := (newQueues_owed env (announce env path t w).2.now p path t).count_eq d
    rw [hsilent hsee, announce_devices]
    show _ + ((newQueues _ path t (announced env t)).flatMap (Queue.owed p)).count d
      = _ + if path = p then (t.named env.resolve).count d else 0
    rw [howed]
    split <;> rfl
  | serve before after hq =>
    have hqueue := hq.tally hgoing p d
    simp only [Activity.calls, List.flatMap_append, List.flatMap_cons, List.count_append]
    omega
  | @served flows w =>
    have howed : (flows.map Queue.ended).flatMap (Queue.owed p) = [] :=
      List.flatMap_eq_nil_iff.mpr fun q hq => by
        obtain ⟨flow, -, rfl⟩ := List.mem_map.mp hq
        rfl
    show _ = _ + ((flows.map Queue.ended).flatMap (Queue.owed p)).count d
    rw [howed]
    rfl
  | first _ ih =>
    have ih := ih hcourse.first hgoing
    simp only [Activity.calls]
    omega
  | second =>
    simp only [Activity.calls]
    omega
  | skip hf => exact absurd (hcourse.completed _ List.mem_cons_self) hf
  | branch before after _ ih =>
    have ih := ih hcourse.branch hgoing
    simp only [Activity.calls, callsAll_eq_sum, List.map_append, List.map_cons, List.sum_append,
      List.sum_cons]
    omega
  | @joined flows w =>
    have hnone : ((flows.map Activity.ended).map fun a => a.calls env p d).sum = 0 := by
      rw [List.map_map]
      show (flows.map (Function.const Flow 0)).sum = 0
      rw [List.map_const, List.sum_replicate_nat, Nat.mul_zero]
    simp only [Activity.calls, callsAll_eq_sum, hnone]
  | bar => exact absurd (Bool.or_true _) (not_halted_of_going hgoing)
  | @enter block before after body bound w w' he =>
    have hsee : (w'.note (.entered block.path bound)).see (Entry.callAt? p)
        = w.see (Entry.callAt? p) := by
      rw [see_note_none _ rfl, see_enterLoop (fun _ => rfl) he]
    rw [hsilent hsee]
    cases hcourse.steady with
    | enter hmode =>
      have hbound := LoopMode.Counted.yields hmode (yields_of_enterLoop he)
      simp only [Activity.calls, hbound, Bound.left, Nat.sub_zero, Nat.zero_add, Nat.add_zero]
  | expire hb =>
    rw [hsilent (see_note_none _ rfl)]
    cases hcourse.steady with
    | rounds _ hmode hbound =>
      simp only [Activity.calls, hmode.left_of_over hbound hb, Nat.zero_mul]
  | stop _ hw => exact absurd hw (not_halted_of_going hgoing)
  | @begin block bound completed body w hb hw =>
    rw [hsilent (see_emit_none _ _ rfl rfl)]
    cases hcourse.steady with
    | rounds _ hmode hbound =>
      simp only [Activity.calls, hmode.left_of_continues hbound hb, Nat.succ_mul]
  | inside _ ih =>
    have ih := ih hcourse.current hgoing
    simp only [Activity.calls]
    omega
  | again => rfl
  | leave hf => exact absurd (hcourse.current.completed _ List.mem_cons_self) hf
  | _ => rfl

/-- Nothing is called for other transitions. -/
theorem Move.tally_eq {a a' : Activity} {w w' : World} (h : Move env a w a' w')
    (hcourse : a.OnCourse w.now) (hgoing : w'.halted = false) :
    ∀ p, p ∉ a.places → w'.journal.tally p = w.journal.tally p := by
  intro p hp
  funext d
  have hcalls := h.calls hcourse hgoing p d
  rw [calls_eq_zero d a hp, calls_eq_zero d a' fun hp' => hp (h.places hp')] at hcalls
  exact hcalls

end Activity

/-! ### Queues -/

namespace Queue

variable {q q' : Queue} {w w' : World}

/-- A call that does not end the run does not end its queue. -/
theorem settle_going {c : Call} {result : Except DeviceError Unit}
    (h : (settle env c result w).2.halted = false) : (settle env c result w).1 = none := by
  rcases settle_cases env c result w with ⟨-, heq⟩ | ⟨e, -, -, heq⟩ | ⟨cause, -, -, heq⟩
  · rw [heq]
  · rw [heq]
  · rw [heq] at h
    exact absurd (Bool.or_true _) (not_halted_of_going h)

/-- A queue owes no calls of other devices. -/
theorem count_owed {path : Path} {d : Device} (h : q.serves? ≠ some (path, d)) :
    (q.owed path).count d = 0 := by
  have hcall : ∀ (c : Call) (left : ℕ), some (c.path, c.device) ≠ some (path, d) →
      (if c.path = path then List.replicate left c.device else []).count d = 0 := by
    intro c left hne
    refine List.count_eq_zero.mpr fun hd => ?_
    split at hd
    · next hpath => exact hne (by rw [hpath, List.eq_of_mem_replicate hd])
    · exact absurd hd List.not_mem_nil
  cases q with
  | ended => rfl
  | ready c left => exact hcall c left h
  | calling c left => exact hcall c left h
  | awaiting c left => exact hcall c left h

/-- A queue that moves calls no other devices. -/
theorem Move.tally_eq (h : Move env q w q' w') (hgoing : w'.halted = false) {path : Path}
    {d : Device} (hne : q.serves? ≠ some (path, d)) :
    w'.journal.tally path d = w.journal.tally path d := by
  have htally := h.tally hgoing path d
  have hne' : q'.serves? ≠ some (path, d) := fun hserves => by
    have hsub := h.serves?_sublist
    rw [hserves] at hsub
    exact hne (Option.mem_toList.mp (hsub.subset List.mem_cons_self))
  rwa [count_owed hne, count_owed hne'] at htally

/-- **A queue ends when it was expected to**, if its calls take as long as they cost, and if all
windows close within the range of the clock that are opened up to then. -/
theorem Move.ends (h : Move env q w q' w') (hpaced : env.Paced cost)
    (hgoing : w'.halted = false) (hnow : Duration.perMilli ∣ w.now)
    (hpunctual : ∀ t ∈ q.due, w.now ≤ t) {last : Instant}
    (hlast : q.ends env cost w.journal.tally w.now ≤ last)
    (hwindows : ∀ c ∈ w'.see Entry.call?, c.wait = true → env.WindowInRange last c.state) :
    q'.ends env cost w'.journal.tally w.now = q.ends env cost w.journal.tally w.now := by
  have htally := h.tally hgoing
  cases h with
  | finish => rfl
  | halt hw => exact absurd hw (not_halted_of_going hgoing)
  | @call call c left w hw hc =>
    subst hc
    have hmore : (w.call env { call with time := w.now }).journal.tally call.path call.device
        = w.journal.tally call.path call.device + 1 := by
      have hcount := htally call.path call.device
      simp only [owed, if_true, List.count_replicate_self] at hcount
      omega
    have hreturns : w.now + (env.gateway w.journal { call with time := w.now }).latency ≤ last := by
      refine Nat.le_trans (Nat.add_le_add_left ?_ w.now) hlast
      rw [Call.spans, ← hpaced.span w.journal { call with time := w.now }, Reply.span,
        Nat.add_assoc]
      exact Nat.le_add_right _ _
    have hmem : { call with time := w.now }
        ∈ (w.call env { call with time := w.now }).see Entry.call? := by
      rw [World.see_call env w rfl]
      exact List.mem_append_right _ List.mem_cons_self
    have hfinishes : Dispatch.finishes env { call with time := w.now } _ _ = _ :=
      hpaced.finishes (hpaced.whole w.journal { call with time := w.now }) hnow fun hwait =>
        (hwindows _ hmem hwait).mono hreturns
    rw [ends, ends, hfinishes, hpaced.span, hmore, Call.spans, Nat.add_assoc]
  | @await call left outcome returns window w hr ha =>
    obtain rfl : returns = w.now := Nat.le_antisymm hr (hpunctual returns rfl)
    have hsame := Nat.add_right_cancel (htally call.path call.device)
    rw [ends, ends, hsame, finishes_of_window ha]
  | @answer call left outcome returns result w hr ha =>
    obtain rfl : returns = w.now := Nat.le_antisymm hr (hpunctual returns rfl)
    rw [settle_going hgoing] at htally ⊢
    have hsame := Nat.add_right_cancel (htally call.path call.device)
    rw [next, ends, ends, hsame, finishes_of_answer ha]
  | @acknowledge call left window result w ha =>
    have hdue : window.due = w.now :=
      Nat.le_antisymm (Window.due_le_of_result ha) (hpunctual _ rfl)
    rw [settle_going hgoing] at htally ⊢
    have hsame := Nat.add_right_cancel (htally call.path call.device)
    rw [next, ends, ends, hsame, hdue]

end Queue

/-! ### Steps that start -/

/-- The loop that an entry enters, or the transition that it dispatches. -/
def Entry.start? : Entry → Option Entry
  | .entered path bound => some (.entered path bound)
  | .dispatched path t => some (.dispatched path t)
  | _ => none

/-- After some steps have started at an instant, an outlook is the same but for them. -/
structure Outlook.Follows (now : Instant) (started : List Entry) (before after : Outlook) :
    Prop where
  ends : after.ends = before.ends
  starts : (started.map (Record.mk now) ++ after.starts).Perm before.starts

namespace Outlook

variable {now : Instant} {started : List Entry} {before after : Outlook}

theorem Follows.of_eq (h : after = before) : Follows now [] before after := by
  subst h
  exact ⟨rfl, List.Perm.refl _⟩

/-- What comes later stays what it was. -/
theorem Follows.andThen (h : Follows now started before after) (rest : Instant → Outlook) :
    Follows now started (before.andThen rest) (after.andThen rest) := by
  have hrest : rest after.ends = rest before.ends := by rw [h.ends]
  rw [Outlook.andThen, Outlook.andThen, hrest]
  refine ⟨rfl, ?_⟩
  rw [← List.append_assoc]
  exact h.starts.append_right _

/-- What is done side by side stays what it was. -/
theorem Follows.together (h : Follows now started before after) (left right : List Outlook) :
    Follows now started (together now (left ++ before :: right))
      (together now (left ++ after :: right)) := by
  refine ⟨?_, ?_⟩
  · simp only [Outlook.together, List.map_append, List.map_cons, h.ends]
  · simp only [Outlook.together, List.flatMap_append, List.flatMap_cons]
    refine (List.perm_append_comm_assoc _ _ _).trans (List.Perm.append_left _ ?_)
    rw [← List.append_assoc]
    exact h.starts.append_right _

end Outlook

/-- A move of an activity starts some steps, and leaves its outlook what it was but for them. -/
def Activity.Proceeds (env : Environment) (cost : Call → ℕ → Duration) (a a' : Activity)
    (w w' : World) : Prop :=
  ∃ started, w'.see Entry.start? = w.see Entry.start? ++ started ∧
    Outlook.Follows w.now started (a.outlook env cost w.journal.tally w.now)
      (a'.outlook env cost w'.journal.tally w.now)

namespace Activity

/-- Nothing starts. -/
theorem Proceeds.silent {a a' : Activity} {w w' : World}
    (hsee : w'.see Entry.start? = w.see Entry.start?)
    (hlook : a'.outlook env cost w'.journal.tally w.now
      = a.outlook env cost w.journal.tally w.now) : Proceeds env cost a a' w w' :=
  ⟨[], hsee.trans (List.append_nil _).symm, .of_eq hlook⟩

/-- A span that passes is over when its alarm rings. -/
theorem pollSleep_outlook (wake : Instant) {w : World} (hgoing : w.halted = false) (tally : Tally) :
    (pollSleep wake w).outlook env cost tally w.now = ⟨max wake w.now, []⟩ := by
  unfold pollSleep
  rw [if_neg (not_halted_of_going hgoing)]
  split
  · next hover => exact Outlook.ext (Nat.max_eq_right hover).symm rfl
  · rfl

/-- A pause without a random part is over after exactly its length, if there are ticks until
then. -/
theorem beginPause_outlook {o : TimeOption} (ho : o.Steady) (hcalm : env.cancellation = {})
    (path : Path) {w : World} (hgoing : w.halted = false) (hnow : Duration.perMilli ∣ w.now)
    (hrange : w.now + o.duration 0 ≤ lastTick) (tally : Tally) :
    (beginPause env path (some o) w).1.outlook env cost tally w.now = ⟨w.now + o.duration 0, []⟩ := by
  have hdraw : w.drawDuration env o = (o.duration 0, w) := by rw [drawDuration, ho.1]
  have hends : spanEnds w.now (o.duration 0) = w.now + o.duration 0 := by
    rw [spanEnds_of_range hnow hrange, wholeMillis_of_dvd ho.2]
  simp only [beginPause, hdraw, emit_calm hcalm, beginSleep, now_note, hends]
  refine (pollSleep_outlook (w.now + o.duration 0) ?_ tally).trans
    (Outlook.ext (Nat.max_eq_left (Nat.le_add_right _ _)) rfl)
  rw [halted_note, hgoing]

/-- The devices of a transition that is dispatched are served side by side. -/
theorem newQueues_outlook (path : Path) (t : Transition) (tally : Tally) (now now' : Instant) :
    (applying (newQueues now' path t (announced env t))).outlook env cost tally now
      = ⟨now + t.span env cost path tally, []⟩ := by
  refine Outlook.ext ?_ rfl
  show ((newQueues now' path t _).map (Queue.ends env cost tally now)).foldr max now = _
  rw [newQueues, List.map_map, Transition.span, ← foldr_max_add, List.map_map]
  rfl

/-- Queues that are served for one transition serve different devices. -/
theorem OnCourse.distinct_queues {now : Instant} {before after : List Queue} {q : Queue}
    (h : OnCourse now (.applying (before ++ q :: after))) {r : Queue}
    (hr : r ∈ before ∨ r ∈ after) {k : Path × Device} (hserves : r.serves? = some k) :
    q.serves? ≠ some k := by
  have hserving : ∀ queues : List Queue, (queues.flatMap Queue.live).filterMap Queue.serves?
      = queues.filterMap Queue.serves? := by
    intro queues
    rw [List.filterMap_flatMap, List.filterMap_eq_flatMap_toList]
    exact List.flatMap_congr fun q _ => q.filterMap_live
  have hdistinct := h.distinct
  rw [Activity.serving, hserving, List.filterMap_append, List.nodup_append] at hdistinct
  intro hq
  rw [List.filterMap_cons_some hq] at hdistinct
  obtain ⟨-, hright, hleft⟩ := hdistinct
  rcases hr with hr | hr
  · exact hleft k (List.mem_filterMap.mpr ⟨r, hr, hserves⟩) k List.mem_cons_self rfl
  · exact (List.nodup_cons.mp hright).1 (List.mem_filterMap.mpr ⟨r, hr, hserves⟩)

/-- Serving one of several devices leaves the outlook what it was. -/
theorem serve_outlook {q q' : Queue} {w w' : World} {before after : List Queue}
    (hq : Queue.Move env q w q' w') (hpaced : env.Paced cost)
    (hcourse : OnCourse w.now (.applying (before ++ q :: after))) (hgoing : w'.halted = false)
    (hnow : Duration.perMilli ∣ w.now) {last : Instant}
    (hlast : ((applying (before ++ q :: after)).outlook env cost w.journal.tally w.now).ends ≤ last)
    (hwindows : ∀ c ∈ w'.see Entry.call?, c.wait = true → env.WindowInRange last c.state) :
    (applying (before ++ q' :: after)).outlook env cost w'.journal.tally w.now
      = (applying (before ++ q :: after)).outlook env cost w.journal.tally w.now := by
  have hlive : q.live = [q] := by cases hq <;> rfl
  have hmem : q ∈ (applying (before ++ q :: after)).serving := by
    refine List.mem_flatMap.mpr ⟨q, List.mem_append_right _ List.mem_cons_self, ?_⟩
    rw [hlive]
    exact List.mem_singleton_self q
  have hqueue : q.ends env cost w.journal.tally w.now ≤ last :=
    (foldr_max_le_iff.mp hlast).2 _
      (List.mem_map_of_mem (List.mem_append_right _ List.mem_cons_self))
  have hends := hq.ends hpaced hgoing hnow (hcourse.punctual q hmem) hqueue hwindows
  -- no other queue serves this device
  have hothers : ∀ queues : List Queue, (∀ r ∈ queues, r ∈ before ∨ r ∈ after) →
      queues.map (Queue.ends env cost w'.journal.tally w.now)
        = queues.map (Queue.ends env cost w.journal.tally w.now) := by
    refine fun queues hsub => List.map_congr_left fun r hr => Queue.ends_congr ?_ w.now
    exact fun path d hserves => hq.tally_eq hgoing (hcourse.distinct_queues (hsub r hr) hserves)
  simp only [Activity.outlook, List.map_append, List.map_cons, hends,
    hothers before fun r hr => .inl hr, hothers after fun r hr => .inr hr]

/-- A branch goes on, and leaves the outlook of the others what it was. -/
theorem Proceeds.branch {a a' : Activity} {w w' : World} {before after : List Activity}
    (h : Proceeds env cost a a' w w')
    (hbefore : ∀ b ∈ before,
      b.outlook env cost w'.journal.tally = b.outlook env cost w.journal.tally)
    (hafter : ∀ b ∈ after,
      b.outlook env cost w'.journal.tally = b.outlook env cost w.journal.tally) :
    Proceeds env cost (.join (before ++ a :: after)) (.join (before ++ a' :: after)) w w' := by
  obtain ⟨started, hsee, hfollows⟩ := h
  have hleft := List.map_congr_left fun b hb => congrFun (hbefore b hb) w.now
  have hright := List.map_congr_left fun b hb => congrFun (hafter b hb) w.now
  refine ⟨started, hsee, ?_⟩
  simp only [Activity.outlook, outlookAll_eq_map, List.map_append, List.map_cons, hleft, hright]
  exact hfollows.together _ _

/-- Where all devices of a transition have been served nothing is to be expected of it. -/
theorem served_outlook (flows : List Flow) (tally : Tally) (now : Instant) :
    (applying (flows.map .ended)).outlook env cost tally now = ⟨now, []⟩ := by
  rw [applying_outlook]
  refine Outlook.together_ended fun o ho => ?_
  rw [List.map_map] at ho
  obtain ⟨flow, -, rfl⟩ := List.mem_map.mp ho
  rfl

theorem joined_outlook (flows : List Flow) (tally : Tally) (now : Instant) :
    (join (flows.map .ended)).outlook env cost tally now = ⟨now, []⟩ := by
  refine Outlook.together_ended fun o ho => ?_
  rw [outlookAll_eq_map, List.map_map] at ho
  obtain ⟨flow, -, rfl⟩ := List.mem_map.mp ho
  rfl

/-- An iteration that begins is the first of those that a loop still makes. -/
theorem begin_outlook (block : Block) {bound : Bound} {completed : ℕ} (body : Activity)
    (h : bound.left completed = bound.left (completed + 1) + 1) (tally : Tally) (now : Instant) :
    (within block bound completed body body).outlook env cost tally now
      = (rounds block bound completed body).outlook env cost tally now := by
  have hlaps : (fun i => body.outlook env cost (tally.after (body.calls env) (i + 1)))
      = fun i => body.outlook env cost
        ((tally.after (body.calls env) 1).after (body.calls env) i) :=
    funext fun i => by rw [Tally.after_succ]
  rw [Activity.outlook, Activity.outlook, h, Outlook.repeated, Tally.after_zero, hlaps]

/-- **A move leaves the outlook of an activity what it was**, but for the steps that start, if all
that is to be expected comes until the last tick. -/
theorem Move.outlook {a a' : Activity} {w w' : World} (h : Move env a w a' w')
    (hpaced : env.Paced cost) (hcourse : a.OnCourse w.now) (hgoing : w'.halted = false)
    (hnow : Duration.perMilli ∣ w.now) {last : Instant} (hrange : last ≤ lastTick)
    (hlast : (a.outlook env cost w.journal.tally w.now).ends ≤ last)
    (hwindows : ∀ c ∈ w'.see Entry.call?, c.wait = true → env.WindowInRange last c.state) :
    Proceeds env cost a a' w w' := by
  induction h with
  | rest => exact .silent rfl rfl
  | @pause path o w =>
    have hw : w.halted = false := (beginPause_ops path o w).going hgoing
    cases hcourse.steady with
    | pause _ ho =>
      exact .silent (see_beginPause_none rfl (fun _ => rfl) (fun _ _ => rfl) _ _)
        (beginPause_outlook (ho o rfl) hpaced.calm path hw hnow (Nat.le_trans hlast hrange) _)
  | @wake instant w =>
    exact .silent rfl (pollSleep_outlook instant hgoing _)
  | withhold hw => exact absurd hw (not_halted_of_going hgoing)
  | @dispatch path t w hw =>
    have htally : (announce env path t w).2.journal.tally = w.journal.tally :=
      Journal.tally_of_see fun p => see_announce_none rfl (fun _ => rfl) (fun _ => rfl)
        (fun _ _ => rfl) (fun _ _ => rfl) t w
    refine ⟨[.dispatched path t], see_announce_blind rfl (fun _ => rfl) (fun _ => rfl) t w, ?_⟩
    rw [announce_devices, htally, newQueues_outlook]
    exact ⟨rfl, List.Perm.refl _⟩
  | @serve q q' w w' before after hq =>
    exact .silent (hq.see_none rfl (fun _ => rfl) (fun _ => rfl) (fun _ _ => rfl) (fun _ _ => rfl)
      (fun _ => rfl) fun _ => rfl)
      (serve_outlook hq hpaced hcourse hgoing hnow hlast hwindows)
  | @served flows w =>
    exact .silent rfl (served_outlook flows _ _).symm
  | @first a a' rest w w' ha ih =>
    obtain ⟨started, hsee, hfollows⟩ := ih hcourse.first hgoing hnow
      (Nat.le_trans (le_outlook rest _ _) hlast) hwindows
    have hrest : rest.outlook env cost w'.journal.tally
        = rest.outlook env cost w.journal.tally := by
      refine outlook_congr rest fun p hp => ha.tally_eq hcourse.first hgoing p fun hp' => ?_
      cases hcourse.arranged with
      | seq _ _ hdisjoint => exact hdisjoint hp' hp
    refine ⟨started, hsee, ?_⟩
    rw [Activity.outlook, Activity.outlook, hrest]
    exact hfollows.andThen _
  | second => exact .silent rfl rfl
  | skip hf => exact absurd (hcourse.completed _ List.mem_cons_self) hf
  | @branch a a' w w' before after ha ih =>
    have hother : ∀ b : Activity, b.places.Disjoint a.places →
        b.outlook env cost w'.journal.tally = b.outlook env cost w.journal.tally :=
      fun b hdisjoint => outlook_congr b fun p hp =>
        ha.tally_eq hcourse.branch hgoing p fun hp' => hdisjoint hp hp'
    cases hcourse.arranged with
    | join _ hdisjoint =>
      rw [List.pairwise_append, List.pairwise_cons] at hdisjoint
      obtain ⟨-, ⟨hright, -⟩, hleft⟩ := hdisjoint
      have hbranch : (a.outlook env cost w.journal.tally w.now).ends ≤ last := by
        refine (foldr_max_le_iff.mp hlast).2 _ (List.mem_map_of_mem ?_)
        rw [outlookAll_eq_map]
        exact List.mem_map_of_mem (List.mem_append_right _ List.mem_cons_self)
      exact (ih hcourse.branch hgoing hnow hbranch hwindows).branch
        (fun b hb => hother b (hleft b hb a List.mem_cons_self))
        fun b hb => hother b (hright b hb).symm
  | @joined flows w =>
    exact .silent rfl (joined_outlook flows _ _).symm
  | bar => exact absurd (Bool.or_true _) (not_halted_of_going hgoing)
  | @enter block before after body bound w w' he =>
    have htally : (w'.note (.entered block.path bound)).journal.tally = w.journal.tally :=
      Journal.tally_of_see fun p => by rw [see_note_none _ rfl, see_enterLoop (fun _ => rfl) he]
    have hsee : (w'.note (.entered block.path bound)).see Entry.start?
        = w.see Entry.start? ++ [.entered block.path bound] := by
      rw [see_note, see_enterLoop (fun _ => rfl) he]
      rfl
    cases hcourse.steady with
    | enter hmode =>
      obtain rfl := LoopMode.Counted.yields hmode (yields_of_enterLoop he)
      refine ⟨_, hsee, ?_⟩
      rw [htally]
      exact ⟨rfl, List.Perm.refl _⟩
  | @expire block bound completed body w hb =>
    cases hcourse.steady with
    | rounds _ hmode hbound =>
      refine .silent (see_note_none _ rfl) ?_
      rw [Activity.outlook, Activity.outlook, hmode.left_of_over hbound hb]
      rfl
  | stop _ hw => exact absurd hw (not_halted_of_going hgoing)
  | @begin block bound completed body w hb hw =>
    cases hcourse.steady with
    | rounds _ hmode hbound =>
      refine .silent (see_emit_none _ _ rfl rfl) ?_
      rw [Journal.tally_of_see fun p => see_emit_none _ _ rfl rfl]
      exact begin_outlook block body (hmode.left_of_continues hbound hb) _ _
  | @inside block bound completed body a a' w w' ha ih =>
    obtain ⟨started, hsee, hfollows⟩ := ih hcourse.current hgoing hnow
      (Nat.le_trans (Outlook.le_repeated _ (fun _ t => le_outlook body _ t) _) hlast) hwindows
    have hlater := Tally.after_congr (ha.calls hcourse.current hgoing)
    refine ⟨started, hsee, ?_⟩
    rw [Activity.outlook, Activity.outlook, hlater]
    exact hfollows.andThen _
  | again => exact .silent rfl rfl
  | leave hf => exact absurd (hcourse.current.completed _ List.mem_cons_self) hf

end Activity

end Lightshow
