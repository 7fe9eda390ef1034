import Lightshow.Proofs.Run.Owing
import Lightshow.Proofs.Time.Clock

/-!
# Devices are called at once

When a transition is dispatched its queues are polled one after the other, in one go, and each of
them calls the gateway before anything else.  So all devices that it names are called for the
first time at the instant at which it is dispatched, unless something makes the run halt there.

Moves do not tell this, since they may come in any order.  So here the polls themselves are looked
at: what is true of all moves but those that dispatch, and of the dispatching with all that follows
from it at once, is true of a poll.

## Main definitions

* `Activity.Keeps` — relations between worlds that can be followed through a poll.
* `Journal.Calls` — a device is called at once.
* `Journal.Prompt` — whenever a transition was dispatched, its devices were called at once.

## Main results

* `Activity.Keeps.poll` — what is true of the parts of a poll is true of the poll.
* `Activity.beginDispatch_prompt` — a transition that is dispatched.
* `Program.prompt_after` — devices are called at once in a run.
* `Program.transitions_serve` — **how transitions serve their devices.**
-/

namespace Lightshow

open Relation World

variable {env : Environment}

/-! ### Polls -/

/-- A queue dispatches no transition. -/
theorem Queue.Move.see_dispatched {q q' : Queue} {w w' : World} (h : Queue.Move env q w q' w') :
    w'.see Entry.dispatched? = w.see Entry.dispatched? :=
  h.see_none rfl (fun _ => rfl) (fun _ => rfl) (fun _ _ => rfl) (fun _ _ => rfl) (fun _ => rfl)
    fun _ => rfl

namespace Queue

variable {R : World → World → Prop}

/-- What is true of the moves of queues is true of polls of queues. -/
theorem pollAll_keeps (hrefl : ∀ w, R w w) (htrans : ∀ {u v w}, R u v → R v w → R u w)
    (hmove : ∀ {q q' w w'}, Move env q w q' w' → R w w') (queues : List Queue) :
    ∀ w, R w (pollAll env queues w).2 := by
  have hmoves : ∀ {x y : Queue × World}, Moves env x y → R x.2 y.2 := by
    intro x y h
    induction h with
    | refl => exact hrefl _
    | tail _ hq ih => exact htrans ih (hmove hq)
  induction queues with
  | nil => exact hrefl
  | cons q queues ih => exact fun w => htrans (hmoves (poll_moves q w)) (ih _)

theorem pollAll_ops (env : Environment) (queues : List Queue) (w : World) :
    Ops w (pollAll env queues w).2 :=
  pollAll_keeps (fun _ => .refl) (fun h => h.trans) Move.ops queues w

theorem pollAll_grows (env : Environment) (queues : List Queue) (w : World) :
    w.Grows (pollAll env queues w).2 :=
  pollAll_keeps Grows.refl Grows.trans Move.grows queues w

theorem pollAll_dispatched (queues : List Queue) (w : World) :
    (pollAll env queues w).2.see Entry.dispatched? = w.see Entry.dispatched? :=
  pollAll_keeps (R := fun w w' => w'.see Entry.dispatched? = w.see Entry.dispatched?)
    (fun _ => rfl) (fun h h' => h'.trans h) Move.see_dispatched queues w

end Queue

namespace Activity

/-- A relation between worlds that moves obey which dispatch nothing, and the dispatching of a
transition with all that follows from it at once. -/
structure Keeps (env : Environment) (R : World → World → Prop) : Prop where
  refl : ∀ w, R w w
  trans : ∀ {u v w}, R u v → R v w → R u w
  move : ∀ {a a' w w'}, Move env a w a' w' →
    w'.see Entry.dispatched? = w.see Entry.dispatched? → R w w'
  dispatch : ∀ path t {w}, w.halted = false → R w (beginDispatch env path t w).2

variable {R : World → World → Prop}

theorem Keeps.queues (h : Keeps env R) (queues : List Queue) (w : World) :
    R w (Queue.pollAll env queues w).2 :=
  Queue.pollAll_keeps h.refl h.trans (fun hq => h.move (.serve [] [] hq) hq.see_dispatched) queues w

theorem Keeps.pause (h : Keeps env R) (path : Path) (o : Option TimeOption) (w : World) :
    R w (beginPause env path o w).2 := by
  cases o with
  | none => exact h.refl w
  | some o =>
    exact h.move .pause (see_beginPause_none rfl (fun _ => rfl) (fun _ _ => rfl) o w)

theorem Keeps.andThen (h : Keeps env R) {w : World} {first : Progress} (rest : Activity)
    {pollRest : World → Progress} (hfirst : R w first.2) (hrest : ∀ w, R w (pollRest w).2) :
    R w (andThen first rest pollRest).2 := by
  obtain ⟨a, w'⟩ := first
  cases a with
  | ended flow =>
    cases flow with
    | completed => exact h.trans hfirst (hrest w')
    | _ => exact hfirst
  | _ => exact hfirst

theorem Keeps.afterBody (h : Keeps env R) {w : World} {current : Progress} (block : Block)
    (bound : Bound) (completed : ℕ) (body : Activity) (hcurrent : R w current.2) :
    R w (afterBody block bound completed body current).2 := by
  obtain ⟨a, w'⟩ := current
  have hagain : Move env (.within block bound completed body (.ended .completed)) w'
      (.rounds block bound (completed + 1) body) w'.yield := .again
  have hyield : R w' w'.yield := h.move hagain rfl
  cases a with
  | ended flow =>
    cases flow with
    | completed => exact h.trans hcurrent hyield
    | _ => exact hcurrent
  | _ => exact hcurrent

theorem Keeps.round (h : Keeps env R) (block : Block) (bound : Bound) (completed : ℕ)
    (body : Activity) {pollBody : World → Progress} (hbody : ∀ w, R w (pollBody w).2) (w : World) :
    R w (beginRound env block bound completed body pollBody w).2 := by
  unfold beginRound
  cases hb : bound.continues completed w.now with
  | false =>
    have hexpire : Move env (.rounds block bound completed body) w _ _ := .expire hb
    exact h.move hexpire (see_note_none _ rfl)
  | true =>
    cases hw : w.halted with
    | true => exact h.refl w
    | false =>
      have hbegin : Move env (.rounds block bound completed body) w _ _ := .begin hb hw
      have hfirst := h.move hbegin (see_emit_none _ _ rfl rfl)
      exact h.trans hfirst (h.afterBody block bound completed body (hbody _))

theorem Keeps.loop (h : Keeps env R) (block : Block) (before : Option TimeOption)
    (body : Activity) (after : Option TimeOption) {pollBody : World → Progress}
    (hbody : ∀ w, R w (pollBody w).2) (w : World) :
    R w (beginLoop env block before body after pollBody w).2 := by
  unfold beginLoop
  split
  · next he =>
    have hbar : Move env (.enter block before body after) w _ _ := .bar he
    refine h.move hbar ?_
    rw [see_fail_none _ rfl, see_note_none _ rfl, see_enterLoop (fun _ => rfl) he]
  · next bound w' he =>
    have henter : Move env (.enter block before body after) w _ _ := .enter he
    have hfirst := h.move henter (by rw [see_note_none _ rfl, see_enterLoop (fun _ => rfl) he])
    refine h.trans hfirst (h.andThen _ (h.pause _ _ _) fun w => ?_)
    exact h.andThen _ (h.round block bound 0 body hbody w) (h.pause _ _)

mutual

/-- **What is true of the parts of a poll is true of the poll.** -/
theorem Keeps.poll (h : Keeps env R) : ∀ (a : Activity) (w : World), R w (poll env a w).2
  | .ended _, w => by
    rw [Activity.poll]
    exact h.refl w
  | .pause path o, w => by
    rw [Activity.poll]
    exact h.pause path o w
  | .sleeping wake, w => by
    rw [Activity.poll]
    exact h.refl w
  | .dispatch path t, w => by
    rw [Activity.poll]
    cases hw : w.halted with
    | true =>
      rw [beginDispatch, if_pos hw]
      exact h.refl w
    | false => exact h.dispatch path t hw
  | .applying queues, w => by
    rw [Activity.poll]
    exact h.queues queues w
  | .seq first rest, w => by
    rw [Activity.poll]
    exact h.andThen rest (h.poll first w) (h.poll rest)
  | .join branches, w => by
    rw [Activity.poll]
    exact h.pollAll branches w
  | .enter block before body after, w => by
    rw [Activity.poll]
    exact h.loop block before body after (h.poll body) w
  | .rounds block bound completed body, w => by
    rw [Activity.poll]
    exact h.round block bound completed body (h.poll body) w
  | .within block bound completed body current, w => by
    rw [Activity.poll]
    exact h.afterBody block bound completed body (h.poll current w)

theorem Keeps.pollAll (h : Keeps env R) : ∀ (branches : List Activity) (w : World),
    R w (pollAll env branches w).2
  | [], w => by
    rw [Activity.pollAll]
    exact h.refl w
  | a :: branches, w => by
    rw [Activity.pollAll]
    exact h.trans (h.poll a w) (h.pollAll branches _)

end

end Activity

/-! ### Journals -/

/-- What is no call is none for the transition at a place. -/
theorem Entry.callAt?_of_call? {e : Entry} (h : e.call? = none) (path : Path) :
    e.callAt? path = none := by
  cases e with
  | called c => cases h
  | _ => rfl

namespace Journal

/-- What was written after a transition was dispatched begins, as far as one of its devices is
concerned, with the first call of the device, at the same instant. -/
def Calls (now : Instant) (path : Path) (t : Transition) (later : Journal) (d : Device) : Prop :=
  ∃ after between : Journal,
    later = after ++ ⟨now, .called ⟨now, path, d, t.state, t.wait, 0⟩⟩ :: between ∧
      ∀ r ∈ between, r.time = now ∧ r.entry.callAt? path ≠ some d ∧
        ∀ t', r.entry ≠ .dispatched path t'

/-- Whenever a transition was dispatched, the run was to halt at the same instant, or all devices
that were named were called at it. -/
def Prompt (env : Environment) (j : Journal) : Prop :=
  ∀ (later earlier : Journal) (now : Instant) (path : Path) (t : Transition),
    j = later ++ ⟨now, .dispatched path t⟩ :: earlier →
      (∃ r ∈ later, r.time = now ∧ r.entry.halts = true) ∨
        ∀ d ∈ t.named env.resolve, Calls now path t later d

/-- More may have been written since. -/
theorem Calls.append {now : Instant} {path : Path} {t : Transition} {later : Journal} {d : Device}
    (h : Calls now path t later d) (more : Journal) : Calls now path t (more ++ later) d := by
  obtain ⟨after, between, rfl, hbetween⟩ := h
  exact ⟨more ++ after, between, (List.append_assoc _ _ _).symm, hbetween⟩

/-- So may have been what neither calls the device nor dispatches, at the same instant. -/
theorem Calls.beside {now : Instant} {path : Path} {t : Transition} {later earlier : Journal}
    {d : Device} (h : Calls now path t later d)
    (hearlier : ∀ r ∈ earlier, r.time = now ∧ r.entry.callAt? path ≠ some d ∧
      ∀ t', r.entry ≠ .dispatched path t') : Calls now path t (later ++ earlier) d := by
  obtain ⟨after, between, rfl, hbetween⟩ := h
  refine ⟨after, between ++ earlier, ?_, List.forall_mem_append.mpr ⟨hbetween, hearlier⟩⟩
  rw [List.append_assoc, List.cons_append]

/-- **What is prompt on its own is so together.** -/
theorem Prompt.append {new old : Journal} (hnew : Prompt env new) (hold : Prompt env old) :
    Prompt env (new ++ old) := by
  intro later earlier now path t hsplit
  rcases List.append_eq_append_iff.mp hsplit with ⟨l, rfl, hl⟩ | ⟨l, hl, hr⟩
  · -- the transition was dispatched before
    rcases hold _ _ _ _ _ hl with ⟨r, hr, hhalts⟩ | hcalls
    · exact .inl ⟨r, List.mem_append_right _ hr, hhalts⟩
    · exact .inr fun d hd => (hcalls d hd).append new
  · cases l with
    | nil =>
      rw [List.append_nil] at hl
      rw [List.nil_append] at hr
      subst hl
      rcases hold [] _ _ _ _ hr.symm with ⟨r, hr, -⟩ | hcalls
      · exact absurd hr List.not_mem_nil
      · exact .inr fun d hd => by simpa using (hcalls d hd).append new
    | cons r l =>
      obtain ⟨rfl, -⟩ := List.cons.inj hr
      exact hnew _ _ _ _ _ hl

/-- There is one place only where one transition was dispatched. -/
theorem split_of_none {j later earlier : Journal} {r r' : Record}
    (h : ∀ r ∈ j, r.entry.dispatched? = none) (hr' : r'.entry.dispatched? ≠ none)
    (hsplit : j ++ [r] = later ++ r' :: earlier) : later = j ∧ r' = r := by
  rcases List.eq_nil_or_concat earlier with rfl | ⟨before, last, rfl⟩
  · obtain ⟨rfl, hlast⟩ := List.append_inj' hsplit rfl
    exact ⟨rfl, (List.cons.inj hlast).1.symm⟩
  · have hj : j = later ++ r' :: before := by
      have hconcat : j ++ [r] = (later ++ r' :: before) ++ [last] := by
        rw [hsplit]
        simp
      exact (List.append_inj' hconcat rfl).1
    exact absurd (h r' (by rw [hj]; exact List.mem_append_right _ List.mem_cons_self)) hr'

/-- Where no transition is dispatched there is nothing to be prompt about. -/
theorem prompt_of_none {j : Journal} (h : ∀ r ∈ j, r.entry.dispatched? = none) : Prompt env j := by
  intro later earlier now path t hsplit
  have hnone := h ⟨now, .dispatched path t⟩ (by
    rw [hsplit]
    exact List.mem_append_right _ List.mem_cons_self)
  exact absurd hnone nofun

end Journal

/-! ### Queues -/

namespace Queue

/-- A queue calls the device that it serves, and no other. -/
theorem Move.see_call {q q' : Queue} {w w' : World} (h : Move env q w q' w') :
    ∃ new : List Call, w'.see Entry.call? = w.see Entry.call? ++ new ∧
      ∀ c ∈ new, q.serves? = some (c.path, c.device) := by
  have hnone : ∀ {v : World}, v.see Entry.call? = w.see Entry.call? →
      ∃ new : List Call, v.see Entry.call? = w.see Entry.call? ++ new ∧
        ∀ c ∈ new, q.serves? = some (c.path, c.device) := fun hsee =>
    ⟨[], hsee.trans (List.append_nil _).symm, fun _ hc => absurd hc List.not_mem_nil⟩
  cases h with
  | @call call c left w hw hc =>
    refine ⟨[c], World.see_call _ _ rfl c, fun c' hc' => ?_⟩
    rw [List.mem_singleton.mp hc', hc]
    rfl
  | await => exact hnone (see_note_none _ rfl)
  | answer =>
    refine hnone ?_
    rw [see_settle rfl, see_note_none _ rfl]
    simp [Entry.call?]
  | acknowledge =>
    refine hnone ?_
    rw [see_settle rfl]
    simp [Entry.call?]
  | _ => exact hnone rfl

theorem Moves.see_call {x y : Queue × World} (h : Moves env x y) :
    (∃ new : List Call, y.2.see Entry.call? = x.2.see Entry.call? ++ new ∧
      ∀ c ∈ new, x.1.serves? = some (c.path, c.device)) ∧
    (∀ k ∈ y.1.serves?, k ∈ x.1.serves?) := by
  induction h with
  | refl =>
    exact ⟨⟨[], (List.append_nil _).symm, fun _ hc => absurd hc List.not_mem_nil⟩, fun _ hk => hk⟩
  | tail _ hmove ih =>
    obtain ⟨⟨new, hsee, hnew⟩, hserves⟩ := ih
    obtain ⟨new', hsee', hnew'⟩ := Move.see_call hmove
    refine ⟨⟨new ++ new', ?_, fun c hc => ?_⟩, fun k hk => ?_⟩
    · rw [hsee', hsee, List.append_assoc]
    · exact (List.mem_append.mp hc).elim (hnew c) fun hc => hserves _ (hnew' c hc)
    · refine hserves k ?_
      have hsub := (Move.serves?_sublist hmove).subset (Option.mem_toList.mpr hk)
      exact Option.mem_toList.mp hsub

/-- A queue that is polled, and has calls to make, makes the first one before anything else. -/
theorem poll_ready (env : Environment) {call c : Call} (left : ℕ) {w : World}
    (hw : w.halted = false) (hc : c = { call with time := w.now }) : ∃ after : Journal,
      (poll env (.ready call (left + 1)) w).2.journal
        = after ++ ⟨w.now, .called c⟩ :: w.journal := by
  have hrest : (w.call env c).Grows (poll env (.ready call (left + 1)) w).2 := by
    show (w.call env c).Grows (serve env (left + 1) call w).2
    rw [serve_succ hw hc]
    split
    · exact Moves.grows (calling_moves (serve_moves left) _ _ _ _)
    · exact .refl _
  have hcalled : (w.note (.called c)).Grows (w.call env c) := cancelIf_grows _ _
  obtain ⟨-, new, hnew, -⟩ := hcalled.trans hrest
  exact ⟨new, hnew⟩

/-- So does the queue of a device of a transition, and it calls no other device. -/
theorem poll_calls (env : Environment) (now : Instant) (path : Path) (t : Transition) (d : Device)
    (left : ℕ) {w : World} (hw : w.halted = false) : ∃ new : Journal,
      (poll env (.ready ⟨now, path, d, t.state, t.wait, 0⟩ (left + 1)) w).2.journal
          = new ++ w.journal ∧ Journal.Calls w.now path t new d ∧
        ∀ r ∈ new, r.time = w.now ∧ (∀ e, e ≠ d → r.entry.callAt? path ≠ some e) ∧
          ∀ t', r.entry ≠ .dispatched path t' := by
  have hmoves : Moves env (.ready ⟨now, path, d, t.state, t.wait, 0⟩ (left + 1), w) _ :=
    poll_moves _ w
  obtain ⟨after, hafter⟩ := poll_ready env left hw rfl
  have hjournal := hafter.trans (List.append_cons _ _ _)
  refine ⟨_, hjournal, ⟨after, [], rfl, fun r hr => absurd hr List.not_mem_nil⟩, fun r hr => ?_⟩
  have htime : r.time = w.now := by
    obtain ⟨-, new, hnew, htimes⟩ := Moves.grows hmoves
    rw [hjournal] at hnew
    exact htimes r (List.append_cancel_right hnew ▸ hr)
  refine ⟨htime, fun e he hcall => ?_, fun t' hdispatched => ?_⟩
  · obtain ⟨⟨calls, hsee, hcalls⟩, -⟩ := Moves.see_call hmoves
    rw [see_of_journal hjournal] at hsee
    -- what is called here is called for the device
    cases hentry : r.entry with
    | called c =>
      rw [hentry] at hcall
      have hmem : c ∈ calls := by
        rw [← List.append_cancel_left hsee]
        exact List.mem_filterMap.mpr ⟨_, List.mem_map.mpr ⟨r, List.mem_reverse.mpr hr, hentry⟩, rfl⟩
      obtain ⟨-, hdevice⟩ := Prod.mk.inj (Option.some.inj (hcalls c hmem))
      rw [Entry.callAt?, Call.at?] at hcall
      split at hcall
      · exact he (Option.some.inj hcall ▸ hdevice.symm)
      · cases hcall
    | _ =>
      rw [hentry] at hcall
      cases hcall
  · have hsee : ∀ {x y : Queue × World}, Moves env x y →
        y.2.see Entry.dispatched? = x.2.see Entry.dispatched? := by
      intro x y h
      induction h with
      | refl => rfl
      | tail _ hmove ih => exact (Move.see_dispatched hmove).trans ih
    have hnone := view_eq_none hjournal (hsee hmoves) r hr
    rw [hdispatched] at hnone
    cases hnone

end Queue

namespace Activity

/-- **The devices of a transition are called in one go**, unless the run is to halt. -/
theorem pollAll_calls (env : Environment) (now : Instant) (path : Path) (t : Transition) :
    ∀ (devices : List (Device × ℕ)) (w : World), (devices.map Prod.fst).Nodup →
      (∀ x ∈ devices, 0 < x.2) → w.halted = false →
      (Queue.pollAll env (newQueues now path t devices) w).2.halted = true ∨
      ∃ new : Journal, (Queue.pollAll env (newQueues now path t devices) w).2.journal
          = new ++ w.journal ∧ ∀ d ∈ devices.map Prod.fst, Journal.Calls w.now path t new d := by
  intro devices
  induction devices with
  | nil => exact fun w _ _ _ => .inr ⟨[], rfl, fun d hd => absurd hd List.not_mem_nil⟩
  | cons x devices ih =>
    obtain ⟨d, n⟩ := x
    intro w hnodup hpos hw
    rw [List.map_cons, List.nodup_cons] at hnodup
    rw [List.forall_mem_cons] at hpos
    obtain ⟨k, rfl⟩ := Nat.exists_eq_succ_of_ne_zero (Nat.ne_of_gt hpos.1)
    have hmoves : Queue.Moves env (.ready ⟨now, path, d, t.state, t.wait, 0⟩ (k + 1), w) _ :=
      Queue.poll_moves _ w
    obtain ⟨first, hfirst, hcalls, hothers⟩ :=
      Queue.poll_calls env now path t d k hw
    obtain ⟨hnow, -⟩ := Queue.Moves.grows hmoves
    generalize hv : (Queue.poll env (.ready ⟨now, path, d, t.state, t.wait, 0⟩ (k + 1)) w).2 = v
      at hfirst hnow
    have hpoll : (Queue.pollAll env (newQueues now path t ((d, k + 1) :: devices)) w).2
        = (Queue.pollAll env (newQueues now path t devices) v).2 := by
      rw [← hv]
      rfl
    rw [hpoll]
    cases hhalted : v.halted with
    | true => exact .inl (Ops.halted (Queue.pollAll_ops env _ v) hhalted)
    | false =>
      rcases ih v hnodup.2 hpos.2 hhalted with h | ⟨new, hnew, hrest⟩
      · exact .inl h
      · refine .inr ⟨new ++ first, by rw [hnew, hfirst, List.append_assoc], fun e he => ?_⟩
        rcases List.mem_cons.mp he with rfl | he
        · exact hcalls.append new
        · have hne : e ≠ d := fun h => hnodup.1 (h ▸ he)
          have hlater : Journal.Calls w.now path t new e := hnow ▸ hrest e he
          refine hlater.beside fun r hr => ?_
          obtain ⟨htime, hcall, hdispatched⟩ := hothers r hr
          exact ⟨htime, hcall e hne, hdispatched⟩

/-- What is written when a transition is announced: that it is dispatched, and then neither calls
nor transitions. -/
theorem announce_journal (env : Environment) (path : Path) (t : Transition) (w : World) :
    ∃ new : Journal,
    (announce env path t w).2.journal = new ++ ⟨w.now, .dispatched path t⟩ :: w.journal ∧
      ∀ r ∈ new, r.time = w.now ∧ r.entry.call? = none ∧ r.entry.dispatched? = none := by
  have hgrows : (w.note (.dispatched path t)).Grows (announce env path t w).2 := by
    rw [announce_eq]
    exact (notes_grows _ _).trans (emit_grows _ _)
  obtain ⟨-, new, hnew, htimes⟩ := hgrows
  have hcall : (announce env path t w).2.see Entry.call?
      = (w.note (.dispatched path t)).see Entry.call? := by
    rw [see_announce_blind rfl (fun _ => rfl) fun _ => rfl, see_note]
    rfl
  have hdispatched : (announce env path t w).2.see Entry.dispatched?
      = (w.note (.dispatched path t)).see Entry.dispatched? := by
    rw [see_announce_blind rfl (fun _ => rfl) fun _ => rfl, see_note]
    rfl
  exact ⟨new, hnew, fun r hr =>
    ⟨htimes r hr, view_eq_none hnew hcall r hr, view_eq_none hnew hdispatched r hr⟩⟩

/-- The devices that a transition names are announced, each with a call to make. -/
theorem mem_announced (env : Environment) (t : Transition) :
    (∀ d ∈ t.named env.resolve, d ∈ (announced env t).map Prod.fst) ∧
      ∀ x ∈ announced env t, 0 < x.2 := by
  rw [announced, foldl_count, List.map_map]
  refine ⟨fun d hd => ?_, fun x hx => ?_⟩
  · exact List.mem_map.mpr ⟨d, List.mem_eraseDups.mpr hd, rfl⟩
  · obtain ⟨d, hd, rfl⟩ := List.mem_map.mp hx
    exact List.count_pos_iff.mpr (List.mem_eraseDups.mp hd)

/-- **A transition that is dispatched calls all its devices at once**, or the run is to halt. -/
theorem beginDispatch_prompt (path : Path) (t : Transition) {w : World} (hw : w.halted = false)
    (hfaithful : w.Faithful) : ∃ new : Journal,
      (beginDispatch env path t w).2.journal = new ++ w.journal ∧ new.Prompt env := by
  obtain ⟨told, htold, hquiet⟩ := announce_journal env path t w
  have hops : Ops w (announce env path t w).2 := announce_ops path t hw
  have hnow : (announce env path t w).2.now = w.now := (announce_grows path t w).1
  have hpolls := pollAll_calls env (announce env path t w).2.now path t (announced env t)
    (announce env path t w).2 (announced_nodup env t) (mem_announced env t).2
  have hworld : (beginDispatch env path t w).2 = (Queue.pollAll env
      (newQueues (announce env path t w).2.now path t (announced env t))
      (announce env path t w).2).2 := by
    rw [beginDispatch, if_neg (not_halted_of_going hw), ← announce_devices env path t w]
  generalize newQueues (announce env path t w).2.now path t (announced env t) = queues
    at hpolls hworld
  generalize (announce env path t w).2 = v at htold hops hnow hpolls hworld
  have hpoll := Queue.pollAll_ops env queues v
  obtain ⟨-, called, hcalled, htimes⟩ := Queue.pollAll_grows env queues v
  have hnone := view_eq_none hcalled (Queue.pollAll_dispatched queues v)
  rw [← hworld] at hpoll hcalled hpolls
  generalize (beginDispatch env path t w).2 = u at hpoll hcalled hpolls
  have hjournal : u.journal = (called ++ told ++ [⟨w.now, .dispatched path t⟩]) ++ w.journal := by
    rw [hcalled, htold]
    simp
  refine ⟨_, hjournal, ?_⟩
  intro later earlier now' path' t' hsplit
  have hquiet' : ∀ r ∈ called ++ told, r.entry.dispatched? = none := fun r hr =>
    (List.mem_append.mp hr).elim (hnone r) fun hr => (hquiet r hr).2.2
  obtain ⟨rfl, heq⟩ := Journal.split_of_none hquiet' (by simp [Entry.dispatched?]) hsplit
  obtain ⟨rfl, hentry⟩ := Record.mk.inj heq
  obtain ⟨rfl, rfl⟩ := Entry.dispatched.inj hentry
  cases hhalted : u.halted with
  | true =>
    have hall : Ops w u := hops.trans hpoll
    obtain ⟨r, hr, hhalts⟩ :=
      hfaithful.halts_since (hall.faithful hfaithful) hjournal hw hhalted
    rcases List.mem_append.mp hr with hr | hr
    · have htime : r.time = w.now := (List.mem_append.mp hr).elim
        (fun hr => (htimes r hr).trans hnow) fun hr => (hquiet r hr).1
      exact .inl ⟨r, hr, htime, hhalts⟩
    · rw [List.mem_singleton.mp hr] at hhalts
      cases hhalts
  | false =>
    rcases hpolls (hpoll.going hhalted) with h | ⟨new, hnew, hcalls⟩
    · exact absurd h (not_halted_of_going hhalted)
    · obtain rfl : new = called := List.append_cancel_right (hnew.symm.trans hcalled)
      refine .inr fun d hd => ?_
      have hlater : Journal.Calls w.now path' t' new d :=
        hnow ▸ hcalls d ((mem_announced env t').1 d hd)
      refine hlater.beside fun r hr => ?_
      obtain ⟨htime, hcall, hdispatched⟩ := hquiet r hr
      refine ⟨htime, ?_, fun t'' h => ?_⟩
      · rw [Entry.callAt?_of_call? hcall]
        exact (Option.some_ne_none d).symm
      · rw [h] at hdispatched
        cases hdispatched

/-- Polls are prompt. -/
theorem keeps_prompt : Keeps env fun w w' => w.Faithful →
    w'.Faithful ∧ ∃ new : Journal, w'.journal = new ++ w.journal ∧ new.Prompt env where
  refl w h := ⟨h, [], rfl, Journal.prompt_of_none fun r hr => absurd hr List.not_mem_nil⟩
  trans huv hvw h := by
    obtain ⟨hv, new, hnew, hprompt⟩ := huv h
    obtain ⟨hw, new', hnew', hprompt'⟩ := hvw hv
    exact ⟨hw, new' ++ new, by rw [hnew', hnew, List.append_assoc], hprompt'.append hprompt⟩
  move hmove hsee h := by
    obtain ⟨-, new, hnew, -⟩ := hmove.grows
    exact ⟨hmove.ops.faithful h, new, hnew, Journal.prompt_of_none (view_eq_none hnew hsee)⟩
  dispatch path t {w} hw h := by
    have hops : Ops w (beginDispatch env path t w).2 := by
      rw [beginDispatch, if_neg (not_halted_of_going hw)]
      exact (announce_ops path t hw).trans (Queue.pollAll_ops env _ _)
    exact ⟨hops.faithful h, beginDispatch_prompt path t hw h⟩

end Activity

/-! ### Runs -/

/-- A round is prompt. -/
theorem Machine.round_prompt (m : Machine)
    (hm : m.world.Faithful ∧ m.world.journal.Prompt env) :
    (m.round env).world.Faithful ∧ (m.round env).world.journal.Prompt env := by
  obtain ⟨hfaithful, hprompt⟩ := hm
  obtain ⟨now, hround⟩ := round_world env m
  have hturn : m.world.nextRound.Faithful := ⟨hfaithful.cancelled, hfaithful.failed⟩
  obtain ⟨-, first, hfirst, -⟩ := cancelOnTime_grows env m.world.nextRound
  obtain ⟨hpolled, new, hnew, hprompt'⟩ := Activity.keeps_prompt.poll m.activity
    (World.cancelOnTime env m.world.nextRound) (hturn.cancelIf _)
  rw [hround]
  refine ⟨⟨hpolled.cancelled, hpolled.failed⟩, ?_⟩
  show Journal.Prompt env (Activity.poll env m.activity _).2.journal
  rw [hnew]
  refine hprompt'.append ?_
  rw [hfirst]
  -- the caller dispatches nothing
  exact (Journal.prompt_of_none (view_eq_none hfirst (see_cancelIf _ rfl _))).append hprompt

namespace Program

variable {p : Program}

/-- **All devices of a transition are called at once**, whenever it is dispatched in a run. -/
theorem prompt_after (env : Environment) (p : Program) (n : ℕ) :
    (Machine.after env n (Machine.start env p)).world.journal.Prompt env := by
  refine (Machine.after_keep (fun m => m.world.Faithful ∧ m.world.journal.Prompt env)
    Machine.round_prompt n _ ?_).2
  rw [start_world]
  have hnothing : (p.firstWorld env).see Entry.dispatched? = World.see {} Entry.dispatched? := by
    rw [see_firstWorld rfl]
    rfl
  refine ⟨(faithful_empty.cancelIf _).emit _, Journal.prompt_of_none ?_⟩
  exact view_eq_none (v := {}) (List.append_nil _).symm hnothing

/-- **How transitions serve their devices.**  While a transition is being executed no device is
called again before it is known what the last call came to, at any time of a run.  Once a
transition is dispatched, its devices are called no more often than they are named, however often
references overlap and whatever the calls come to; and if the run goes on then, when no queue of
the transition is left or when it is dispatched again, each device was called just as often as it
is named.  The first calls of all devices are made at the instant of the dispatch, unless the run
is to halt there. -/
theorem transitions_serve (env : Environment) (p : Program) :
    (∀ {m : Machine}, p.Reaches env m →
      (∀ before, before <+: m.world.entries → ∀ path d,
        (before.filterMap (Entry.callAt? path)).count d
          ≤ (before.filterMap (Entry.settledAt? path)).count d + 1) ∧
      (∀ {before since : List Entry} {path : Path} {t : Transition},
        m.world.entries = before ++ .dispatched path t :: since →
        (∀ t', .dispatched path t' ∉ since) →
          (since.filterMap (Entry.callAt? path)).Subperm (t.named env.resolve) ∧
          (m.world.halted = false → (∀ q ∈ m.activity.serving, q.place? ≠ some path) →
            (since.filterMap (Entry.callAt? path)).Perm (t.named env.resolve))) ∧
      ∀ {before since after : List Entry} {path : Path} {t t' : Transition},
        m.world.entries = before ++ .dispatched path t :: (since ++ .dispatched path t' :: after) →
        (∀ t'', .dispatched path t'' ∉ since) →
          (since.filterMap (Entry.callAt? path)).Perm (t.named env.resolve)) ∧
    ∀ n, ∀ {later earlier : Journal} {now : Instant} {path : Path} {t : Transition},
      (Machine.after env n (Machine.start env p)).world.journal
          = later ++ ⟨now, .dispatched path t⟩ :: earlier →
        (∃ r ∈ later, r.time = now ∧ r.entry.halts = true) ∨
        ∀ d ∈ t.named env.resolve, ∃ after between : Journal,
          later = after ++ ⟨now, .called ⟨now, path, d, t.state, t.wait, 0⟩⟩ :: between ∧
            ∀ r ∈ between, r.time = now ∧ r.entry.callAt? path ≠ some d ∧
              ∀ t', r.entry ≠ .dispatched path t' := by
  refine ⟨fun h => ⟨fun before hpre path d => ?_, fun hsplit hlast => h.calls_since hsplit hlast,
    fun hsplit hlast => h.calls_between hsplit hlast⟩, fun n _ _ _ _ _ =>
      prompt_after env p n _ _ _ _ _⟩
  have halone := h.alone (before.filterMap Entry.work?) (hpre.filterMap _) path d
  rw [filterMap_callAt, filterMap_settledAt] at halone
  exact halone

/-- A lamp that is named twice and a spot that is named once, where every call takes five
nanoseconds and fails: the two are called at once, the lamp a second time when the first call has
come back, and then no more. -/
theorem lamp_twice_and_spot :
    let env := { Environment.plain with gateway := fun _ _ => ⟨5, .failed .timeout⟩ }
    let t : Transition := { state := {}, devices := some [.light "lamp", .light "spot", .light "lamp"] }
    let p : Program := ⟨none, .transition t⟩
    let path := p.step.rootPath
    let lamp : Device := ⟨.light, 1, "lamp"⟩
    let spot : Device := ⟨.light, 1, "spot"⟩
    ∃ m, p.Reaches env m ∧ m.activity = .ended .completed ∧
      (∃ before since, m.world.entries = before ++ .dispatched path t :: since ∧
        (∀ before, before <+: m.world.entries →
          (before.filterMap (Entry.callAt? path)).count lamp
            ≤ (before.filterMap (Entry.settledAt? path)).count lamp + 1) ∧
        (since.filterMap (Entry.callAt? path)).Perm [lamp, spot, lamp]) ∧
      ∃ later earlier after between, m.world.journal = later ++ ⟨0, .dispatched path t⟩ :: earlier ∧
        later = after ++ ⟨0, .called ⟨0, path, spot, {}, false, 0⟩⟩ :: between := by
  intro env t p path lamp spot
  obtain ⟨m, hm⟩ : ∃ m, Machine.after env 3 (Machine.start env p) = m := ⟨_, rfl⟩
  have hreach : p.Reaches env m := hm ▸ reaches_after 3
  have hended : m.activity = .ended .completed := by
    refine Activity.eq_ended_of_flow? ?_
    rw [← hm]
    decide +kernel
  have hgoing : m.world.halted = false := by
    rw [← hm]
    decide +kernel
  have hsplit : m.world.entries
      = m.world.entries.take 1 ++ .dispatched path t :: m.world.entries.drop 2 := by
    rw [← hm]
    decide +kernel
  have hlast : ∀ t', .dispatched path t' ∉ m.world.entries.drop 2 := by
    have hnone : (m.world.entries.drop 2).filterMap Entry.dispatched? = [] := by
      rw [← hm]
      decide +kernel
    intro t' ht'
    have hmem : (path, t') ∈ (m.world.entries.drop 2).filterMap Entry.dispatched? :=
      List.mem_filterMap.mpr ⟨_, ht', rfl⟩
    rw [hnone] at hmem
    exact absurd hmem List.not_mem_nil
  have hlater : m.world.journal = m.world.journal.take (m.world.journal.length - 2)
      ++ ⟨0, .dispatched path t⟩ :: m.world.journal.drop (m.world.journal.length - 1) := by
    rw [← hm]
    decide +kernel
  have hquiet : ∀ r ∈ m.world.journal.take (m.world.journal.length - 2),
      r.entry.halts = false := by
    rw [← hm]
    decide +kernel
  obtain ⟨halone, hcalls, -⟩ := (transitions_serve env p).1 hreach
  have hperm : (_ : List Device).Perm (t.named env.resolve) := (hcalls hsplit hlast).2 hgoing (by
    rw [hended]
    exact fun q hq => absurd hq List.not_mem_nil)
  have hsame : (Machine.after env 3 (Machine.start env p)).world.journal = m.world.journal := by
    rw [hm]
  have hspot : spot ∈ t.named env.resolve := by decide
  rcases (transitions_serve env p).2 3 (hsame.trans hlater) with ⟨r, hr, -, hhalts⟩ | hfirst
  · exact absurd hhalts (Bool.eq_false_iff.mp (hquiet r hr))
  · obtain ⟨after, between, hbetween, -⟩ := hfirst spot hspot
    exact ⟨m, hreach, hended, ⟨_, _, hsplit, fun before hpre => halone before hpre path lamp,
      hperm⟩, _, _, after, between, hlater, hbetween⟩

end Program

end Lightshow
