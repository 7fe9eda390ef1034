import Lightshow.Proofs.Time.Endings

/-!
# What replies promise

From the gateway's reply to a call follows how the call may end.  If an acknowledgement is waited
for, this is a race: a window opens when the call returns, and an alarm is set for its end, which is
when the fade of the state is over and a timeout has passed.  What comes first ends the call.  If
both come at one instant then either may do so; what the call comes to is left open in this case, but
not when it ends.

The calls of a run end in such a way, and the calls that are in flight are to do so.

## Main definitions

* `Environment.window?` — how long an acknowledgement is waited for.
* `Call.MayEnd` — the endings that a reply allows.
* `Journal.Allows` — endings for the calls of a journal.

## Main results

* `Call.mayEnd_ends` — the ending that is promised is one of those.
* `Call.MayEnd.completes` — all of them come at the same instant.
* `Program.Reaches.allows` — **the endings that are promised in a run.**
* `Program.Reaches.flights_end` — **the calls that are in flight in a run.**
-/

namespace Lightshow

variable {env : Environment}

/-! ### Endings that a reply allows -/

/-- The error that an acknowledgement tells, if it tells one. -/
def Ack.error? : Ack → Option DeviceError
  | succeeded => none
  | failed cause => some (.gateway cause)
  | dropped => some .ackDropped

theorem Ack.error?_result (ack : Ack) : Queue.error? ack.result = ack.error? := by
  cases ack <;> rfl

/-- How long an acknowledgement is waited for, if that is a span. -/
def Environment.window? (env : Environment) (state : DeviceState) : Option Duration :=
  if (state.fadeDuration + env.ackTimeout).Representable then
    some (state.fadeDuration + env.ackTimeout)
  else none

theorem Environment.eq_of_window? {state : DeviceState} {window : Duration}
    (h : env.window? state = some window) : window = state.fadeDuration + env.ackTimeout := by
  unfold window? at h
  split at h
  · exact (Option.some.inj h).symm
  · cases h

/-- When a call returns that the gateway replies to. -/
def Call.returns (c : Call) (r : Reply) : Instant := c.time + r.latency

/-- The endings of a call that the gateway's reply allows. -/
inductive Call.MayEnd (env : Environment) (c : Call) (r : Reply) : Ending → Prop
  | done (h : r.outcome = .done) : MayEnd env c r ⟨c, c.returns r, none⟩
  | failed {cause : GatewayError} (h : r.outcome = .failed cause) :
      MayEnd env c r ⟨c, c.returns r, some (.gateway cause)⟩
  | unread {ack : Option (Duration × Ack)} (h : r.outcome = .pending ack) (hwait : c.wait = false) :
      MayEnd env c r ⟨c, c.returns r, none⟩
  /-- The acknowledgement comes no later than the window closes. -/
  | acknowledged {span window : Duration} {ack : Ack} (h : r.outcome = .pending (some (span, ack)))
      (hwait : c.wait = true) (hwindow : env.window? c.state = some window)
      (hcomes : c.returns r + span ≤ alarm (c.returns r) window) :
      MayEnd env c r ⟨c, c.returns r + span, ack.error?⟩
  /-- The window closes, and if an acknowledgement comes at all it does so no earlier. -/
  | late {window : Duration} {ack : Option (Duration × Ack)} (h : r.outcome = .pending ack)
      (hwait : c.wait = true) (hwindow : env.window? c.state = some window)
      (hlate : ∀ a ∈ ack, alarm (c.returns r) window ≤ c.returns r + a.1) :
      MayEnd env c r ⟨c, alarm (c.returns r) window, some (.ackTimeout env.ackTimeout)⟩

namespace Call

variable {c : Call} {latency : Duration} {ack : Option (Duration × Ack)}

/-- A call whose acknowledgement is not waited for ends when it returns. -/
theorem ends_unread (hwait : c.wait = false) :
    c.ends env ⟨latency, .pending ack⟩ = ⟨c, c.time + latency, none⟩ := by
  simp only [ends, Dispatch.ends, Dispatch.finishes, Dispatch.verdict, hwait, Bool.false_eq_true,
    if_false, Window.verdict_unread]

/-- Any other one ends when its window tells something. -/
theorem ends_awaited (hwait : c.wait = true) : c.ends env ⟨latency, .pending ack⟩
    = ⟨c, (Window.opened env c.state (c.time + latency) ack).due,
        (Window.opened env c.state (c.time + latency) ack).verdict.error? env true⟩ := by
  simp only [ends, Dispatch.ends, Dispatch.finishes, Dispatch.verdict, hwait, if_true]

/-- The race is decided as the reply allows. -/
theorem mayEnd_awaited (hwait : c.wait = true)
    (hwindow : env.window? c.state = some (c.state.fadeDuration + env.ackTimeout)) :
    c.MayEnd env ⟨latency, .pending ack⟩ (c.ends env ⟨latency, .pending ack⟩) := by
  rw [ends_awaited hwait]
  cases ack with
  | none => exact .late rfl hwait hwindow nofun
  | some a =>
    obtain ⟨span, ack⟩ := a
    rcases Nat.lt_or_ge (alarm (c.time + latency) (c.state.fadeDuration + env.ackTimeout))
      (c.time + latency + span) with hlate | hcomes
    · have hdue : (Window.opened env c.state (c.time + latency) (some (span, ack))).due
          = alarm (c.time + latency) (c.state.fadeDuration + env.ackTimeout) :=
        Nat.min_eq_right (Nat.le_of_lt hlate)
      have hverdict : (Window.opened env c.state (c.time + latency) (some (span, ack))).verdict
          = .late := if_neg (Nat.not_le_of_lt hlate)
      rw [hdue, hverdict]
      refine .late rfl hwait hwindow fun a ha => ?_
      cases ha
      exact Nat.le_of_lt hlate
    · have hdue : (Window.opened env c.state (c.time + latency) (some (span, ack))).due
          = c.time + latency + span := Nat.min_eq_left hcomes
      have hverdict : (Window.opened env c.state (c.time + latency) (some (span, ack))).verdict
          = .told ack := if_pos hcomes
      have herror : (Verdict.told ack).error? env true = ack.error? := ack.error?_result
      rw [hdue, hverdict, herror]
      exact .acknowledged rfl hwait hwindow hcomes

/-- **The ending that is promised is allowed**, if the window is a span. -/
theorem mayEnd_ends (r : Reply)
    (hroom : c.wait = true → (c.state.fadeDuration + env.ackTimeout).Representable) :
    c.MayEnd env r (c.ends env r) := by
  obtain ⟨latency, outcome⟩ := r
  cases outcome with
  | done => exact .done rfl
  | failed cause => exact .failed rfl
  | pending ack =>
    cases hwait : c.wait with
    | false =>
      rw [ends_unread hwait]
      exact .unread rfl hwait
    | true => exact mayEnd_awaited hwait (if_pos (hroom hwait))

/-- **All endings that a reply allows come at the same instant.** -/
theorem MayEnd.completes {r : Reply} {e : Ending} (h : c.MayEnd env r e) :
    e.time = c.completes env r := by
  obtain ⟨latency, outcome⟩ := r
  show e.time = (c.ends env ⟨latency, outcome⟩).time
  cases h with
  | done h | failed h =>
    cases h
    rfl
  | unread h hwait =>
    cases h
    rw [ends_unread hwait]
    rfl
  | acknowledged h hwait hw hcomes =>
    cases h
    rw [Environment.eq_of_window? hw] at hcomes
    rw [ends_awaited hwait]
    exact (Nat.min_eq_left hcomes).symm
  | @late window ack h hwait hw hlate =>
    cases h
    rw [Environment.eq_of_window? hw] at hlate ⊢
    rw [ends_awaited hwait]
    cases ack with
    | none => rfl
    | some a => exact (Nat.min_eq_right (hlate a rfl)).symm

end Call

/-! ### Endings of a run -/

namespace Journal

/-- Some endings are allowed by the replies to the calls of a journal, the latest first. -/
def Allows (env : Environment) (j : Journal) (endings : List Ending) : Prop :=
  List.Forall₂ (fun x e => x.1.MayEnd env x.2 e) (j.replies env) endings

/-- A call that gets a reply is one of those that were made. -/
theorem call_of_replies {x : Call × Reply} {w : World} (h : x ∈ w.journal.replies env) :
    x.1 ∈ w.see Entry.call? := by
  have hmem : x.1 ∈ (w.journal.entries.filterMap Entry.call?).reverse :=
    map_replies env w.journal ▸ List.mem_map_of_mem h
  exact List.mem_reverse.mp hmem

/-- A reply that was given remains. -/
theorem replies_of_suffix {x : Call × Reply} {later earlier : Journal}
    (h : x ∈ earlier.replies env) : x ∈ (later ++ earlier).replies env := by
  induction later with
  | nil => exact h
  | cons r later ih =>
    obtain ⟨time, entry⟩ := r
    rw [List.cons_append, replies]
    cases entry with
    | called c => exact List.mem_cons_of_mem _ ih
    | _ => exact ih

/-- What is in flight has got a reply, and completes as this says. -/
theorem replies_of_flights {f : Call × Instant} {j : Journal} (h : f ∈ j.flights env) :
    ∃ r, (f.1, r) ∈ j.replies env ∧ f.2 = f.1.completes env r := by
  induction j with
  | nil => exact absurd h List.not_mem_nil
  | cons r j ih =>
    obtain ⟨time, entry⟩ := r
    rw [flights] at h
    rw [replies]
    cases entry with
    | called c =>
      rcases List.mem_cons.mp h with rfl | h
      · exact ⟨_, List.mem_cons_self, rfl⟩
      · obtain ⟨r, hr, hcompletes⟩ := ih h
        exact ⟨r, List.mem_cons_of_mem _ hr, hcompletes⟩
    | settled c error => exact ih (List.mem_of_mem_filter h)
    | _ => exact ih h

end Journal

namespace Program

variable {p : Program} {m : Machine}
  (hroom : ∀ x ∈ p.transitions, x.2.wait = true →
    (x.2.state.fadeDuration + env.ackTimeout).Representable)
include hroom

/-- Calls are made for transitions, so if these leave room for the timeout the calls do so too. -/
theorem Reaches.room (h : p.Reaches env m) {c : Call} (hc : c ∈ m.world.see Entry.call?)
    (hwait : c.wait = true) : (c.state.fadeDuration + env.ackTimeout).Representable := by
  obtain ⟨t, ht, hstate, hwait'⟩ := h.belongs.calls c hc
  rw [hstate]
  exact hroom (c.path, t) ht (hwait'.symm.trans hwait)

/-- **The endings that are promised in a run are allowed by the replies.** -/
theorem Reaches.allows (h : p.Reaches env m) :
    m.world.journal.Allows env (m.world.journal.promises env) := by
  rw [Journal.Allows, Journal.promises, List.forall₂_map_right_iff, List.forall₂_same]
  exact fun x hx => Call.mayEnd_ends x.2 (h.room hroom (Journal.call_of_replies hx))

/-- **The calls that were in flight at some time of a run** may end, and complete whenever they do
so. -/
theorem Reaches.flights_end (h : p.Reaches env m) {later earlier : Journal}
    (hsplit : m.world.journal = later ++ earlier) :
    ∀ f ∈ earlier.flights env, ∃ r, (f.1, r) ∈ earlier.replies env ∧
      (∃ e, f.1.MayEnd env r e) ∧ ∀ e, f.1.MayEnd env r e → e.time = f.2 := by
  intro f hf
  obtain ⟨r, hr, hcompletes⟩ := Journal.replies_of_flights hf
  have hcall : f.1 ∈ m.world.see Entry.call? :=
    Journal.call_of_replies (hsplit ▸ Journal.replies_of_suffix hr)
  have hends : f.1.MayEnd env r (f.1.ends env r) := Call.mayEnd_ends r (h.room hroom hcall)
  rw [hcompletes]
  exact ⟨r, hr, ⟨_, hends⟩, fun _ => Call.MayEnd.completes⟩

end Program

end Lightshow
