import Lightshow.Proofs.Time.Flights

/-!
# Verdicts

What a call comes to depends on the gateway's reply, and if there is an acknowledgement to wait
for also on the time: it may come too late.  But since nothing is late in a run, whether the
acknowledgement comes in time can be told from the reply alone, when the gateway is called.  What
a reply comes to in this way is its *verdict*, and the verdict says what will be written down.

Each call belongs to a transition of the program, so what is asked for and whether it is waited
for are those of the transition.

## Main definitions

* `Verdict`, `Reply.verdict` — what a call comes to, however long it takes.
* `World.Judged` — what is written down of calls are their verdicts.
* `Call.Serves` — a call asks for what a transition of the program says.

## Main results

* `Program.Runs.judged` — **what calls come to in a run are the verdicts of the replies.**
* `Program.Reaches.serves` — the calls of a run are made for transitions of its program.
-/

namespace Lightshow

open World

variable {env : Environment}

/-! ### Verdicts -/

/-- What a call comes to, however long it takes. -/
inductive Verdict where
  | done
  | failed (cause : GatewayError)
  /-- An acknowledgement follows in time. -/
  | told (ack : Ack)
  /-- No acknowledgement follows in time. -/
  | late
  deriving DecidableEq, Repr

namespace Verdict

/-- The error of a call with some verdict, if there is one.  Whether there is an acknowledgement
matters only to those who wait for it. -/
def error? (env : Environment) (wait : Bool) : Verdict → Option DeviceError
  | .done => none
  | .failed cause => some (.gateway cause)
  | .told ack => if wait then Queue.error? ack.result else none
  | .late => if wait then some (.ackTimeout env.ackTimeout) else none

/-- Nothing about a verdict ends a run. -/
def Harmless : Verdict → Prop
  | .failed cause | .told (.failed cause) => cause.isFatal = false
  | .done | .told .succeeded | .told .dropped | .late => True

/-- A call with a harmless verdict does not end the run. -/
theorem Harmless.fatal? {v : Verdict} (h : v.Harmless) (c : Call) (wait : Bool) :
    c.fatal? (v.error? env wait) = none := by
  cases v with
  | done => rfl
  | failed cause => exact Queue.fatal?_eq_none h
  | told ack =>
    cases wait with
    | false => rfl
    | true =>
      cases ack with
      | failed cause => exact Queue.fatal?_eq_none h
      | _ => rfl
  | late => cases wait <;> rfl

end Verdict

/-- What a window comes to. -/
def Window.verdict (w : Window) : Verdict :=
  match w.ack with
  | some (t, ack) => if t ≤ w.closes then .told ack else .late
  | none => .late

/-- Nothing comes of a window that nobody waits for. -/
theorem Window.verdict_unread (w : Window) : w.verdict.error? env false = none := by
  unfold verdict
  cases w.ack with
  | none => rfl
  | some a =>
    show (if a.1 ≤ w.closes then Verdict.told a.2 else .late).error? env false = none
    split <;> rfl

/-- What a call comes to that the gateway replies to. -/
def Reply.verdict (env : Environment) (c : Call) (r : Reply) : Verdict :=
  match r.outcome with
  | .done => .done
  | .failed cause => .failed cause
  | .pending ack => (Window.opened env c.state (c.time + r.latency) ack).verdict

/-- An acknowledgement that follows before the fade and the timeout are over is in time, if it does
not come in the far future or after the last tick. -/
theorem Reply.verdict_of_span {c : Call} {r : Reply} {span : Duration} {ack : Ack}
    (h : r.outcome = .pending (some (span, ack)))
    (hspan : span ≤ c.state.fadeDuration + env.ackTimeout) (hfar : span ≤ farFuture)
    (hrange : c.time + r.latency + span ≤ lastTick) :
    r.verdict env c = .told ack := by
  rw [verdict, h]
  exact if_pos (add_le_alarm hspan hfar hrange)

/-- **A window that is looked at in time tells its verdict.** -/
theorem Window.error_of_result {w : Window} {now : Instant} {result : Except DeviceError Unit}
    (hnow : now ≤ w.due) (h : w.result? env now = some result) :
    Queue.error? result = w.verdict.error? env true := by
  obtain ⟨ack, closes⟩ := w
  cases ack with
  | none =>
    have hlate : (if closes ≤ now then some (.error (.ackTimeout env.ackTimeout)) else none)
        = some result := h
    split at hlate
    · rw [← Option.some.inj hlate]
      rfl
    · exact absurd hlate nofun
  | some a =>
    obtain ⟨t, ack⟩ := a
    have hdue : now ≤ t ∧ now ≤ closes := Nat.le_min.mp hnow
    unfold Window.result? at h
    simp only [Option.filter_some, decide_eq_true_eq] at h
    by_cases hcome : t ≤ now
    · -- it has come, and the window is still open
      rw [if_pos hcome] at h
      obtain rfl := Option.some.inj h
      simp only [Window.verdict, if_pos (Nat.le_trans hcome hdue.2)]
      rfl
    · rw [if_neg hcome] at h
      simp only at h
      split at h
      · next hclosed =>
        have hlate : ¬t ≤ closes := fun hle => hcome (Nat.le_trans hle hclosed)
        obtain rfl := Option.some.inj h
        simp only [Window.verdict, if_neg hlate]
        rfl
      · exact absurd h nofun

/-- A call that is known to have come to something when it returns came to its verdict. -/
theorem Queue.error_of_answer {c : Call} {r : Reply} {result : Except DeviceError Unit}
    (h : afterCall env c (c.time + r.latency) r.outcome = .inl result) :
    error? result = (r.verdict env c).error? env c.wait := by
  unfold Reply.verdict
  cases houtcome : r.outcome with
  | done =>
    rw [houtcome] at h
    rw [← Sum.inl.inj h]
    rfl
  | failed cause =>
    rw [houtcome] at h
    rw [← Sum.inl.inj h]
    rfl
  | pending ack =>
    rw [houtcome] at h
    cases hwait : c.wait with
    | false =>
      simp only [afterCall, hwait, Bool.false_eq_true, if_false] at h
      rw [← Sum.inl.inj h]
      exact (Window.verdict_unread _).symm
    | true =>
      simp only [afterCall, hwait, if_true] at h
      cases hresult : (Window.opened env c.state (c.time + r.latency) ack).result? env
          (c.time + r.latency) with
      | none =>
        rw [hresult] at h
        cases h
      | some known =>
        rw [hresult] at h
        rw [← Sum.inl.inj h]
        exact Window.error_of_result (Window.le_due ..) hresult

/-! ### Worlds and queues -/

namespace World

/-- The gateway was called and replied in a certain way, given all that happened before. -/
def Replied (env : Environment) (w : World) (c : Call) (r : Reply) : Prop :=
  ∃ history : Journal, ⟨c.time, .called c⟩ :: history <:+ w.journal ∧ r = env.gateway history c

/-- What is written down of each call is the verdict of the gateway's reply. -/
def Judged (env : Environment) (w : World) : Prop :=
  ∀ x ∈ w.see Entry.settled?, ∃ r, w.Replied env x.1 r ∧
    x.2 = (r.verdict env x.1).error? env x.1.wait

variable {w w' : World}

theorem Replied.mono {c : Call} {r : Reply} (h : w.Replied env c r)
    (hjournal : w.journal <:+ w'.journal) : w'.Replied env c r := by
  obtain ⟨history, hhistory, hr⟩ := h
  exact ⟨history, hhistory.trans hjournal, hr⟩

/-- Nothing that was not written before needs a verdict. -/
theorem Judged.of_see (h : w.Judged env) (hjournal : w.journal <:+ w'.journal)
    (hsee : w'.see Entry.settled? = w.see Entry.settled?) : w'.Judged env := by
  intro x hx
  rw [hsee] at hx
  obtain ⟨r, hr, hverdict⟩ := h x hx
  exact ⟨r, hr.mono hjournal, hverdict⟩

/-- When a call is settled, what it came to has to be its verdict. -/
theorem Judged.settle {c : Call} {result : Except DeviceError Unit} {r : Reply}
    (h : w.Judged env) (hr : w.Replied env c r)
    (hverdict : Queue.error? result = (r.verdict env c).error? env c.wait) :
    (Queue.settle env c result w).2.Judged env := by
  have hops : Ops w (Queue.settle env c result w).2 := Queue.settle_ops ..
  have hsettled : (Queue.settle env c result w).2.see Entry.settled?
      = w.see Entry.settled? ++ [(c, Queue.error? result)] := by
    rw [Queue.see_settle rfl]
    simp [Entry.settled?]
  intro x hx
  rw [hsettled] at hx
  rcases List.mem_append.mp hx with hx | hx
  · obtain ⟨r, hr, hverdict⟩ := h x hx
    exact ⟨r, hr.mono hops.journal, hverdict⟩
  · rw [List.mem_singleton.mp hx]
    exact ⟨r, hr.mono hops.journal, hverdict⟩

end World

namespace Queue

/-- What a queue keeps of a reply. -/
def Judged (env : Environment) (w : World) : Queue → Prop
  | .calling c _ outcome returns => ∃ r, w.Replied env c r ∧ outcome = r.outcome ∧
      returns = c.time + r.latency
  | .awaiting c _ window => c.wait = true ∧ ∃ r ack, w.Replied env c r ∧
      r.outcome = .pending ack ∧ window = .opened env c.state (c.time + r.latency) ack
  | .ready .. | .ended _ => True

theorem Judged.mono {q : Queue} {w w' : World} (h : q.Judged env w)
    (hjournal : w.journal <:+ w'.journal) : q.Judged env w' := by
  cases q with
  | calling =>
    obtain ⟨r, hr, hrest⟩ := h
    exact ⟨r, hr.mono hjournal, hrest⟩
  | awaiting =>
    obtain ⟨hwait, r, ack, hr, hrest⟩ := h
    exact ⟨hwait, r, ack, hr.mono hjournal, hrest⟩
  | _ => trivial

/-- **A queue that is not late keeps the reply until its verdict is written down.** -/
theorem Move.judged {q q' : Queue} {w w' : World} (h : Move env q w q' w')
    (hpunctual : ∀ t ∈ q.due, w.now ≤ t) (hw : w.Judged env) (hq : q.Judged env w) :
    w'.Judged env ∧ q'.Judged env w' := by
  have hnext : ∀ (call : Call) (left : ℕ) (flow : Option Flow) (v : World),
      (next call left flow).Judged env v := by
    intro call left flow v
    cases flow <;> trivial
  cases h with
  | finish => exact ⟨hw, trivial⟩
  | halt => exact ⟨hw, trivial⟩
  | @call call c left w hgoing hc =>
    have htime : c.time = w.now := by rw [hc]
    have hjournal : (w.note (.called c)).journal <:+ (w.call env c).journal :=
      journal_cancelIf _ _
    refine ⟨hw.of_see (call_ops hgoing).journal (see_call_none _ _ rfl rfl), ?_⟩
    exact ⟨_, ⟨w.journal, htime ▸ hjournal, rfl⟩, rfl, by rw [htime]⟩
  | @await call left outcome returns window w hr ha =>
    have hops : Ops w (w.note (.returned call)) := note_ops rfl fun _ => rfl
    refine ⟨hw.of_see hops.journal (see_note_none _ rfl), ?_⟩
    obtain ⟨r, hreplied, houtcome, hreturns⟩ := hq
    -- the call returns when it was to return, and its window is opened then
    have hnow : w.now = call.time + r.latency :=
      hreturns ▸ Nat.le_antisymm (hpunctual returns rfl) hr
    rcases afterCall_cases env call w.now outcome with ⟨_, h, -⟩ | ⟨ack, hack, hwait, h⟩
    · rw [ha] at h
      cases h
    · obtain rfl := Sum.inr.inj (ha.symm.trans h)
      refine ⟨hwait, r, ack, hreplied.mono hops.journal, houtcome.symm.trans hack, ?_⟩
      rw [hnow]
  | @answer call left outcome returns result w hr ha =>
    have hops : Ops w (w.note (.returned call)) := note_ops rfl fun _ => rfl
    obtain ⟨r, hreplied, houtcome, hreturns⟩ := hq
    have hnow : w.now = call.time + r.latency :=
      hreturns ▸ Nat.le_antisymm (hpunctual returns rfl) hr
    rw [hnow, houtcome] at ha
    have hnoted := hw.of_see hops.journal (see_note_none _ rfl)
    exact ⟨hnoted.settle (hreplied.mono hops.journal) (error_of_answer ha), hnext ..⟩
  | @acknowledge call left window result w ha =>
    obtain ⟨hwait, r, ack, hreplied, houtcome, rfl⟩ := hq
    have hverdict : error? result = (r.verdict env call).error? env call.wait := by
      rw [hwait, Reply.verdict, houtcome]
      exact Window.error_of_result (hpunctual _ rfl) ha
    exact ⟨hw.settle hreplied hverdict, hnext ..⟩

end Queue

/-! ### Runs -/

/-- What is written down of calls, and what queues keep, are the verdicts of replies. -/
structure Machine.Judged (env : Environment) (m : Machine) : Prop where
  world : m.world.Judged env
  queues : ∀ q ∈ m.activity.serving, q.Judged env m.world

namespace Machine

theorem Judged.of_world {a : Activity} {w w' : World} (h : Judged env ⟨a, w⟩)
    (hops : Ops w w') (hsee : w'.see Entry.settled? = w.see Entry.settled?) :
    Judged env ⟨a, w'⟩ where
  world := h.world.of_see hops.journal hsee
  queues q hq := (h.queues q hq).mono hops.journal

/-- A move of an activity in which nothing is late. -/
theorem Judged.act {a a' : Activity} {w w' : World} {places : List Path} (h : Judged env ⟨a, w⟩)
    (hops : Ops w w') (hserves : Activity.Serves env places w w' a.serving a'.serving)
    (hpunctual : ∀ q ∈ a.serving, ∀ t ∈ q.due, w.now ≤ t) : Judged env ⟨a', w'⟩ := by
  have hmove : ∀ q ∈ a.serving, ∀ q', Queue.Move env q w q' w' →
      w'.Judged env ∧ q'.Judged env w' :=
    fun q hmem q' hq => hq.judged (hpunctual q hmem) h.world (h.queues q hmem)
  constructor
  · cases hserves with
    | rests hwork _ => exact h.world.of_see hops.journal (see_of_base Entry.settled?_work hwork)
    | @serves q q' before after hq hx _ =>
      exact (hmove q (hx ▸ List.mem_append_right _ List.mem_cons_self) q' hq).1
    | @begins path t before after _ _ _ _ _ hw' =>
      refine h.world.of_see hops.journal ?_
      rw [hw']
      exact Activity.see_announce_none rfl (fun _ => rfl) (fun _ => rfl) (fun _ _ => rfl)
        (fun _ _ => rfl) t w
  · refine hserves.forall (fun q hq => (h.queues q hq).mono hops.journal)
      (fun q hmem q' hq => (hmove q hmem q' hq).2) fun path t _ q hq => ?_
    -- queues that begin have made no call yet
    obtain ⟨d, -, rfl⟩ := List.mem_map.mp hq
    trivial

end Machine

namespace Program

variable {p : Program} {m : Machine}

/-- **What calls come to in a run are the verdicts of the replies.** -/
theorem Runs.judged (h : p.Runs env m) : m.Judged env := by
  induction h with
  | refl =>
    refine ⟨fun x hx => ?_, fun q hq => ?_⟩
    · rw [start_world, see_firstWorld rfl] at hx
      exact absurd hx List.not_mem_nil
    · rw [start_serving] at hq
      exact absurd hq List.not_mem_nil
  | tail hprev htick ih =>
    have hruns : p.Runs env _ := hprev
    cases htick with
    | act ha =>
      exact ih.act ha.ops (ha.serving hruns.reaches.ready hruns.reaches.arranged)
        hruns.serving_punctual
    | turn a w => exact ih.of_world (.single (.turn w)) rfl
    | cancel a w => exact ih.of_world (.single (.cancel _ w)) (see_cancelIf w rfl _)
    | wait => exact ih.of_world (.single (.clock _ _)) rfl

end Program

end Lightshow
