import Lightshow.Bridge.Gateway
import Lightshow.Proofs.Bridge.Body
import Lightshow.Proofs.Time.Promises
import Lightshow.Proofs.Time.Schedule
import Lightshow.Proofs.Written.Paths

/-!
# Waiting for acknowledgements

A transition may wait for the acknowledgements of its devices.  For each of its calls a window
opens when the call returns.  It stays open until the fade of the state is over and a timeout has
passed, to the next whole millisecond, since alarms ring on those only; and it has to be a span that
fits.  A call ends with its acknowledgement, whatever that says, if this comes before the window
closes, and else with the window, as an error that names the timeout.

A bridge acknowledges a state that it has taken when the fade is over, for which it sets an alarm of
its own, and the fade that it is told is the one that the window reckons with.  So to wait for a
bridge is never over before the fade is.  Nor does it fail, as long as the two alarms do not ring at
one instant.

## Main definitions

* `Program.Settles` — what becomes of the calls of a run.
* `BridgeSettings.Takes` — a bridge takes the states that it is given.
* `Call.Clear` — the alarm for a fade and that for the window do not ring at one instant.

## Main results

* `Program.Runs.expects`, `Program.Runs.settles` — the calls of a run.
* `BridgeSettings.mayEnd_of_taken` — a call to a bridge.
* `Program.waits_for_acknowledgements` — **what becomes of the calls of a run, and of those to a
  bridge.**
-/

namespace Lightshow

open World

variable {env : Environment}

/-! ### Calls of a run -/

/-- What becomes of the calls of a run that is over. -/
structure Program.Settles (env : Environment) (p : Program) (result : RunResult) (w : World) :
    Prop where
  /-- Each call gets a reply. -/
  calls : (w.journal.replies env).map Prod.fst = w.journal.calls.reverse
  /-- Each call ends once, and as its reply allows. -/
  endings : ∃ promised, w.journal.Allows env promised ∧ w.journal.endings.Perm promised
  /-- The failures are the references that mean nothing, and the errors of calls that do not end
  the run. -/
  failures : result.failures.Perm ((w.see Entry.dispatched?).flatMap (unresolved env)
    ++ w.journal.endings.filterMap fun e => e.call.failure? e.error)
  /-- The other errors do. -/
  fatal : ∀ e ∈ w.journal.endings, ∀ cause, e.call.fatal? e.error = some cause →
    result.status = .fatal
  /-- A device is called again when the call before has ended. -/
  resumes : ∀ c ∈ w.journal.calls, w.Resumes c c.time
  /-- If nothing ends the run before, it does all that was dispatched. -/
  completed : w.cancelled = false → (∀ e, ¬p.Ruin w e) → result.status = .completed ∧
    (w.journal.calls.map Call.errand).Perm ((w.see Entry.dispatched?).flatMap env.errands)

namespace Journal

theorem map_endings (j : Journal) : j.endings.map (fun e => (e.call, e.error))
    = (j.entries.filterMap Entry.settled?).reverse := by
  have hview : ∀ r : Record, r.ending?.map (fun e => (e.call, e.error)) = r.entry.settled? := by
    intro r
    rw [Record.ending?, Option.map_map]
    exact Option.map_id_apply
  rw [endings, List.map_filterMap, funext hview, entries, List.filterMap_map,
    ← List.filterMap_reverse, List.reverse_reverse]
  rfl

end Journal

namespace Program

variable {p : Program} {m : Machine} {result : RunResult} {flow : Flow} {w : World}

/-- A call that ends with an error which ends the run is its ruin. -/
theorem ruin_of_ending {e : Ending} (he : e ∈ w.journal.endings) {cause : RunError}
    (hcause : e.call.fatal? e.error = some cause) : p.Ruin w cause := by
  refine ruin_iff.mpr (.inr ?_)
  have hsettled : (e.call, e.error) ∈ w.see Entry.settled? := by
    rw [see, entries, ← List.mem_reverse, ← Journal.map_endings]
    exact List.mem_map_of_mem (f := fun e : Ending => (e.call, e.error)) he
  obtain ⟨entry, hentry, hview⟩ := List.mem_filterMap.mp hsettled
  refine List.mem_filterMap.mpr ⟨entry, hentry, ?_⟩
  cases entry with
  | settled c error =>
    obtain ⟨rfl, rfl⟩ := Prod.mk.inj (Option.some.inj hview)
    exact hcause
  | _ => cases hview

/-- **At any time of a run** each call has ended as its reply allows, or is to end so later on. -/
theorem Runs.expects (h : p.Runs env m)
    (hroom : ∀ x ∈ p.transitions, x.2.wait = true →
      (x.2.state.fadeDuration + env.ackTimeout).Representable) :
    ∃ expected promised : List Ending, m.world.journal.Allows env promised ∧
      (m.world.journal.endings ++ expected).Perm promised ∧
      ∀ e ∈ expected, m.world.now ≤ e.time := by
  refine ⟨pledged env m.activity.serving, _, h.reaches.allows hroom, h.keeping.symm,
    fun e he => ?_⟩
  obtain ⟨q, hq, hpromise⟩ := List.mem_filterMap.mp he
  cases q with
  | calling c left outcome returns =>
    obtain rfl := Option.some.inj hpromise
    exact Nat.le_trans (h.serving_punctual _ hq returns rfl) (Queue.le_finishes ..)
  | awaiting c left window =>
    obtain rfl := Option.some.inj hpromise
    exact h.serving_punctual _ hq window.due rfl
  | _ => cases hpromise

/-- The failures of a run, by the endings of its calls. -/
theorem Runs.failures (h : p.Runs env m) :
    m.world.journal.failures.Perm ((m.world.see Entry.dispatched?).flatMap (unresolved env)
      ++ m.world.journal.endings.filterMap fun e => e.call.failure? e.error) := by
  have haccounted := Machine.Moves.accounted h.reaches (start_accounted env p)
  rw [Journal.failures_eq]
  refine haccounted.balanced.failures.trans (List.Perm.append_left _ ?_)
  have hendings : (m.world.see Entry.settled?).Perm
      (m.world.journal.endings.map fun e => (e.call, e.error)) := by
    rw [Journal.map_endings]
    exact (List.reverse_perm _).symm
  refine (hendings.filterMap _).trans (.of_eq ?_)
  rw [List.filterMap_map]
  rfl

/-- **What becomes of the calls of a run**, before it is told that the run stops. -/
theorem Runs.settles (h : p.Runs env ⟨.ended flow, w⟩)
    (hroom : ∀ x ∈ p.transitions, x.2.wait = true →
      (x.2.state.fadeDuration + env.ackTimeout).Representable) :
    p.Settles env ⟨flow.status, w.journal.failures, flow.error?⟩ w where
  calls := by
    rw [Journal.calls_eq]
    exact Journal.map_replies env w.journal
  endings := ⟨_, h.reaches.allows hroom, h.endings rfl⟩
  failures := h.failures
  fatal e he cause hcause := by
    obtain ⟨hfatal, -⟩ := flow_of_reaches h.reaches
    have hflow : flow.isFatal = true := hfatal.mpr ⟨cause, ruin_of_ending he hcause⟩
    show flow.status = .fatal
    cases flow with
    | fatal e => rfl
    | _ => cases hflow
  resumes c hc := by
    rw [Journal.calls_eq] at hc
    exact h.resumes.calls c hc
  completed hcalm hnone := by
    obtain ⟨rfl, hgoing⟩ := completed_of_unruined h.reaches hcalm hnone
    refine ⟨rfl, ?_⟩
    rw [Journal.calls_eq]
    exact h.reaches.errands rfl hgoing

/-- Nothing of this changes when it is told that the run stops. -/
theorem Settles.stop (h : p.Settles env result w) (id : String) (status : Status) :
    p.Settles env result (w.emit env (.stopped id status)) := by
  have hgrows : w.Grows (w.emit env (.stopped id status)) := emit_grows _ _
  have hsee : ∀ {α : Type} {view : Entry → Option α}, view .cancelled = none →
      view (.event (.stopped id status)) = none →
      (w.emit env (.stopped id status)).see view = w.see view :=
    fun hv he => see_emit_none _ _ hv he
  have hcalls : (w.emit env (.stopped id status)).journal.calls = w.journal.calls := by
    rw [Journal.calls_eq, Journal.calls_eq]
    exact hsee rfl rfl
  have hendings := hgrows.endings (hsee rfl rfl)
  have hreplies := @World.Grows.replies env _ _ hgrows (hsee rfl rfl)
  refine ⟨?_, ?_, ?_, ?_, fun c hc => ?_, fun hcalm hnone => ?_⟩
  · rw [hcalls, hreplies]
    exact h.calls
  · obtain ⟨promised, hallows, hperm⟩ := h.endings
    refine ⟨promised, ?_, hendings ▸ hperm⟩
    rw [Journal.Allows, hreplies]
    exact hallows
  · rw [hsee rfl rfl, hendings]
    exact h.failures
  · rw [hendings]
    exact h.fatal
  · rw [hcalls] at hc
    refine (h.resumes c hc).mono ?_
    obtain ⟨-, new, hnew, -⟩ := hgrows
    exact hnew ▸ List.suffix_append _ _
  · rw [emit, cancelled_cancelIf] at hcalm
    rw [hcalls, hsee rfl rfl]
    refine h.completed (Bool.or_eq_false_iff.mp hcalm).1 fun e he => hnone e ?_
    rw [ruin_iff, hsee rfl rfl]
    exact ruin_iff.mp he

end Program

/-! ### Bridges -/

/-- A bridge takes all states that a run gives to it at some place. -/
def BridgeSettings.Takes (b : BridgeSettings) (carry : Carrier) (w : World) (path : Path) : Prop :=
  ∀ t c history, ⟨t, .called c⟩ :: history <:+ w.journal → c.path = path →
    ∃ status body, (carry history (b.request c.device c.state)).2 = .answered status body ∧
      Response.judge status body = .ok ()

/-- The fade time is always told. -/
theorem DeviceState.field?_body (s : DeviceState) :
    Response.field? "transitiontime" s.body = some (.int s.fade) :=
  s.field?_name_body .fade

/-- After a call has returned at an instant, the alarm for the fade of its state rings before the
last tick, and before the one for its window: the call returns at a whole millisecond, or the timeout
is at least one. -/
structure Call.Clear (env : Environment) (c : Call) (returns : Instant) : Prop where
  ticks : returns + c.state.fadeDuration + Duration.perMilli ≤ lastTick
  apart : Duration.perMilli ∣ returns ∨ Duration.perMilli ≤ env.ackTimeout

/-- The alarm for a fade does not ring after the one for the window. -/
theorem DeviceState.fade_alarm_le (env : Environment) (s : DeviceState) (returns : Instant) :
    alarm returns s.fadeDuration ≤ alarm returns (s.fadeDuration + env.ackTimeout) :=
  alarm_mono (Nat.le_add_right _ _) s.fade_le_farFuture

/-- **And it rings before it**, if the two are clear of each other. -/
theorem Call.Clear.fade_alarm_lt {c : Call} {returns : Instant} (h : c.Clear env returns)
    (htimeout : 0 < env.ackTimeout) : alarm returns c.state.fadeDuration
      < alarm returns (c.state.fadeDuration + env.ackTimeout) := by
  have hfar : c.state.fadeDuration + Duration.perMilli ≤ farFuture :=
    Nat.le_trans (Nat.add_le_add_right c.state.fadeDuration_le _) (by decide)
  rcases h.apart with hreturns | hlong
  · have hrings : wholeMillis (returns + c.state.fadeDuration) = returns + c.state.fadeDuration :=
      wholeMillis_of_dvd (Nat.dvd_add hreturns c.state.dvd_fadeDuration)
    have hnext : wholeMillis (returns + c.state.fadeDuration)
        < returns + c.state.fadeDuration + 1 := Nat.lt_succ_of_le (Nat.le_of_eq hrings)
    have hlonger : c.state.fadeDuration + 1 ≤ c.state.fadeDuration + env.ackTimeout :=
      Nat.add_le_add_left htimeout _
    exact alarm_lt hlonger (by decide) hnext hfar h.ticks
  · exact alarm_lt (Nat.add_le_add_left hlong _) (Nat.le_refl _) (wholeMillis_lt _) hfar h.ticks

/-- A state that the bridge has taken is waited for until the alarm for the fade has rung.  This is
no failure, if the window closes later. -/
theorem BridgeSettings.mayEnd_of_taken {b : BridgeSettings} {carry : Carrier} {c : Call}
    {history : Journal} {status : ℕ} {body : String} (hgateway : env.gateway = b.gateway carry)
    (htimeout : 0 < env.ackTimeout) (hwait : c.wait = true)
    (hanswered : (carry history (b.request c.device c.state)).2 = .answered status body)
    (htaken : Response.judge status body = .ok ()) {e : Ending}
    (h : c.MayEnd env (env.gateway history c) e) :
    e.time = spanEnds (c.returns (env.gateway history c)) c.state.fadeDuration ∧
      (c.Clear env (c.returns (env.gateway history c)) → e.error = none) := by
  have houtcome : (env.gateway history c).outcome = if c.state.fadeDuration = 0 then .done
      else .pending (some (fadeAlarm (c.returns (env.gateway history c)) c.state, .succeeded)) := by
    rw [hgateway]
    show Delivery.dispatch c.state _ (carry history (b.request c.device c.state)).2 = _
    rw [hanswered, Delivery.dispatch, htaken]
    rfl
  generalize env.gateway history c = r at h houtcome ⊢
  have hrings : c.returns r + fadeAlarm (c.returns r) c.state
      = alarm (c.returns r) c.state.fadeDuration := Nat.add_sub_cancel' (le_alarm _ _)
  by_cases hfade : c.state.fadeDuration = 0
  · -- without a fade there is nothing to wait for
    rw [if_pos hfade] at houtcome
    have hends : spanEnds (c.returns r) c.state.fadeDuration = c.returns r := if_pos hfade
    rw [hends]
    cases h with
    | done => exact ⟨rfl, fun _ => rfl⟩
    | failed h | unread h | acknowledged h | late h => exact absurd (houtcome.symm.trans h) nofun
  · rw [if_neg hfade] at houtcome
    have hends : spanEnds (c.returns r) c.state.fadeDuration
        = alarm (c.returns r) c.state.fadeDuration := if_neg hfade
    rw [hends]
    cases h with
    | done h | failed h => exact absurd (houtcome.symm.trans h) nofun
    | unread _ hread => rw [hwait] at hread; cases hread
    | acknowledged h =>
      cases houtcome.symm.trans h
      exact ⟨hrings, fun _ => rfl⟩
    | late h _ hwindow hlate =>
      cases houtcome.symm.trans h
      have hlate := hlate _ rfl
      rw [hrings, Environment.eq_of_window? hwindow] at hlate
      rw [Environment.eq_of_window? hwindow]
      -- both alarms ring at one instant, so they are not clear of each other
      refine ⟨Nat.le_antisymm hlate (c.state.fade_alarm_le env _), fun hclear => ?_⟩
      exact absurd hlate (Nat.not_le_of_lt (hclear.fade_alarm_lt htimeout))

namespace Program

variable {p : Program} {result : RunResult} {w : World}

/-- A call whose ending is no failure is not among the failures of its step. -/
theorem Settles.unresolved_of_endings (h : p.Settles env result w) {path : Path}
    (hnone : ∀ e ∈ w.journal.endings, e.call.path = path → e.error = none) :
    ∀ f ∈ result.failures, f.step = path.text → ∃ cause, f.error = .unresolved cause := by
  intro f hf hstep
  rcases List.mem_append.mp (h.failures.mem_iff.mp hf) with hf | hf
  · obtain ⟨d, -, hf⟩ := List.mem_flatMap.mp hf
    obtain ⟨r, -, hf⟩ := List.mem_filterMap.mp hf
    unfold DeviceRef.failure? at hf
    split at hf
    · cases hf
    · next cause _ =>
      cases hf
      exact ⟨cause, rfl⟩
  · obtain ⟨e, he, hfailure⟩ := List.mem_filterMap.mp hf
    cases herror : e.error with
    | none =>
      rw [herror] at hfailure
      cases hfailure
    | some error =>
      rw [herror] at hfailure
      have hpath : f.step = e.call.path.text := by
        simp only [Call.failure?] at hfailure
        split at hfailure
        · cases hfailure
        · rw [← Option.some.inj hfailure]
      have hsame : e.call.path = path := Path.text_injective (hpath.symm.trans hstep)
      rw [hnone e he hsame] at herror
      cases herror

/-- **What becomes of the calls of a run, and of those to a bridge.**  Let the fades of the
transitions that wait leave room for the timeout.  Then each call of a run ends once, or is still to
end.  One that is pending and waited for ends with its acknowledgement if that comes before the
window closes, which is when the fade and the timeout are over, to the next whole millisecond: well,
with the error that it tells, or as one that was dropped.  If nothing comes until then it ends with
the window, with an error that names the timeout.  Errors that end the run do so, and the others are
recorded, and the device and the run go on.

If the gateway is a bridge that takes the states of a transition that waits, and the timeout is not
zero, then each call for that transition lasts until the fade that the bridge is told is over after it
has returned, and has no error, and nothing fails but references that mean no device.  This is so as
long as there are ticks, and the alarms for the fade and for the window do not ring at one instant. -/
theorem waits_for_acknowledgements
    (hroom : ∀ x ∈ p.transitions, x.2.wait = true →
      (x.2.state.fadeDuration + env.ackTimeout).Representable) :
    (∀ m, p.Runs env m → ∃ expected promised : List Ending, m.world.journal.Allows env promised ∧
      (m.world.journal.endings ++ expected).Perm promised ∧
      ∀ e ∈ expected, m.world.now ≤ e.time) ∧
    ∀ fuel result w, p.run? env fuel = some (result, w) → p.Settles env result w ∧
      ∀ (b : BridgeSettings) (carry : Carrier), env.gateway = b.gateway carry →
        0 < env.ackTimeout →
        ∀ path t, (path, t) ∈ p.transitions → t.wait = true → b.Takes carry w path →
          (∀ x ∈ w.journal.replies env, x.1.path = path → ∃ (n : ℕ) (e : Ending),
            Response.field? "transitiontime" (b.request x.1.device x.1.state).body
              = some (.int n) ∧
            e ∈ w.journal.endings ∧ e.call = x.1 ∧
            e.time = spanEnds (x.1.returns x.2) (Duration.millis (n * 100)) ∧
            (x.1.returns x.2 + Duration.millis (n * 100) ≤ lastTick →
              x.1.returns x.2 + Duration.millis (n * 100) ≤ e.time) ∧
            (x.1.Clear env (x.1.returns x.2) → e.error = none)) ∧
          ((∀ x ∈ w.journal.replies env, x.1.path = path → x.1.Clear env (x.1.returns x.2)) →
            ∀ f ∈ result.failures, f.step = path.text → ∃ cause, f.error = .unresolved cause) := by
  refine ⟨fun m h => h.expects hroom, fun fuel result w hrun => ?_⟩
  obtain ⟨flow, w', h, hresult⟩ := runs_of_run? hrun
  obtain ⟨rfl, rfl⟩ := Prod.mk.inj hresult
  have hsettles := (h.settles hroom).stop env.runId flow.status
  refine ⟨hsettles, fun b carry hgateway htimeout path t ht hwait htakes => ?_⟩
  have hgrows : w'.Grows (w'.emit env (.stopped env.runId flow.status)) := emit_grows _ _
  rw [hgrows.endings (see_emit_none _ _ rfl rfl), hgrows.replies (see_emit_none _ _ rfl rfl)]
  -- the calls for the transition end when the alarm for the fade has rung
  have hends : ∀ x ∈ w'.journal.replies env, x.1.path = path →
      (x.1.ends env x.2).time = spanEnds (x.1.returns x.2) x.1.state.fadeDuration ∧
        (x.1.Clear env (x.1.returns x.2) → (x.1.ends env x.2).error = none) := by
    intro x hx hpath
    obtain ⟨c, r⟩ := x
    obtain ⟨s, history, hhistory, rfl⟩ := Journal.mem_replies hx
    have hsuffix := hhistory.trans (@journal_emit env (.stopped env.runId flow.status) w')
    obtain ⟨status, body, hanswered, htaken⟩ := htakes s c history hsuffix hpath
    have hcall : c ∈ w'.see Entry.call? := Journal.call_of_replies hx
    have hwait : c.wait = true := by
      obtain ⟨t', ht', -, hwait'⟩ := h.reaches.belongs.calls c hcall
      have hpath' : (path, t') ∈ p.transitions := hpath ▸ ht'
      rw [hwait', ← transitions_unique ht hpath']
      exact hwait
    exact b.mayEnd_of_taken hgateway htimeout hwait hanswered htaken
      (Call.mayEnd_ends _ (h.reaches.room hroom hcall))
  have hmem : ∀ e, e ∈ w'.journal.endings ↔ ∃ x ∈ w'.journal.replies env, x.1.ends env x.2 = e :=
    fun e => (h.endings rfl).mem_iff.trans List.mem_map
  refine ⟨fun x hx hpath => ?_, fun hclear => hsettles.unresolved_of_endings fun e he hpath => ?_⟩
  · obtain ⟨htime, hnone⟩ := hends x hx hpath
    refine ⟨x.1.state.fade, x.1.ends env x.2, x.1.state.field?_body, (hmem _).mpr ⟨x, hx, rfl⟩, rfl,
      htime, fun hrange => ?_, hnone⟩
    rw [htime]
    exact add_le_spanEnds x.1.state.fade_le_farFuture hrange
  · rw [hgrows.endings (see_emit_none _ _ rfl rfl)] at he
    obtain ⟨x, hx, rfl⟩ := (hmem e).mp he
    exact (hends x hx hpath).2 (hclear x hx hpath)

/-- A bridge that takes all states answers after half a millisecond and is told to fade for two
seconds.  The alarm for that is set between two milliseconds, and rings at the next one; the one for
the window rings a millisecond later. -/
theorem lamp_faded :
    let b : BridgeSettings := { address := "bridge", username := "user" }
    let carry : Carrier := fun _ _ => ⟨500000, .answered 200 "[]"⟩
    let env := { Environment.plain with gateway := b.gateway carry, ackTimeout := Duration.millis 1 }
    let p : Program := ⟨none, .transition
      { state := { transitionTime := some 20 }, devices := some [.light "lamp"], wait := true }⟩
    (∀ x ∈ p.transitions, x.2.wait = true →
      (x.2.state.fadeDuration + env.ackTimeout).Representable) ∧
    ∃ result w, p.run? env 5 = some (result, w) ∧ p.Settles env result w ∧
      0 < env.ackTimeout ∧ b.Takes carry w (.root .transition) ∧
      w.journal.endings.map (fun e => (e.time, e.error)) = [(Duration.millis 2001, none)] ∧
      (∀ x ∈ w.journal.replies env, x.1.Clear env (x.1.returns x.2) ∧ ∃ (n : ℕ) (e : Ending),
        Response.field? "transitiontime" (b.request x.1.device x.1.state).body = some (.int n) ∧
        e ∈ w.journal.endings ∧ x.1.returns x.2 + Duration.millis (n * 100) ≤ e.time ∧
        e.error = none) ∧
      ∀ f ∈ result.failures, f.step = "transition" → ∃ cause, f.error = .unresolved cause := by
  intro b carry env p
  have hroom : ∀ x ∈ p.transitions, x.2.wait = true →
      (x.2.state.fadeDuration + env.ackTimeout).Representable := by decide +kernel
  have hseen : (p.run? env 5).map (fun x => (x.2.journal.endings.map fun e => (e.time, e.error),
      (x.2.journal.replies env).all fun y => decide (y.1.path = .root .transition ∧
        y.1.returns y.2 + y.1.state.fadeDuration + Duration.perMilli ≤ lastTick)))
      = some ([(Duration.millis 2001, none)], true) := by decide +kernel
  obtain ⟨⟨result, w⟩, hrun, hseen⟩ := Option.map_eq_some_iff.mp hseen
  obtain ⟨hendings, hreplies⟩ := Prod.mk.inj hseen
  have hreplies : ∀ x ∈ w.journal.replies env, x.1.path = .root .transition ∧
      x.1.Clear env (x.1.returns x.2) := by
    intro x hx
    obtain ⟨hpath, hticks⟩ := of_decide_eq_true (List.all_eq_true.mp hreplies x hx)
    exact ⟨hpath, hticks, .inr (Nat.le_refl _)⟩
  have htakes : b.Takes carry w (.root .transition) :=
    fun _ _ _ _ _ => ⟨200, "[]", rfl, by decide +kernel⟩
  have htimeout : 0 < env.ackTimeout := by decide
  obtain ⟨hsettles, hbridge⟩ := (waits_for_acknowledgements hroom).2 5 result w hrun
  obtain ⟨hfades, hfailures⟩ := hbridge b carry rfl htimeout (.root .transition) _
    (List.mem_singleton_self _) rfl htakes
  refine ⟨hroom, result, w, hrun, hsettles, htimeout, htakes, hendings, fun x hx => ?_,
    hfailures fun x hx _ => (hreplies x hx).2⟩
  obtain ⟨hpath, hclear⟩ := hreplies x hx
  obtain ⟨n, e, hfield, he, -, -, hlasts, hnone⟩ := hfades x hx hpath
  -- the fade that is told is the one with which the alarms reckon
  obtain rfl : n = x.1.state.fade := by simpa using hfield.symm.trans x.1.state.field?_body
  exact ⟨hclear, x.1.state.fade, e, hfield, he,
    hlasts (Nat.le_trans (Nat.le_add_right _ Duration.perMilli) hclear.ticks), hnone hclear⟩

/-- An acknowledgement that comes a whole millisecond after the call is in time, although the fade
and the timeout were over half a millisecond before. -/
theorem lamp_acknowledged_late :
    let env := { Environment.plain with
      gateway := fun _ _ => ⟨0, .pending (some (1000000, .succeeded))⟩, ackTimeout := 500000 }
    let p : Program := ⟨none, .transition
      { state := { transitionTime := some 0 }, devices := some [.light "lamp"], wait := true }⟩
    ∃ result w, p.run? env 5 = some (result, w) ∧ result.failures = [] ∧
      ∃ c r, w.journal.replies env = [(c, r)] ∧ c.time = 0 ∧ c.wait = true ∧
        r = ⟨0, .pending (some (1000000, .succeeded))⟩ ∧
        c.state.fadeDuration + env.ackTimeout < 1000000 ∧
        w.journal.endings = [⟨c, 1000000, none⟩] := by
  intro env p
  let c : Call := ⟨0, .root .transition, ⟨.light, 1, "lamp"⟩, { transitionTime := some 0 }, true, 0⟩
  let r : Reply := ⟨0, .pending (some (1000000, .succeeded))⟩
  have hwindow : c.state.fadeDuration + env.ackTimeout < 1000000 := by decide +kernel
  have hseen : (p.run? env 5).map (fun x => (x.1.failures, x.2.journal.replies env,
      x.2.journal.endings)) = some ([], [(c, r)], [⟨c, 1000000, none⟩]) := by decide +kernel
  obtain ⟨⟨result, w⟩, hrun, hseen⟩ := Option.map_eq_some_iff.mp hseen
  obtain ⟨hfailures, hseen⟩ := Prod.mk.inj hseen
  obtain ⟨hreplies, hendings⟩ := Prod.mk.inj hseen
  exact ⟨result, w, hrun, hfailures, c, r, hreplies, rfl, rfl, rfl, hwindow, hendings⟩

end Program

end Lightshow
