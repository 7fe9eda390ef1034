import Lightshow.Proofs.Run.Errands
import Lightshow.Proofs.Time.Verdict

/-!
# How calls end

What becomes of a call is settled when the gateway is called: from its reply follow the instant at
which it will be known what the call came to, and the error, if there is one.  So each call of a
journal *promises* an ending.  In a run these promises are kept.  Each call ends once, neither
earlier nor later than promised, and with the error that was promised; and while it has not ended
a queue keeps the promise.

When a call ends without an error that ends the run, the device is called again at once if calls are
left for it.

## Main definitions

* `Ending`, `Call.ends` — when a call ends, and with which error.
* `Journal.replies`, `Journal.endings` — the gateway's replies, and what the calls came to.
* `Queue.promise?` — the ending that a queue waits for.
* `World.Resumes` — a call follows another one to the same device.

## Main results

* `Queue.Move.kept` — a move of a queue makes a promise, keeps one, or leaves it.
* `Program.Runs.endings` — **the calls of a run end as promised.**
* `Program.Runs.resumes` — **a call that is not the first follows the one before it at once.**
-/

namespace Lightshow

open World

variable {env : Environment}

/-! ### Promises -/

/-- When it is known what a call came to, and the error, if there is one. -/
structure Ending where
  call : Call
  time : Instant
  error : Option DeviceError
  deriving DecidableEq, Repr

/-- What a call comes to that returns at an instant, however long that takes. -/
def Dispatch.verdict (env : Environment) (c : Call) (returns : Instant) : Dispatch → Verdict
  | .done => .done
  | .failed cause => .failed cause
  | .pending ack => (Window.opened env c.state returns ack).verdict

/-- The ending of a call that returns at an instant. -/
def Dispatch.ends (env : Environment) (c : Call) (returns : Instant) (outcome : Dispatch) : Ending :=
  ⟨c, outcome.finishes env c returns, (outcome.verdict env c returns).error? env c.wait⟩

/-- The ending of a call that the gateway replies to. -/
def Call.ends (env : Environment) (c : Call) (r : Reply) : Ending :=
  r.outcome.ends env c (c.time + r.latency)

/-- The calls of a journal with the gateway's replies, the latest first. -/
def Journal.replies (env : Environment) : Journal → List (Call × Reply)
  | [] => []
  | r :: earlier =>
    match r.entry with
    | .called c => (c, env.gateway earlier c) :: Journal.replies env earlier
    | _ => Journal.replies env earlier

/-- The ending of a call that a record tells of. -/
def Record.ending? (r : Record) : Option Ending :=
  r.entry.settled?.map fun x => ⟨x.1, r.time, x.2⟩

/-- What the calls of a journal came to, the latest first. -/
def Journal.endings (j : Journal) : List Ending := j.filterMap Record.ending?

/-- What the calls of a journal are to come to, the latest first. -/
def Journal.promises (env : Environment) (j : Journal) : List Ending :=
  (j.replies env).map fun x => x.1.ends env x.2

/-- The ending that a queue waits for. -/
def Queue.promise? (env : Environment) : Queue → Option Ending
  | .calling c _ outcome returns => some (outcome.ends env c returns)
  | .awaiting c _ window => some ⟨c, window.due, window.verdict.error? env true⟩
  | .ready .. | .ended _ => none

namespace Journal

/-- Only calls get replies. -/
theorem replies_append {new old : Journal} (h : ∀ r ∈ new, r.entry.call? = none) :
    (new ++ old).replies env = old.replies env := by
  induction new with
  | nil => rfl
  | cons r new ih =>
    obtain ⟨hr, hnew⟩ := List.forall_mem_cons.mp h
    obtain ⟨time, entry⟩ := r
    rw [List.cons_append, replies]
    cases entry with
    | called c => exact absurd hr nofun
    | _ => exact ih hnew

theorem replies_call (w : World) (c : Call) : (w.call env c).journal.replies env
    = (c, env.gateway w.journal c) :: w.journal.replies env := by
  rw [World.call]
  unfold World.cancelIf
  split <;> rfl

/-- The calls that get replies are those of the journal. -/
theorem map_replies (env : Environment) (j : Journal) :
    (j.replies env).map Prod.fst = (j.entries.filterMap Entry.call?).reverse := by
  induction j with
  | nil => rfl
  | cons r j ih =>
    obtain ⟨time, entry⟩ := r
    have hentries : entries (⟨time, entry⟩ :: j) = entries j ++ [entry] := by simp [entries]
    rw [hentries, List.filterMap_append, List.reverse_append, ← ih, replies]
    cases entry <;> rfl

/-- A reply is given to a call after what stands before it. -/
theorem mem_replies {c : Call} {r : Reply} {j : Journal} (h : (c, r) ∈ j.replies env) :
    ∃ t history, ⟨t, .called c⟩ :: history <:+ j ∧ r = env.gateway history c := by
  induction j with
  | nil => exact absurd h List.not_mem_nil
  | cons record j ih =>
    obtain ⟨time, entry⟩ := record
    have hold : (c, r) ∈ replies env j →
        ∃ t history, ⟨t, .called c⟩ :: history <:+ ⟨time, entry⟩ :: j ∧ r = env.gateway history c := by
      intro h
      obtain ⟨t, history, hsuffix, hr⟩ := ih h
      exact ⟨t, history, hsuffix.trans (List.suffix_cons _ _), hr⟩
    rw [replies] at h
    cases entry with
    | called d =>
      rcases List.mem_cons.mp h with heq | h
      · obtain ⟨rfl, rfl⟩ := Prod.mk.inj heq
        exact ⟨time, j, List.suffix_refl _, rfl⟩
      · exact hold h
    | _ => exact hold h

/-- What is new of endings ends at the instant at which it is written. -/
theorem endings_append {new old : Journal} {now : Instant} (h : ∀ r ∈ new, r.time = now) :
    (new ++ old).endings = ((new.entries.filterMap Entry.settled?).reverse.map fun x =>
      (⟨x.1, now, x.2⟩ : Ending)) ++ old.endings := by
  have hnew : new.filterMap Record.ending?
      = (new.filterMap fun r => r.entry.settled?).map fun x => ⟨x.1, now, x.2⟩ := by
    rw [List.map_filterMap]
    refine List.filterMap_congr fun r hr => ?_
    rw [Record.ending?, h r hr]
  have hentries : (new.entries.filterMap Entry.settled?).reverse
      = new.filterMap fun r => r.entry.settled? := by
    rw [entries, List.filterMap_map, ← List.filterMap_reverse, List.reverse_reverse]
    rfl
  rw [endings, List.filterMap_append, hnew, hentries]
  rfl

end Journal

namespace World

variable {w w' : World}

/-- If no call has come to anything since then the endings are the same. -/
theorem Grows.endings (h : w.Grows w')
    (hsettled : w'.see Entry.settled? = w.see Entry.settled?) :
    w'.journal.endings = w.journal.endings := by
  obtain ⟨-, new, hnew, htimes⟩ := h
  have hnone : new.entries.filterMap Entry.settled? = [] := by
    rw [see_of_journal hnew] at hsettled
    exact List.append_right_eq_self.mp hsettled
  rw [hnew, Journal.endings_append htimes, hnone]
  rfl

/-- If no call has been made since then the replies are the same. -/
theorem Grows.replies (h : w.Grows w') (hcall : w'.see Entry.call? = w.see Entry.call?) :
    w'.journal.replies env = w.journal.replies env := by
  obtain ⟨-, new, hnew, -⟩ := h
  rw [hnew, Journal.replies_append (view_eq_none hnew hcall)]

end World

/-! ### Queues -/

namespace Queue

/-- What a move of a queue is to the endings of calls: nothing; a call is made, and promises to
end; or one ends as promised. -/
inductive Keeps (env : Environment) (q q' : Queue) (w w' : World) : Prop
  | rests (hsee : w'.see Entry.call? = w.see Entry.call?)
      (hsettled : w'.see Entry.settled? = w.see Entry.settled?)
      (hsame : q'.promise? env = q.promise? env)
  | promises (c : Call) (hsettled : w'.see Entry.settled? = w.see Entry.settled?)
      (hw' : w' = w.call env c) (hnone : q.promise? env = none)
      (hsome : q'.promise? env = some (c.ends env (env.gateway w.journal c)))
  | keeps (c : Call) (error : Option DeviceError) (hsee : w'.see Entry.call? = w.see Entry.call?)
      (hsettled : w'.see Entry.settled? = w.see Entry.settled? ++ [(c, error)])
      (hsome : q.promise? env = some ⟨c, w.now, error⟩) (hnone : q'.promise? env = none)

/-- What is known of a call when it returns is what it promised. -/
theorem error_of_return {c : Call} {now : Instant} {outcome : Dispatch}
    {result : Except DeviceError Unit} (h : afterCall env c now outcome = .inl result) :
    error? result = (outcome.verdict env c now).error? env c.wait := by
  have hreply : afterCall env { c with time := now } (now + 0) outcome = .inl result := by
    cases outcome <;> exact h
  have herror := error_of_answer (c := { c with time := now }) (r := ⟨0, outcome⟩) hreply
  rw [herror]
  cases outcome <;> rfl

/-- **A move of a queue that is not late makes a promise, keeps one, or leaves it.** -/
theorem Move.kept {q q' : Queue} {w w' : World} (h : Move env q w q' w')
    (hpunctual : ∀ t ∈ q.due, w.now ≤ t) : Keeps env q q' w w' := by
  have hnext : ∀ (call : Call) (left : ℕ) (flow : Option Flow),
      (next call left flow).promise? env = none := by
    intro call left flow
    cases flow <;> rfl
  have hsettles : ∀ (call : Call) (result : Except DeviceError Unit) (v : World),
      (settle env call result v).2.see Entry.call? = v.see Entry.call? ∧
        (settle env call result v).2.see Entry.settled?
          = v.see Entry.settled? ++ [(call, error? result)] := by
    intro call result v
    rw [see_settle rfl, see_settle rfl]
    simp [Entry.call?, Entry.settled?]
  cases h with
  | finish => exact .rests rfl rfl rfl
  | halt => exact .rests rfl rfl rfl
  | @call call c left w hgoing hc =>
    refine .promises c (see_call_none _ _ rfl rfl) rfl rfl ?_
    have htime : c.time = w.now := by rw [hc]
    rw [promise?, Call.ends, htime]
  | @await call left outcome returns window w hr ha =>
    refine .rests (see_note_none _ rfl) (see_note_none _ rfl) ?_
    obtain rfl : returns = w.now := Nat.le_antisymm hr (hpunctual returns rfl)
    -- the window tells when the call ends and what it comes to
    have hfinishes := finishes_of_window ha
    rcases afterCall_cases env call w.now outcome with ⟨_, h, -⟩ | ⟨ack, rfl, hwait, h⟩
    · rw [ha] at h
      cases h
    · obtain rfl := Sum.inr.inj (ha.symm.trans h)
      simp only [promise?, Dispatch.ends, hfinishes, hwait]
      rfl
  | @answer call left outcome returns result w hr ha =>
    obtain rfl : returns = w.now := Nat.le_antisymm hr (hpunctual returns rfl)
    obtain ⟨hcall, hsettled⟩ := hsettles call result (w.note (.returned call))
    refine .keeps call (error? result) (hcall.trans (see_note_none _ rfl))
      (hsettled.trans (congrArg (· ++ _) (see_note_none _ rfl))) ?_ (hnext ..)
    rw [promise?, Dispatch.ends, finishes_of_answer ha, error_of_return ha]
  | @acknowledge call left window result w ha =>
    have hdue : window.due = w.now :=
      Nat.le_antisymm (Window.due_le_of_result ha) (hpunctual _ rfl)
    obtain ⟨hcall, hsettled⟩ := hsettles call result w
    refine .keeps call (error? result) hcall hsettled ?_ (hnext ..)
    rw [promise?, hdue, Window.error_of_result hdue.ge ha]

end Queue

/-! ### What is served -/

/-- The endings that some queues wait for. -/
def pledged (env : Environment) (x : List Queue) : List Ending := x.filterMap (Queue.promise? env)

theorem pledged_append (x y : List Queue) :
    pledged env (x ++ y) = pledged env x ++ pledged env y := List.filterMap_append

theorem pledged_cons (q : Queue) (x : List Queue) :
    pledged env (q :: x) = (q.promise? env).toList ++ pledged env x := by
  rw [pledged, List.filterMap_cons, pledged]
  cases q.promise? env <;> rfl

/-- A queue that has ended waits for nothing. -/
theorem pledged_live (q : Queue) : pledged env q.live = (q.promise? env).toList := by
  cases q <;> rfl

/-- Queues that begin have promised nothing. -/
theorem pledged_newQueues (now : Instant) (path : Path) (t : Transition)
    (devices : List (Device × ℕ)) : pledged env (Activity.newQueues now path t devices) = [] := by
  refine List.filterMap_eq_nil_iff.mpr fun q hq => ?_
  obtain ⟨d, -, rfl⟩ := List.mem_map.mp hq
  rfl

/-- The promises of a world are kept, or some queues wait for their endings. -/
def World.Keeping (env : Environment) (w : World) (x : List Queue) : Prop :=
  (w.journal.promises env).Perm (w.journal.endings ++ pledged env x)

namespace World

variable {w w' : World} {x : List Queue}

/-- What does not concern calls makes no promises and keeps none. -/
theorem Keeping.of_see (h : w.Keeping env x) (hgrows : w.Grows w')
    (hcall : w'.see Entry.call? = w.see Entry.call?)
    (hsettled : w'.see Entry.settled? = w.see Entry.settled?) : w'.Keeping env x := by
  rw [Keeping, Journal.promises, hgrows.replies hcall, hgrows.endings hsettled]
  exact h

/-- A promise that is kept is waited for no more. -/
theorem Keeping.keep {before after : List Queue} {q : Queue} {c : Call}
    {error : Option DeviceError} (h : w.Keeping env (before ++ q :: after)) (hgrows : w.Grows w')
    (hcall : w'.see Entry.call? = w.see Entry.call?)
    (hsettled : w'.see Entry.settled? = w.see Entry.settled? ++ [(c, error)])
    (hq : q.promise? env = some ⟨c, w.now, error⟩) : w'.Keeping env (before ++ after) := by
  obtain ⟨-, new, hnew, htimes⟩ := hgrows
  have hone : new.entries.filterMap Entry.settled? = [(c, error)] := by
    rw [see_of_journal hnew] at hsettled
    exact List.append_cancel_left hsettled
  rw [Keeping, pledged_append, pledged_cons, hq] at h
  rw [Keeping, Journal.promises, hnew, Journal.replies_append (view_eq_none hnew hcall),
    Journal.endings_append htimes, hone, pledged_append]
  have hmiddle : w.journal.endings ++ (pledged env before ++ (⟨c, w.now, error⟩ :: pledged env after))
      = (w.journal.endings ++ pledged env before) ++ ⟨c, w.now, error⟩ :: pledged env after :=
    (List.append_assoc ..).symm
  rw [Option.toList_some, List.singleton_append, hmiddle] at h
  refine (h.trans List.perm_middle).trans (.of_eq ?_)
  rw [List.append_assoc]
  rfl

/-- A call that is made promises to end, and a queue waits for that. -/
theorem Keeping.promise {before after : List Queue} {c : Call} {ending : Ending}
    (h : w.Keeping env (before ++ after)) (hgrows : w.Grows (w.call env c))
    (hsettled : (w.call env c).see Entry.settled? = w.see Entry.settled?)
    (hending : ending = c.ends env (env.gateway w.journal c)) :
    ((w.call env c).journal.promises env).Perm
      ((w.call env c).journal.endings ++ (pledged env before ++ ending :: pledged env after)) := by
  rw [Keeping, pledged_append, ← List.append_assoc] at h
  rw [Journal.promises, Journal.replies_call, List.map_cons, hgrows.endings hsettled, hending,
    ← List.append_assoc]
  exact (h.cons _).trans List.perm_middle.symm

end World

/-- **Promises are kept or waited for** after a move of an activity. -/
theorem Activity.Serves.keeping {places : List Path} {w w' : World} {x y : List Queue}
    (h : Serves env places w w' x y) (hgrows : w.Grows w')
    (hpunctual : ∀ q ∈ x, ∀ t ∈ q.due, w.now ≤ t) (hw : w.Keeping env x) : w'.Keeping env y := by
  cases h with
  | rests hwork hy =>
    rw [hy]
    exact hw.of_see hgrows (see_of_base Entry.call?_work hwork) (see_of_base Entry.settled?_work hwork)
  | @begins path t before after _ _ hx' _ hy hw' =>
    subst hx' hy
    have hkept : w'.Keeping env (before ++ after) := by
      refine hw.of_see hgrows ?_ ?_ <;> rw [hw'] <;>
        exact see_announce_none rfl (fun _ => rfl) (fun _ => rfl) (fun _ _ => rfl)
          (fun _ _ => rfl) t w
    rw [World.Keeping, pledged_append] at hkept
    rw [World.Keeping, pledged_append, pledged_append, pledged_newQueues, List.nil_append]
    exact hkept
  | @serves q q' before after hq hx' hy =>
    have hmem : q ∈ x := hx' ▸ List.mem_append_right _ List.mem_cons_self
    subst hx' hy
    cases hq.kept (hpunctual q hmem) with
    | rests hsee hsettled hsame =>
      have hkept := hw.of_see hgrows hsee hsettled
      rw [World.Keeping, pledged_append, pledged_cons] at hkept
      rw [World.Keeping, pledged_append, pledged_append, pledged_live, hsame]
      exact hkept
    | promises c hsettled hw' hnone hsome =>
      have hold : w.Keeping env (before ++ after) := by
        rw [World.Keeping, pledged_append, pledged_cons, hnone] at hw
        rw [World.Keeping, pledged_append]
        exact hw
      subst hw'
      rw [World.Keeping, pledged_append, pledged_append, pledged_live, hsome]
      exact hold.promise hgrows hsettled rfl
    | keeps c error hsee hsettled hsome hnone =>
      have hkept := hw.keep hgrows hsee hsettled hsome
      rw [World.Keeping, pledged_append] at hkept
      rw [World.Keeping, pledged_append, pledged_append, pledged_live, hnone]
      exact hkept

/-! ### Runs -/

namespace Program

variable {p : Program} {m : Machine}

theorem Runs.keeping (h : p.Runs env m) : m.world.Keeping env m.activity.serving := by
  induction h with
  | refl =>
    have hgrows : World.Grows {} (p.firstWorld env) :=
      (cancelOnTime_grows env {}).trans (emit_grows _ _)
    have hempty : World.Keeping env {} [] := List.Perm.refl _
    rw [start_world, start_serving]
    refine hempty.of_see hgrows ?_ ?_ <;> rw [see_firstWorld rfl] <;> rfl
  | tail hprev htick ih =>
    have hruns : p.Runs env _ := hprev
    cases htick with
    | act ha =>
      exact (ha.serving hruns.reaches.ready hruns.reaches.arranged).keeping ha.grows
        hruns.serving_punctual ih
    | turn => exact ih
    | cancel a w =>
      exact ih.of_see (cancelOnTime_grows env w) (see_cancelIf w rfl _) (see_cancelIf w rfl _)
    | wait => exact ih

/-- **The calls of a run that is over ended as promised**, each of them once. -/
theorem Runs.endings (h : p.Runs env m) (hdone : m.activity.serving = []) :
    m.world.journal.endings.Perm (m.world.journal.promises env) := by
  have hkeeping := h.keeping
  rw [hdone] at hkeeping
  exact (hkeeping.trans (.of_eq (List.append_nil _))).symm

end Program

/-! ### One call after the other -/

/-- A call is the first one for its device, or another one came to something at the same instant,
and it follows that one. -/
def World.Resumes (w : World) (c : Call) (t : Instant) : Prop :=
  c.turn = 0 ∨ ∃ prev error, prev.errand = c.errand ∧ prev.turn + 1 = c.turn ∧
    prev.fatal? error = none ∧ ⟨t, .settled prev error⟩ ∈ w.journal

theorem World.Resumes.mono {w w' : World} {c : Call} {t : Instant} (h : w.Resumes c t)
    (hjournal : w.journal <:+ w'.journal) : w'.Resumes c t := by
  refine h.imp_right ?_
  rintro ⟨prev, error, herrand, hturn, hfatal, hmem⟩
  exact ⟨prev, error, herrand, hturn, hfatal, hjournal.subset hmem⟩

/-- A queue that is to call a device goes on from the call before. -/
def Queue.Resumes (w : World) : Queue → Prop
  | .ready call _ => w.Resumes call w.now
  | _ => True

theorem Queue.Resumes.mono {q : Queue} {w w' : World} (h : q.Resumes w) (hgrows : w.Grows w') :
    q.Resumes w' := by
  obtain ⟨hnow, new, hnew, -⟩ := hgrows
  cases q with
  | ready call left =>
    have hsame : w.Resumes call w'.now := hnow ▸ h
    exact hsame.mono (hnew ▸ List.suffix_append _ _)
  | _ => trivial

/-- What a call came to is written down before anything else is. -/
theorem Queue.journal_settle (c : Call) (result : Except DeviceError Unit) (w : World) :
    (w.note (.settled c (error? result))).journal <:+ (settle env c result w).2.journal := by
  have hshown : ∀ error, (w.note (.settled c error)).journal <:+ (shown env c error w).journal :=
    fun error => journal_emit _ _
  rcases settle_cases env c result w with ⟨he, h⟩ | ⟨e, he, -, h⟩ | ⟨cause, he, -, h⟩
  · rw [h, he]
    exact hshown none
  · rw [h, he]
    exact (hshown (some e)).trans (List.suffix_cons _ _)
  · rw [h, he]
    exact (hshown _).trans (List.suffix_cons _ _)

/-- A queue for which calls are left goes on at once. -/
theorem Queue.next_resumes (call : Call) (left : ℕ) (result : Except DeviceError Unit)
    (w : World) : (next call left (settle env call result w).1).Resumes (settle env call result w).2 := by
  rw [settle_flow]
  cases hfatal : call.fatal? (error? result) with
  | some cause => trivial
  | none =>
    have hnow : (settle env call result w).2.now = w.now := (settle_grows call result w).1
    have hmem : ⟨w.now, .settled call (error? result)⟩ ∈ (settle env call result w).2.journal :=
      (journal_settle call result w).subset List.mem_cons_self
    exact .inr ⟨call, error? result, rfl, rfl, hfatal, hnow ▸ hmem⟩

/-- **A queue goes on from call to call at once.** -/
theorem Queue.Move.resumes {q q' : Queue} {w w' : World} (h : Queue.Move env q w q' w')
    (hq : q.Resumes w) : q'.Resumes w' ∧
      ∀ c ∈ w'.see Entry.call?, c ∈ w.see Entry.call? ∨ w'.Resumes c c.time := by
  have hsame : ∀ {v : World}, v.see Entry.call? = w.see Entry.call? →
      ∀ c ∈ v.see Entry.call?, c ∈ w.see Entry.call? ∨ v.Resumes c c.time :=
    fun hsee c hc => .inl (hsee ▸ hc)
  have hsettle : ∀ (call : Call) (result : Except DeviceError Unit) (v : World),
      (settle env call result v).2.see Entry.call? = v.see Entry.call? := by
    intro call result v
    rw [see_settle rfl]
    simp [Entry.call?]
  cases h with
  | finish => exact ⟨trivial, hsame rfl⟩
  | halt => exact ⟨trivial, hsame rfl⟩
  | @call call c left w hgoing hc =>
    refine ⟨trivial, fun d hd => ?_⟩
    rw [World.see_call _ _ rfl] at hd
    refine (List.mem_append.mp hd).imp_right fun hd => ?_
    obtain rfl : d = c := List.mem_singleton.mp hd
    have hresumes : w.Resumes d d.time := by
      rw [hc]
      exact hq
    exact hresumes.mono (call_ops hgoing).journal
  | await => exact ⟨trivial, hsame (see_note_none _ rfl)⟩
  | answer => exact ⟨next_resumes .., hsame ((hsettle ..).trans (see_note_none _ rfl))⟩
  | acknowledge => exact ⟨next_resumes .., hsame (hsettle ..)⟩

/-- Queues that wait have calls under way. -/
theorem Activity.Waits.resumes {a : Activity} {halted : Bool} {now : Instant}
    (h : a.Waits halted now) (w : World) : ∀ q ∈ a.serving, q.Resumes w := by
  induction h with
  | sleeping => exact fun q hq => absurd hq List.not_mem_nil
  | applying hwaits =>
    intro q hq
    obtain ⟨q', hmem, hlive⟩ := List.mem_flatMap.mp hq
    have hq' := hwaits q' hmem
    cases q' with
    | ready => exact hq'.elim
    | ended => exact absurd hlive List.not_mem_nil
    | _ =>
      rw [List.mem_singleton.mp hlive]
      trivial
  | first _ _ ih => exact ih
  | join _ _ ih =>
    intro q hq
    rw [Activity.serving, servingAll_eq_flatMap] at hq
    obtain ⟨a, ha, hq⟩ := List.mem_flatMap.mp hq
    cases hflow : a.flow? with
    | none => exact ih a ha hflow q hq
    | some flow =>
      rw [eq_ended_of_flow? hflow] at hq
      exact absurd hq List.not_mem_nil
  | within _ _ _ _ _ ih => exact ih

/-- The calls of a run follow each other at once, and its queues are about to. -/
structure Machine.Resumes (m : Machine) : Prop where
  calls : ∀ c ∈ m.world.see Entry.call?, m.world.Resumes c c.time
  queues : ∀ q ∈ m.activity.serving, q.Resumes m.world

namespace Machine

theorem Resumes.of_world {a : Activity} {w w' : World} (h : Resumes ⟨a, w⟩) (hgrows : w.Grows w')
    (hsee : w'.see Entry.call? = w.see Entry.call?) : Resumes ⟨a, w'⟩ where
  calls c hc := by
    obtain ⟨-, new, hnew, -⟩ := hgrows
    exact (h.calls c (hsee ▸ hc)).mono (hnew ▸ List.suffix_append _ _)
  queues q hq := (h.queues q hq).mono hgrows

theorem Resumes.act {a a' : Activity} {w w' : World} {places : List Path} (h : Resumes ⟨a, w⟩)
    (hgrows : w.Grows w') (hserves : Activity.Serves env places w w' a.serving a'.serving) :
    Resumes ⟨a', w'⟩ := by
  have hjournal : w.journal <:+ w'.journal := by
    obtain ⟨-, new, hnew, -⟩ := hgrows
    exact hnew ▸ List.suffix_append _ _
  constructor
  · intro c hc
    have hold : c ∈ w.see Entry.call? → w'.Resumes c c.time :=
      fun hc => (h.calls c hc).mono hjournal
    cases hserves with
    | rests hwork _ => exact hold (see_of_base Entry.call?_work hwork ▸ hc)
    | @serves q q' before after hq hx _ =>
      exact ((hq.resumes (h.queues q (hx ▸ List.mem_append_right _ List.mem_cons_self))).2 c hc).elim
        hold id
    | @begins path t before after _ _ _ _ _ hw' =>
      rw [hw'] at hc
      rw [Activity.see_announce_none rfl (fun _ => rfl) (fun _ => rfl) (fun _ _ => rfl)
        (fun _ _ => rfl) t w] at hc
      exact hold hc
  · refine hserves.forall (fun q hq => (h.queues q hq).mono hgrows)
      (fun q hmem q' hq => (hq.resumes (h.queues q hmem)).1) fun path t _ q hq => ?_
    obtain ⟨d, -, rfl⟩ := List.mem_map.mp hq
    exact .inl rfl

end Machine

/-- **A call that is not the first one for its device follows the one before it at once.** -/
theorem Program.Runs.resumes {p : Program} {m : Machine} (h : p.Runs env m) : m.Resumes := by
  induction h with
  | refl =>
    refine ⟨fun c hc => ?_, fun q hq => ?_⟩
    · rw [start_world, see_firstWorld rfl] at hc
      exact absurd hc List.not_mem_nil
    · rw [start_serving] at hq
      exact absurd hq List.not_mem_nil
  | tail hprev htick ih =>
    have hruns : p.Runs env _ := hprev
    cases htick with
    | act ha => exact ih.act ha.grows (ha.serving hruns.reaches.ready hruns.reaches.arranged)
    | turn => exact ⟨ih.calls, ih.queues⟩
    | cancel a w => exact ih.of_world (cancelOnTime_grows env w) (see_cancelIf w rfl _)
    | wait hwaits => exact ⟨ih.calls, hwaits.resumes _⟩

end Lightshow
