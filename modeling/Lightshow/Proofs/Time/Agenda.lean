import Lightshow.Proofs.Time.Timetable

/-!
# What is on the agenda of an activity

A gateway may have its answer to a call ready, whatever happened before.  Then it is known what each
part of a run is still to do and at which instants, as long as loops are counted and pauses have no
random part: which transitions it dispatches, which calls it makes, and when it ends.  This is the
*agenda* of an activity.  It does not matter how long anything takes, and instants need not be whole
milliseconds; a pause ends when its alarm rings.

A move does something that is on the agenda, or nothing that would be, and leaves the agenda what it
was but for that; and an activity that waits has on its agenda what it had before.  So all that a
run does and when it ends is on the agenda in the beginning, unless the run comes to halt.

## Main definitions

* `Call.series`, `Queue.agenda`, `Activity.agenda` — what is still to do.
* `Activity.Timely` — what is true of an activity at any time of a run that goes on.
* `Journal.deeds` — what was done.

## Main results

* `Queue.Move.does`, `Activity.Move.does` — **the agenda after a move.**
* `Activity.Waits.agenda` — the agenda while an activity waits.
* `Program.Runs.agenda` — **what was done and what is still to do.**
-/

namespace Lightshow

open Relation World

/-! ### Agendas -/

/-- When a pause without a random part is over that begins at an instant. -/
def pauseEnds (o : Option TimeOption) (now : Instant) : Instant := spanEnds now (pauseSpan o)

variable (env : Environment) (answer : Call → Reply)

/-- A number of calls for one device, one after the other from an instant on. -/
def Call.series : ℕ → Call → Instant → Outlook
  | 0, _, now => ⟨now, []⟩
  | left + 1, call, now =>
    let c := { call with time := now }
    Outlook.andThen ⟨c.completes env (answer c), [⟨now, .called c⟩]⟩
      (Call.series left { c with turn := c.turn + 1 })

/-- The calls that a queue is still to make from an instant on, and when it ends. -/
def Queue.agenda (now : Instant) : Queue → Outlook
  | .ready c left => Call.series env answer left c now
  | .calling c left outcome returns =>
    Call.series env answer left { c with turn := c.turn + 1 } (outcome.finishes env c returns)
  | .awaiting c left window =>
    Call.series env answer left { c with turn := c.turn + 1 } window.due
  | .ended _ => ⟨now, []⟩

mutual

/-- The transitions that an activity is still to dispatch from an instant on and the calls that it
is to make, and when it ends. -/
def Activity.agenda : Activity → Instant → Outlook
  | .ended _, now => ⟨now, []⟩
  | .pause _ o, now => ⟨pauseEnds o now, []⟩
  | .sleeping wake, now => ⟨max wake now, []⟩
  | .dispatch path t, now =>
    Outlook.andThen ⟨now, [⟨now, .dispatched path t⟩]⟩ fun now => .together now
      ((Activity.newQueues now path t (Activity.announced env t)).map (Queue.agenda env answer now))
  | .applying queues, now => .together now (queues.map (Queue.agenda env answer now))
  | .seq first rest, now => (Activity.agenda first now).andThen (Activity.agenda rest)
  | .join branches, now => .together now (Activity.agendaAll branches now)
  | .enter block before body after, now =>
    Outlook.andThen ⟨pauseEnds before now, []⟩ fun now =>
      (Outlook.repeated block.mode.number.toNat (fun _ => Activity.agenda body) now).andThen
        fun now => ⟨pauseEnds after now, []⟩
  | .rounds _ bound completed body, now =>
    Outlook.repeated (bound.left completed) (fun _ => Activity.agenda body) now
  | .within _ bound completed body current, now =>
    (Activity.agenda current now).andThen
      (Outlook.repeated (bound.left (completed + 1)) fun _ => Activity.agenda body)

/-- The same for each of some activities. -/
def Activity.agendaAll : List Activity → Instant → List Outlook
  | [], _ => []
  | a :: rest, now => Activity.agenda a now :: Activity.agendaAll rest now

end

variable {env answer}

/-! ### The order of time -/

/-- No pause takes no time. -/
theorem pauseEnds_none (now : Instant) : pauseEnds none now = now := by
  unfold pauseEnds spanEnds
  exact if_pos rfl

theorem le_pauseEnds (o : Option TimeOption) (now : Instant) : now ≤ pauseEnds o now :=
  le_spanEnds now _

theorem Call.le_completes (env : Environment) (c : Call) (r : Reply) : c.time ≤ c.completes env r :=
  Nat.le_trans (Nat.le_add_right c.time r.latency) (Queue.le_finishes env c _ _)

theorem Call.le_series (left : ℕ) : ∀ (call : Call) (now : Instant),
    now ≤ (Call.series env answer left call now).ends := by
  induction left with
  | zero => exact fun _ now => Nat.le_refl now
  | succ left ih =>
    intro call now
    exact Nat.le_trans (Call.le_completes env { call with time := now } _) (ih _ _)

/-- A queue does not end before something is due. -/
theorem Queue.le_agenda {q : Queue} {t : Instant} (h : q.due = some t) (now : Instant) :
    t ≤ (q.agenda env answer now).ends := by
  cases q with
  | calling c left outcome returns =>
    obtain rfl := Option.some.inj h
    exact Nat.le_trans (le_finishes env c _ outcome) (Call.le_series ..)
  | awaiting c left window =>
    obtain rfl := Option.some.inj h
    exact Call.le_series ..
  | _ => exact absurd h nofun

namespace Activity

theorem agendaAll_eq_map (branches : List Activity) (now : Instant) :
    agendaAll env answer branches now = branches.map fun a => a.agenda env answer now := by
  induction branches with
  | nil => rfl
  | cons a branches ih => rw [agendaAll, ih, List.map_cons]

/-- **An activity does not end before the present.** -/
theorem le_agenda : ∀ (a : Activity) (now : ℕ), now ≤ (a.agenda env answer now).ends
  | .ended _, now => Nat.le_refl now
  | .pause _ o, now => le_pauseEnds o now
  | .sleeping wake, now => Nat.le_max_right wake now
  | .dispatch .., now => Outlook.le_together now _
  | .applying _, now => Outlook.le_together now _
  | .seq first rest, now => Nat.le_trans (le_agenda first now) (le_agenda rest _)
  | .join _, now => Outlook.le_together now _
  | .enter _ before body after, now =>
    Nat.le_trans (le_pauseEnds before now) (Nat.le_trans
      (Outlook.le_repeated _ (fun _ t => le_agenda body t) _) (le_pauseEnds after _))
  | .rounds _ _ _ body, now => Outlook.le_repeated _ (fun _ t => le_agenda body t) now
  | .within _ _ _ body current, now =>
    Nat.le_trans (le_agenda current now) (Outlook.le_repeated _ (fun _ t => le_agenda body t) _)

/-! ### While time passes -/

/-- **The agenda of an activity that waits stays what it is**, as long as nothing is due. -/
theorem Waits.agenda {a : Activity} {halted : Bool} {now now' : Instant} (h : a.Waits halted now)
    (hdues : ∀ t ∈ a.dues, now' ≤ t) :
    a.agenda env answer now' = a.agenda env answer now ∧
      now' ≤ (a.agenda env answer now).ends := by
  induction h with
  | @sleeping wake _ h =>
    have hwake : now' ≤ wake := hdues wake (List.mem_singleton_self wake)
    simp only [Activity.agenda]
    rw [Nat.max_eq_left hwake, Nat.max_eq_left (Nat.le_of_lt h)]
    exact ⟨rfl, hwake⟩
  | @applying queues h hlive =>
    refine Outlook.together_wait (fun q : Queue => q.flow? = none) (fun q hq hflow => ?_)
      (fun q hq hflow => ?_) hlive
    · have hwaits := h q hq
      have hdue : ∀ t, q.due = some t → now ≤ t → now ≤ (q.agenda env answer now).ends ∧
          now' ≤ (q.agenda env answer now).ends := by
        intro t ht hnow
        have hle := @Queue.le_agenda env answer q t ht now
        exact ⟨Nat.le_trans hnow hle,
          Nat.le_trans (hdues t (List.mem_filterMap.mpr ⟨q, hq, ht⟩)) hle⟩
      cases q with
      | ready => exact hwaits.elim
      | calling => exact ⟨rfl, hdue _ rfl (Nat.le_of_lt hwaits)⟩
      | awaiting => exact ⟨rfl, hdue _ rfl (Nat.le_of_lt hwaits)⟩
      | ended => exact absurd hflow nofun
    · obtain ⟨flow, hflow⟩ := Option.ne_none_iff_exists'.mp hflow
      rw [Queue.eq_ended_of_flow? hflow]
      exact ⟨rfl, rfl⟩
  | first rest _ ih =>
    obtain ⟨hsame, hlate⟩ := ih hdues
    simp only [Activity.agenda, hsame]
    exact ⟨trivial, Nat.le_trans hlate (le_agenda rest _)⟩
  | @join branches h hlive ih =>
    simp only [Activity.agenda, agendaAll_eq_map]
    refine Outlook.together_wait (fun a : Activity => a.flow? = none) (fun a ha hflow => ?_)
      (fun a ha hflow => ?_) hlive
    · obtain ⟨hsame, hlate⟩ := ih a ha hflow fun t ht => hdues t (by
        rw [Activity.dues, duesAll_eq_flatMap]
        exact List.mem_flatMap.mpr ⟨a, ha, ht⟩)
      exact ⟨hsame, le_agenda a now, hlate⟩
    · obtain ⟨flow, hflow⟩ := Option.ne_none_iff_exists'.mp hflow
      rw [eq_ended_of_flow? hflow]
      exact ⟨rfl, rfl⟩
  | within _ _ _ body _ ih =>
    obtain ⟨hsame, hlate⟩ := ih hdues
    simp only [Activity.agenda, hsame]
    exact ⟨trivial, Nat.le_trans hlate (Outlook.le_repeated _ (fun _ t => le_agenda body t) _)⟩

end Activity

/-! ### What is done -/

/-- The transition that an entry dispatches, or the call that it begins. -/
def Entry.deed? : Entry → Option Entry
  | .dispatched path t => some (.dispatched path t)
  | .called c => some (.called c)
  | _ => none

/-- Between two worlds something is done that was to be done, and what is still to be done stays
what it was. -/
def World.Does (w w' : World) (before after : Outlook) : Prop :=
  ∃ done, w'.see Entry.deed? = w.see Entry.deed? ++ done ∧ Outlook.Follows w.now done before after

namespace World.Does

variable {w w' : World} {before after : Outlook}

/-- Nothing is done. -/
theorem nothing (hsee : w'.see Entry.deed? = w.see Entry.deed?) (hsame : after = before) :
    w.Does w' before after := ⟨[], hsee.trans (List.append_nil _).symm, .of_eq hsame⟩

theorem andThen (h : w.Does w' before after) (rest : Instant → Outlook) :
    w.Does w' (before.andThen rest) (after.andThen rest) := by
  obtain ⟨done, hsee, hfollows⟩ := h
  exact ⟨done, hsee, hfollows.andThen rest⟩

theorem together (h : w.Does w' before after) (left right : List Outlook) :
    w.Does w' (.together w.now (left ++ before :: right))
      (.together w.now (left ++ after :: right)) := by
  obtain ⟨done, hsee, hfollows⟩ := h
  exact ⟨done, hsee, hfollows.together left right⟩

end World.Does

/-- **A queue that is not late does what is on its agenda**, unless the run comes to halt. -/
theorem Queue.Move.does {q q' : Queue} {w w' : World} (h : Queue.Move env q w q' w')
    (hanswer : ∀ j c, env.gateway j c = answer c) (hgoing : w'.halted = false)
    (hpunctual : ∀ t ∈ q.due, w.now ≤ t) :
    w.Does w' (q.agenda env answer w.now) (q'.agenda env answer w.now) := by
  have hsettle : ∀ (call : Call) (result : Except DeviceError Unit) (v : World),
      (settle env call result v).2.see Entry.deed? = v.see Entry.deed? := by
    intro call result v
    rw [see_settle rfl]
    simp [Entry.deed?]
  cases h with
  | finish => exact .nothing rfl rfl
  | halt hw => exact absurd hw (not_halted_of_going hgoing)
  | @call call c left w hw hc =>
    subst hc
    refine ⟨_, World.see_call _ _ rfl _, ?_⟩
    rw [hanswer]
    exact ⟨rfl, List.Perm.refl _⟩
  | @await call left outcome returns window w hr ha =>
    obtain rfl : returns = w.now := Nat.le_antisymm hr (hpunctual returns rfl)
    -- the window opens now, since the call is not late
    refine .nothing (see_note_none _ rfl) ?_
    rw [agenda, agenda, finishes_of_window ha]
  | @answer call left outcome returns result w hr ha =>
    obtain rfl : returns = w.now := Nat.le_antisymm hr (hpunctual returns rfl)
    refine .nothing ((hsettle ..).trans (see_note_none _ rfl)) ?_
    rw [settle_going hgoing, next, agenda, agenda, finishes_of_answer ha]
  | @acknowledge call left window result w ha =>
    have hdue : window.due = w.now :=
      Nat.le_antisymm (Window.due_le_of_result ha) (hpunctual _ rfl)
    refine .nothing (hsettle ..) ?_
    rw [settle_going hgoing, next, agenda, agenda, hdue]

/-- What is true of an activity at any time of a run that goes on: loops are counted and pauses have
no random part, all that has ended is completed, and nothing is late. -/
structure Activity.Timely (now : Instant) (a : Activity) : Prop where
  plain : a.Uses (fun o => o.jitter = none) LoopMode.Counted
  completed : ∀ flow ∈ a.endings, flow = .completed
  punctual : ∀ t ∈ a.dues, now ≤ t

namespace Activity

namespace Timely

variable {now : Instant}

theorem first {a rest : Activity} (h : Timely now (.seq a rest)) : Timely now a where
  plain := by
    cases h.plain with
    | seq hfirst _ => exact hfirst
  completed flow hflow := h.completed flow (List.mem_append_left _ hflow)
  punctual := h.punctual

theorem branch {before after : List Activity} {a : Activity}
    (h : Timely now (.join (before ++ a :: after))) : Timely now a := by
  have hmem : a ∈ before ++ a :: after := List.mem_append_right _ List.mem_cons_self
  refine ⟨?_, fun flow hflow => h.completed flow ?_, fun t ht => h.punctual t ?_⟩
  · cases h.plain with
    | join hplain => exact hplain a hmem
  · rw [endings, endingsAll_eq_flatMap]
    exact List.mem_flatMap.mpr ⟨a, hmem, hflow⟩
  · rw [dues, duesAll_eq_flatMap]
    exact List.mem_flatMap.mpr ⟨a, hmem, ht⟩

theorem current {block : Block} {bound : Bound} {completed : ℕ} {body a : Activity}
    (h : Timely now (.within block bound completed body a)) : Timely now a where
  plain := by
    cases h.plain with
    | within _ _ _ _ hcurrent => exact hcurrent
  completed flow hflow := h.completed flow (List.mem_append_right _ hflow)
  punctual := h.punctual

end Timely

/-- A span that passes ends when its alarm rings. -/
theorem pollSleep_agenda (wake : Instant) {w : World} (hgoing : w.halted = false) :
    (pollSleep wake w).agenda env answer w.now = ⟨max wake w.now, []⟩ := by
  unfold pollSleep
  rw [if_neg (not_halted_of_going hgoing)]
  split
  · next hover => exact Outlook.ext (Nat.max_eq_right hover).symm rfl
  · rfl

/-- A pause without a random part ends when it was to end, unless the run comes to halt. -/
theorem beginPause_agenda {o : TimeOption} (ho : o.jitter = none) (path : Path) {w : World}
    (hgoing : (beginPause env path (some o) w).2.halted = false) :
    (beginPause env path (some o) w).1.agenda env answer w.now = ⟨pauseEnds (some o) w.now, []⟩ := by
  have hdraw : w.drawDuration env o = (o.duration 0, w) := by rw [drawDuration, ho]
  have hnow : (w.emit env (.paused path.text (o.duration 0).toSeconds)).now = w.now :=
    (emit_grows _ w).1
  simp only [beginPause, hdraw, beginSleep] at hgoing ⊢
  have hagenda := @pollSleep_agenda env answer (spanEnds w.now (o.duration 0)) _ hgoing
  rw [hnow] at hagenda ⊢
  exact hagenda.trans (Outlook.ext (Nat.max_eq_left (le_spanEnds w.now _)) rfl)

/-- **A move does what is on the agenda of an activity**, unless the run comes to halt. -/
theorem Move.does {a a' : Activity} {w w' : World} (h : Move env a w a' w')
    (hanswer : ∀ j c, env.gateway j c = answer c) (htimely : a.Timely w.now)
    (hgoing : w'.halted = false) :
    w.Does w' (a.agenda env answer w.now) (a'.agenda env answer w.now) := by
  induction h with
  | rest => exact .nothing rfl rfl
  | @pause path o w =>
    cases htimely.plain with
    | pause _ ho =>
      exact .nothing (see_beginPause_none rfl (fun _ => rfl) (fun _ _ => rfl) _ _)
        (beginPause_agenda (ho o rfl) path hgoing)
  | @wake instant w =>
    exact .nothing rfl (pollSleep_agenda instant hgoing)
  | withhold hw => exact absurd hw (not_halted_of_going hgoing)
  | @dispatch path t w hw =>
    refine ⟨[.dispatched path t], see_announce_blind rfl (fun _ => rfl) (fun _ => rfl) t w, ?_⟩
    rw [announce_devices, (announce_grows path t w).1]
    exact ⟨rfl, List.Perm.refl _⟩
  | @serve q q' w w' before after hq =>
    have hpunctual : ∀ t ∈ q.due, w.now ≤ t := fun t ht => htimely.punctual t
      (List.mem_filterMap.mpr ⟨q, List.mem_append_right _ List.mem_cons_self, ht⟩)
    simp only [Activity.agenda, List.map_append, List.map_cons]
    exact (hq.does hanswer hgoing hpunctual).together _ _
  | @served flows w =>
    refine .nothing rfl (Outlook.together_ended fun o ho => ?_).symm
    rw [List.map_map] at ho
    obtain ⟨flow, -, rfl⟩ := List.mem_map.mp ho
    rfl
  | first _ ih => exact (ih htimely.first hgoing).andThen _
  | second => exact .nothing rfl rfl
  | skip hf => exact absurd (htimely.completed _ List.mem_cons_self) hf
  | branch before after _ ih =>
    simp only [Activity.agenda, agendaAll_eq_map, List.map_append, List.map_cons]
    exact (ih htimely.branch hgoing).together _ _
  | @joined flows w =>
    refine .nothing rfl (Outlook.together_ended fun o ho => ?_).symm
    rw [agendaAll_eq_map, List.map_map] at ho
    obtain ⟨flow, -, rfl⟩ := List.mem_map.mp ho
    rfl
  | bar => exact absurd (Bool.or_true _) (not_halted_of_going hgoing)
  | @enter block before after body bound w w' he =>
    cases htimely.plain with
    | enter hmode =>
      obtain rfl := LoopMode.Counted.yields hmode (yields_of_enterLoop he)
      refine .nothing ?_ rfl
      rw [see_note_none _ rfl, see_enterLoop (fun _ => rfl) he]
  | @expire block bound completed body w hb =>
    cases htimely.plain with
    | rounds _ hmode hbound =>
      refine .nothing (see_note_none _ rfl) ?_
      rw [Activity.agenda, Activity.agenda, hmode.left_of_over hbound hb]
      rfl
  | stop _ hw => exact absurd hw (not_halted_of_going hgoing)
  | @begin block bound completed body w hb hw =>
    cases htimely.plain with
    | rounds _ hmode hbound =>
      refine .nothing (see_emit_none _ _ rfl rfl) ?_
      rw [Activity.agenda, Activity.agenda, hmode.left_of_continues hbound hb]
      rfl
  | inside _ ih => exact (ih htimely.current hgoing).andThen _
  | again => exact .nothing rfl rfl
  | leave hf => exact absurd (htimely.current.completed _ List.mem_cons_self) hf

end Activity

/-! ### Runs -/

/-- The transitions that were dispatched and the calls that were made so far, each with its instant,
the first one first. -/
def Journal.deeds (j : Journal) : List Record :=
  j.reverse.filterMap fun r => r.entry.deed?.map (Record.mk r.time)

/-- What is done between two worlds is done now. -/
theorem World.Grows.deeds {w w' : World} (h : w.Grows w') {done : List Entry}
    (hsee : w'.see Entry.deed? = w.see Entry.deed? ++ done) :
    w'.journal.deeds = w.journal.deeds ++ done.map (Record.mk w.now) := h.dated hsee

/-- If the run does not come to halt then the caller has not cancelled. -/
theorem World.cancelIf_going {w : World} {due : Bool} (h : (w.cancelIf due).halted = false) :
    w.cancelIf due = w := by
  unfold cancelIf at h ⊢
  split
  · next hdue =>
    rw [if_pos hdue] at h
    exact absurd (Bool.true_or _) (not_halted_of_going h)
  · rfl

namespace Program

variable {p : Program} {m : Machine}

variable (hanswer : ∀ j c, env.gateway j c = answer c) (hvalid : p.step.faults = [])
  (hplain : ∀ n ∈ p.step.nodes, n.Uses (fun o => o.jitter = none) LoopMode.Counted)
include hvalid hplain

theorem Runs.timely (h : p.Runs env m) (hgoing : m.world.halted = false) :
    m.activity.Timely m.world.now where
  plain := (h.reaches.supplied hplain).uses
  completed := h.reaches.completed hvalid hgoing
  punctual := h.punctual

include hanswer

/-- **What was done and what is still to do make up the agenda of the program**, unless the run has
come to halt, and the end is in sight at any time. -/
theorem Runs.agenda (h : p.Runs env m) (hgoing : m.world.halted = false) :
    (m.activity.agenda env answer m.world.now).ends
        = ((p.step.activity env.scope p.step.rootPath).agenda env answer 0).ends ∧
      (m.world.journal.deeds ++ (m.activity.agenda env answer m.world.now).starts).Perm
        ((p.step.activity env.scope p.step.rootPath).agenda env answer 0).starts := by
  induction h with
  | refl =>
    have hgrows : World.Grows {} (p.firstWorld env) :=
      (cancelOnTime_grows env {}).trans (emit_grows _ _)
    have hdeeds : (p.firstWorld env).journal.deeds = [] := hgrows.deeds (see_firstWorld rfl)
    have hnow : (p.firstWorld env).now = 0 := hgrows.1
    rw [start_of_valid hvalid]
    show (Activity.agenda env answer _ (p.firstWorld env).now).ends = _ ∧ List.Perm
      ((p.firstWorld env).journal.deeds ++ (Activity.agenda env answer _ (p.firstWorld env).now).starts) _
    rw [hdeeds, hnow]
    exact ⟨rfl, List.Perm.refl _⟩
  | tail hprev htick ih =>
    have hruns : p.Runs env _ := hprev
    cases htick with
    | @act a a' w w' ha =>
      have hbefore : w.halted = false := ha.ops.going hgoing
      obtain ⟨hends, hdeeds⟩ := ih hbefore
      obtain ⟨done, hsee, hfollows⟩ :=
        ha.does hanswer (hruns.timely hvalid hplain hbefore) hgoing
      show (a'.agenda env answer w'.now).ends = _ ∧ List.Perm
        (w'.journal.deeds ++ (a'.agenda env answer w'.now).starts) _
      rw [ha.leads.now, ha.grows.deeds hsee, List.append_assoc]
      exact ⟨hfollows.ends.trans hends, (hfollows.starts.append_left _).trans hdeeds⟩
    | turn => exact ih hgoing
    | cancel a w =>
      -- the caller has not cancelled, or else the run would come to halt
      have hsame : w.cancelOnTime env = w := cancelIf_going hgoing
      rw [hsame] at hgoing ⊢
      exact ih hgoing
    | @wait a w hwaits =>
      obtain ⟨hends, hdeeds⟩ := ih hgoing
      -- nothing is due before the instant to which the clock jumps
      obtain ⟨hsame, -⟩ := @Activity.Waits.agenda env answer a _ _ (Machine.nextInstant env a w)
        hwaits fun t ht => Machine.nextInstant_le env w ht
      show (a.agenda env answer _).ends = _ ∧ List.Perm
        (w.journal.deeds ++ (a.agenda env answer _).starts) _
      rw [hsame]
      exact ⟨hends, hdeeds⟩

end Program

end Lightshow
