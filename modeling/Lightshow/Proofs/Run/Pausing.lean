import Lightshow.Proofs.Run.Planned
import Lightshow.Proofs.Run.Status
import Mathlib.Data.List.TakeWhile

/-!
# Pauses of a run that is to halt

A pause is announced before anybody looks whether the run is to halt.  So pauses may still be
announced while a run halts, but no more than one by each branch: the pause ends at once, and
ends the branch.

What a branch is can be told from the paths.  Two steps stand *apart* if they belong to
different branches of one parallel step, and what we show is that the pauses that are announced
in the end stand apart from each other.  For this we follow the pauses that an activity may
still announce although the run is to halt: there are never more of them, and one that is
announced rules out all others but those that stand apart from it.

## Main definitions

* `Path.Apart` — steps of different branches.
* `Activity.Located` — where the parts of an activity stand in the tree.
* `Activity.MayPause` — the pauses that may still be announced.
* `World.latePauses` — the pauses that were announced although the run was to halt.

## Main results

* `Activity.Move.mayPause`, `Activity.Move.latePauses` — single moves.
* `Program.Reaches.latePauses` — late pauses stand apart.
-/

namespace Lightshow

open Relation World

variable {env : Environment}

/-! ### Places in the tree -/

namespace Path

/-- Two steps belong to different branches of a parallel step. -/
def Apart (p q : Path) : Prop :=
  ∃ (parent : Path) (i j : ℕ) (k l : StepKind), parent.kind = .parallel ∧ i ≠ j ∧
    (child parent i k).Under p ∧ (child parent j l).Under q

end Path

/-- The pauses and the loops of an activity belong to a step, and its branches to different
branches of a parallel step. -/
inductive Activity.Located : Path → Activity → Prop
  | ended (r : Path) (flow : Flow) : Located r (.ended flow)
  | pause {r path : Path} (o : Option TimeOption) (h : r.Under path) : Located r (.pause path o)
  | sleeping (r : Path) (wake : Instant) : Located r (.sleeping wake)
  | dispatch (r path : Path) (t : Transition) : Located r (.dispatch path t)
  | applying (r : Path) (queues : List Queue) : Located r (.applying queues)
  | seq {r : Path} {first rest : Activity} (hfirst : Located r first) (hrest : Located r rest) :
      Located r (.seq first rest)
  | join {r parent : Path} {branches : List Activity} (kinds : ℕ → StepKind)
      (hr : r.Under parent) (hp : parent.kind = .parallel)
      (h : ∀ i a, branches[i]? = some a → Located (.child parent i (kinds i)) a) :
      Located r (.join branches)
  | enter {r : Path} {block : Block} (before after : Option TimeOption) {body : Activity}
      (hr : r.Under block.path) (h : Located r body) : Located r (.enter block before body after)
  | rounds {r : Path} {block : Block} (bound : Bound) (completed : ℕ) {body : Activity}
      (hr : r.Under block.path) (h : Located r body) :
      Located r (.rounds block bound completed body)
  | within {r : Path} {block : Block} (bound : Bound) (completed : ℕ) {body current : Activity}
      (hr : r.Under block.path) (hbody : Located r body) (hcurrent : Located r current) :
      Located r (.within block bound completed body current)

/-- Some part of an activity that is waited for has ended and is not completed. -/
def Activity.Broken : Activity → Prop := Activity.Destined (· ≠ .completed)

/-- An activity may still announce a pause at a path although the run is to halt. -/
inductive Activity.MayPause : Activity → Path → Prop
  | pause (path : Path) (o : TimeOption) : MayPause (.pause path (some o)) path
  | first {first : Activity} {path : Path} (rest : Activity) (h : MayPause first path) :
      MayPause (.seq first rest) path
  | second {first rest : Activity} {path : Path} (hfirst : ¬first.Broken)
      (h : MayPause rest path) : MayPause (.seq first rest) path
  | branch {branches : List Activity} {i : ℕ} {a : Activity} {path : Path}
      (hi : branches[i]? = some a) (h : MayPause a path) : MayPause (.join branches) path
  | enter {block : Block} {before after : Option TimeOption} (body : Activity)
      (h : before ≠ none ∨ after ≠ none) : MayPause (.enter block before body after) block.path
  | within (block : Block) (bound : Bound) (completed : ℕ) (body : Activity)
      {current : Activity} {path : Path} (h : MayPause current path) :
      MayPause (.within block bound completed body current) path

namespace Activity

/-- What belongs to a step belongs to the steps above it. -/
theorem Located.mono {r s : Path} {a : Activity} (h : Located s a) (hr : r.Under s) :
    Located r a := by
  induction h generalizing r with
  | ended => exact .ended r _
  | pause o h => exact .pause o (hr.trans h)
  | sleeping => exact .sleeping r _
  | dispatch => exact .dispatch r _ _
  | applying => exact .applying r _
  | seq _ _ ih₁ ih₂ => exact .seq (ih₁ hr) (ih₂ hr)
  | join kinds hs hp h => exact .join kinds (hr.trans hs) hp h
  | enter before after hs _ ih => exact .enter before after (hr.trans hs) (ih hr)
  | rounds bound completed hs _ ih => exact .rounds bound completed (hr.trans hs) (ih hr)
  | within bound completed hs _ _ ih₁ ih₂ =>
    exact .within bound completed (hr.trans hs) (ih₁ hr) (ih₂ hr)

/-- The pauses of an activity belong to the step that it belongs to. -/
theorem MayPause.under {a : Activity} {q r : Path} (h : MayPause a q) (ha : Located r a) :
    r.Under q := by
  induction h generalizing r with
  | pause =>
    cases ha with
    | pause _ h => exact h
  | first _ _ ih =>
    cases ha with
    | seq hfirst _ => exact ih hfirst
  | second _ _ ih =>
    cases ha with
    | seq _ hrest => exact ih hrest
  | branch hi _ ih =>
    cases ha with
    | join kinds hr _ h => exact hr.trans ((Path.Under.self.child _ _).trans (ih (h _ _ hi)))
  | enter =>
    cases ha with
    | enter _ _ hr _ => exact hr
  | within _ _ _ _ _ ih =>
    cases ha with
    | within _ _ _ _ hcurrent => exact ih hcurrent

/-- One branch goes on, and the others stay what they are. -/
theorem getElem?_branch {before after : List Activity} {a a' b : Activity} {i : ℕ}
    (h : (before ++ a' :: after)[i]? = some b) :
    (i = before.length ∧ b = a') ∨ (i ≠ before.length ∧ (before ++ a :: after)[i]? = some b) := by
  have hset : before ++ a' :: after = (before ++ a :: after).set before.length a' := by simp
  rw [hset] at h
  by_cases hi : i = before.length
  · subst hi
    rw [List.getElem?_set_self (by simp)] at h
    exact .inl ⟨rfl, (Option.some.inj h).symm⟩
  · rw [List.getElem?_set_ne (Ne.symm hi)] at h
    exact .inr ⟨hi, h⟩

theorem getElem?_length (before after : List Activity) (a : Activity) :
    (before ++ a :: after)[before.length]? = some a := by simp

/-- **Parts stay where they are in the tree.** -/
theorem Move.located {a a' : Activity} {w w' : World} (h : Move env a w a' w') {r : Path}
    (ha : Located r a) : Located r a' := by
  induction h generalizing r with
  | pause =>
    exact beginPause_activity _ _ _ _ (fun _ => .ended r _) (fun _ => .ended r _)
      fun _ => .sleeping r
  | wake =>
    exact pollSleep_activity _ _ (fun _ => .ended r _) (fun _ => .ended r _) fun _ => .sleeping r
  | dispatch => exact .applying r _
  | serve => exact .applying r _
  | first _ ih =>
    cases ha with
    | seq hfirst hrest => exact .seq (ih hfirst) hrest
  | second =>
    cases ha with
    | seq _ hrest => exact hrest
  | branch before after _ ih =>
    cases ha with
    | join kinds hr hp h =>
      refine .join kinds hr hp fun i b hb => ?_
      rcases getElem?_branch hb with ⟨rfl, rfl⟩ | ⟨-, hb⟩
      · exact ih (h _ _ (getElem?_length before after _))
      · exact h i b hb
  | enter =>
    cases ha with
    | enter _ _ hr h => exact .seq (.pause _ hr) (.seq (.rounds _ _ hr h) (.pause _ hr))
  | begin =>
    cases ha with
    | rounds _ _ hr h => exact .within _ _ hr h h
  | inside _ ih =>
    cases ha with
    | within _ _ hr hbody hcurrent => exact .within _ _ hr hbody (ih hcurrent)
  | again =>
    cases ha with
    | within _ _ hr hbody _ => exact .rounds _ _ hr hbody
  | _ => exact .ended r _

/-! ### Moves of a run that is to halt -/

/-- A pause that begins while the run is to halt ends its branch. -/
theorem beginPause_of_halted (path : Path) (o : TimeOption) {w : World} (hw : w.halted = true) :
    (beginPause env path (some o) w).1 = .ended .cancelled := by
  obtain ⟨draws, span, h⟩ := beginPause_eq env path o w
  have hhalted : ((w.notes (draws.map Entry.drew)).emit env
      (.paused path.text span.toSeconds)).halted = true := by
    rw [emit, halted_cancelIf, halted_note, halted_notes, hw, Bool.true_or]
  rw [h]
  exact if_pos hhalted

theorem pollSleep_of_halted (wake : Instant) {w : World} (hw : w.halted = true) :
    pollSleep wake w = .ended .cancelled := if_pos hw

/-- **There are never more pauses that may still be announced.** -/
theorem Move.mayPause {a a' : Activity} {w w' : World} (h : Move env a w a' w')
    (hw : w.halted = true) {q : Path} (hq : MayPause a' q) : MayPause a q := by
  induction h with
  | pause =>
    rw [beginPause_of_halted _ _ hw] at hq
    cases hq
  | wake =>
    rw [pollSleep_of_halted _ hw] at hq
    cases hq
  | dispatch hw' => exact (not_halted_of_going hw' hw).elim
  | first ha ih =>
    cases hq with
    | first _ h => exact .first _ (ih hw h)
    | second hfirst h =>
      exact .second (fun hb => hfirst (ha.destined Flow.ne_completed_prevails hb)) h
  | second => exact .second (fun hb => by cases hb; contradiction) hq
  | branch before after _ ih =>
    cases hq with
    | branch hi h =>
      rcases getElem?_branch hi with ⟨rfl, rfl⟩ | ⟨-, hi⟩
      · exact .branch (getElem?_length before after _) (ih hw h)
      · exact .branch hi h
  | enter =>
    cases hq with
    | first _ h =>
      cases h with
      | pause => exact .enter _ (.inl nofun)
    | second _ h =>
      cases h with
      | first _ h => cases h
      | second _ h =>
        cases h with
        | pause => exact .enter _ (.inr nofun)
  | begin _ hw' => exact (not_halted_of_going hw' hw).elim
  | inside _ ih =>
    cases hq with
    | within _ _ _ _ h => exact .within _ _ _ _ (ih hw h)
  | _ => cases hq

end Activity

/-! ### Late pauses -/

/-- The path of the pause that an entry announces, as it is written. -/
def Entry.pause? : Entry → Option String
  | .event (.paused path _) => some path
  | _ => none

namespace World

/-- What happened since a run came to halt. -/
def aftermath (w : World) : List Entry := w.entries.dropWhile fun e => !e.halts

/-- The pauses that were announced since a run came to halt, as their paths are written. -/
def latePauses (w : World) : List String := w.aftermath.filterMap Entry.pause?

variable {w w' : World}

theorem Faithful.aftermath_isEmpty (hw : w.Faithful) :
    w.aftermath.isEmpty = true ↔ w.halted = false := by
  rw [List.isEmpty_iff, aftermath, List.dropWhile_eq_nil_iff, ← Bool.not_eq_true, hw.halted]
  simp

theorem aftermath_append {new : List Entry} (h : w'.entries = w.entries ++ new) :
    w'.aftermath = if w.aftermath.isEmpty then new.dropWhile fun e => !e.halts
      else w.aftermath ++ new := by
  rw [aftermath, h, List.dropWhile_append]
  rfl

/-- Until a run comes to halt no pause is late. -/
theorem Faithful.latePauses_eq_nil (hw : w.Faithful) (hh : w.halted = false) :
    w.latePauses = [] := by
  rw [latePauses, List.isEmpty_iff.mp (hw.aftermath_isEmpty.mpr hh)]
  rfl

/-- What is shown while a run goes on is not late, even if the caller cancels inside it. -/
theorem Faithful.latePauses_emit (hw : w.Faithful) (hh : w.halted = false) (e : Event) :
    (w.emit env e).latePauses = [] := by
  have hgoes : (!(Entry.event e).halts) = true := rfl
  rw [latePauses, aftermath_append (entries_emit env w e), if_pos (hw.aftermath_isEmpty.mpr hh),
    List.dropWhile_cons_of_pos (p := fun e => !Entry.halts e) hgoes]
  split <;> rfl

/-- Once a run has come to halt every pause is late. -/
theorem Faithful.latePauses_append (hw : w.Faithful) (hh : w.halted = true) (hops : Ops w w')
    {paths : List String} (hsee : w'.see Entry.pause? = w.see Entry.pause? ++ paths) :
    w'.latePauses = w.latePauses ++ paths := by
  obtain ⟨new, hnew, -⟩ := hops.entries
  have hpaths : new.filterMap Entry.pause? = paths := by
    rw [see, hnew, List.filterMap_append] at hsee
    exact List.append_cancel_left hsee
  have hnot : ¬w.aftermath.isEmpty = true := fun h =>
    not_halted_of_going (hw.aftermath_isEmpty.mp h) hh
  rw [latePauses, aftermath_append hnew, if_neg hnot, List.filterMap_append, hpaths, latePauses]

/-- Where no pause is announced none is late. -/
theorem Ops.latePauses (hops : Ops w w') (hsee : w'.see Entry.pause? = w.see Entry.pause?) :
    w'.latePauses = w.latePauses := by
  obtain ⟨new, hnew, -⟩ := hops.entries
  have hnone : new.filterMap Entry.pause? = [] := by
    rw [see, hnew, List.filterMap_append] at hsee
    exact List.append_right_eq_self.mp hsee
  rw [World.latePauses, aftermath_append hnew]
  split
  · next hempty =>
    rw [World.latePauses, List.isEmpty_iff.mp hempty]
    have hsub : (new.dropWhile fun e => !e.halts).Sublist new := List.dropWhile_sublist _
    have hpauses := hsub.filterMap Entry.pause?
    rw [hnone] at hpauses
    exact List.sublist_nil.mp hpauses
  · rw [List.filterMap_append, hnone, List.append_nil, World.latePauses]

end World

/-- A pause is announced late, it is one that might still be, and it rules out all others but those
that stand apart from it. -/
def Activity.PausesLate (a a' : Activity) (w w' : World) : Prop :=
  ∃ p : Path, w.halted = true ∧ w'.latePauses = w.latePauses ++ [p.text] ∧ a.MayPause p ∧
    a'.Broken ∧ ∀ {r : Path}, a.Located r → ∀ {q : Path}, a'.MayPause q → p.Apart q

/-- Devices are served without pauses. -/
theorem Queue.Move.see_pause {q q' : Queue} {w w' : World} (h : Queue.Move env q w q' w') :
    w'.see Entry.pause? = w.see Entry.pause? :=
  h.see_none rfl (fun _ => rfl) (fun _ => rfl) (fun _ _ => rfl) (fun _ _ => rfl) (fun _ => rfl)
    fun _ => rfl

namespace Activity

/-- **A pause is announced late at most once in a branch.** -/
theorem Move.latePauses {a a' : Activity} {w w' : World} (h : Move env a w a' w')
    (hw : w.Faithful) : w'.latePauses = w.latePauses ∨ PausesLate a a' w w' := by
  induction h with
  | @pause path o w =>
    have hops : Ops w (beginPause env path (some o) w).2 := beginPause_ops ..
    cases hh : w.halted with
    | false =>
      obtain ⟨draws, span, h⟩ := beginPause_eq env path o w
      have hdraws : (w.notes (draws.map Entry.drew)).Faithful := (draws_ops draws w).faithful hw
      rw [h, beginSleep_world, hw.latePauses_eq_nil hh]
      exact .inl (hdraws.latePauses_emit ((halted_notes w _).trans hh) _)
    | true =>
      -- the pause is given up at once, and leaves nothing behind that may pause
      obtain ⟨seconds, hsee⟩ := see_beginPause env path Entry.pause? rfl (fun _ => rfl) o w
      refine .inr ⟨path, hh, hw.latePauses_append hh hops hsee, .pause path o, ?_, ?_⟩
      · rw [beginPause_of_halted path o hh]
        exact .ended nofun
      · intro r _ q hq
        rw [beginPause_of_halted path o hh] at hq
        cases hq
  | @dispatch path t w hh =>
    refine .inl ((announce_ops path t hh).latePauses ?_)
    exact see_announce_none rfl (fun _ => rfl) (fun _ => rfl) (fun _ _ => rfl) (fun _ _ => rfl) _ _
  | serve before after hq =>
    exact .inl (hq.ops.latePauses (Queue.Move.see_pause hq))
  | first _ ih =>
    rcases ih hw with h | ⟨p, hh, hlate, hmay, hbroken, hapart⟩
    · exact .inl h
    · refine .inr ⟨p, hh, hlate, .first _ hmay, .seq _ hbroken, ?_⟩
      intro r hr q hq
      cases hr with
      | seq hfirst _ =>
        cases hq with
        | first _ hq => exact hapart hfirst hq
        | second hfirst _ =>
          -- the rest is out of reach
          exact absurd hbroken hfirst
  | branch before after _ ih =>
    rcases ih hw with h | ⟨p, hh, hlate, hmay, hbroken, hapart⟩
    · exact .inl h
    · refine .inr ⟨p, hh, hlate, .branch (getElem?_length before after _) hmay,
        .join (List.mem_append_right _ List.mem_cons_self) hbroken, ?_⟩
      intro r hr q hq
      cases hr with
      | @join _ parent _ kinds _ hp h =>
        cases hq with
        | @branch _ j b _ hj hq =>
          have hpath := h _ _ (getElem?_length before after _)
          rcases getElem?_branch hj with ⟨rfl, rfl⟩ | ⟨hne, hj⟩
          · exact hapart hpath hq
          · -- the other pause is one of another branch
            exact ⟨parent, before.length, j, kinds before.length, kinds j, hp, Ne.symm hne,
              hmay.under hpath, hq.under (h j b hj)⟩
  | @bar _ before after body _ w _ he =>
    have hmove : Move env (.enter _ before body after) w _ _ := .bar he
    refine .inl (hmove.ops.latePauses ?_)
    rw [see_fail_none _ rfl, see_note_none _ rfl, see_enterLoop (fun _ => rfl) he]
  | @enter _ before after body _ w _ he =>
    have hmove : Move env (.enter _ before body after) w _ _ := .enter he
    refine .inl (hmove.ops.latePauses ?_)
    rw [see_note_none _ rfl, see_enterLoop (fun _ => rfl) he]
  | @expire block _ _ body w hb =>
    have hmove : Move env (.rounds block _ _ body) w _ _ := .expire hb
    exact .inl (hmove.ops.latePauses (see_note_none _ rfl))
  | @begin block _ _ body w hb hh =>
    have hmove : Move env (.rounds block _ _ body) w _ _ := .begin hb hh
    exact .inl (hmove.ops.latePauses (see_emit_none _ _ rfl rfl))
  | inside _ ih =>
    rcases ih hw with h | ⟨p, hh, hlate, hmay, hbroken, hapart⟩
    · exact .inl h
    · refine .inr ⟨p, hh, hlate, .within _ _ _ _ hmay, .within _ _ _ _ hbroken, ?_⟩
      intro r hr q hq
      cases hr with
      | within _ _ _ _ hcurrent =>
        cases hq with
        | within _ _ _ _ hq => exact hapart hcurrent hq
  | _ => exact .inl rfl

end Activity

/-- What is true of the pauses of a run at any time. -/
structure Machine.Hushed (m : Machine) : Prop where
  faithful : m.world.Faithful
  located : ∃ r, m.activity.Located r
  /-- Late pauses stand apart, from each other and from those that may still be announced. -/
  pauses : ∃ ps : List Path, m.world.latePauses = ps.map Path.text ∧ ps.Pairwise Path.Apart ∧
    ∀ p ∈ ps, ∀ {q}, m.activity.MayPause q → p.Apart q

namespace Machine

theorem Hushed.of_world {a : Activity} {w w' : World} (h : Hushed ⟨a, w⟩) (hops : Ops w w')
    (hsee : w'.see Entry.pause? = w.see Entry.pause?) : Hushed ⟨a, w'⟩ where
  faithful := hops.faithful h.faithful
  located := h.located
  pauses := by
    obtain ⟨ps, hps, hapart⟩ := h.pauses
    exact ⟨ps, (hops.latePauses hsee).trans hps, hapart⟩

theorem Hushed.act {a a' : Activity} {w w' : World} (h : Hushed ⟨a, w⟩)
    (ha : Activity.Move env a w a' w') : Hushed ⟨a', w'⟩ := by
  obtain ⟨r, hr⟩ := h.located
  obtain ⟨ps, hps, hapart, hmay⟩ := h.pauses
  refine ⟨ha.ops.faithful h.faithful, ⟨r, ha.located hr⟩, ?_⟩
  rcases ha.latePauses h.faithful with hlate | ⟨p, hh, hlate, hp, -, hnext⟩
  · refine ⟨ps, hlate.trans hps, hapart, fun p hp q hq => ?_⟩
    cases hh : w.halted with
    | false =>
      -- no pause is late before the run comes to halt
      rw [h.faithful.latePauses_eq_nil hh] at hps
      rw [List.map_eq_nil_iff.mp hps.symm] at hp
      exact absurd hp List.not_mem_nil
    | true => exact hmay p hp (ha.mayPause hh hq)
  · have hold : ∀ p' ∈ ps, p'.Apart p := fun p' hp' => hmay p' hp' hp
    refine ⟨ps ++ [p], ?_, ?_, ?_⟩
    · show w'.latePauses = _
      have hps : w.latePauses = ps.map Path.text := hps
      rw [hlate, hps, List.map_append]
      rfl
    · refine List.pairwise_append.mpr ⟨hapart, List.pairwise_singleton _ _, ?_⟩
      intro p' hp' x hx
      rw [List.mem_singleton.mp hx]
      exact hold p' hp'
    · intro p' hp' q hq
      rcases List.mem_append.mp hp' with hp' | hp'
      · exact hmay p' hp' (ha.mayPause hh hq)
      · rw [List.mem_singleton.mp hp']
        exact hnext hr hq

/-- **Late pauses stand apart at any time.** -/
theorem Moves.hushed {m m' : Machine} (h : Moves env m m') (hm : m.Hushed) : m'.Hushed := by
  refine h.keep Hushed (fun hmove hm => ?_) hm
  cases hmove with
  | act ha => exact hm.act ha
  | wait a w t => exact hm.of_world (.single (.clock t w)) rfl
  | turn a w => exact hm.of_world (.single (.turn w)) rfl
  | cancel a w due => exact hm.of_world (.single (.cancel due w)) (see_cancelIf w rfl due)

end Machine

/-! ### Steps -/

theorem Activity.chain_located {r : Path} {as : List Activity} (h : ∀ a ∈ as, a.Located r) :
    (Activity.chain as).Located r := by
  induction as with
  | nil => exact .ended r _
  | cons a as ih =>
    exact .seq (h a List.mem_cons_self) (ih fun b hb => h b (List.mem_cons_of_mem a hb))

/-- The parts of a step belong to it before it begins. -/
theorem Step.activity_located (scope : PauseScope) (s : Step) (path : Path)
    (hkind : path.kind = s.kind) : (Step.activity scope path s).Located path := by
  induction s using Step.induction generalizing path with
  | transition t =>
    rw [Step.activity]
    exact .seq (.pause _ .self) (.seq (.dispatch _ _ _) (.pause _ .self))
  | composite order steps loop pause ih =>
    have honce : Activity.Located path (order.arrange (activities scope path 0 steps)) := by
      cases order with
      | serial =>
        refine Activity.chain_located fun a ha => ?_
        obtain ⟨i, s, hs, rfl⟩ := exists_of_mem_activities ha
        exact (ih s (List.mem_of_getElem? hs) _ rfl).mono (.child .self _ _)
      | parallel =>
        refine .join (fun i => (steps[i]?.map Step.kind).getD .serial) .self hkind fun i a hi => ?_
        obtain ⟨s, hs, rfl⟩ := exists_of_getElem?_activities hi
        rw [hs, Nat.zero_add]
        exact ih s (List.mem_of_getElem? hs) _ rfl
    rw [activity_composite]
    cases scope with
    | perIteration =>
      exact .enter _ _ .self
        (.seq (.pause _ .self) (.seq honce (.seq (.pause _ .self) (.pause _ .self))))
    | aroundLoop => exact .enter _ _ .self (.seq honce (.pause _ .self))

namespace Program

variable {p : Program}

theorem firstWorld_latePauses (env : Environment) (p : Program) :
    (p.firstWorld env).latePauses = [] := by
  have hsub : (p.firstWorld env).aftermath.Sublist (p.firstWorld env).entries :=
    List.dropWhile_sublist _
  have hpauses := hsub.filterMap Entry.pause?
  rw [← see, see_firstWorld rfl] at hpauses
  exact List.sublist_nil.mp hpauses

theorem start_hushed (env : Environment) (p : Program) : (Machine.start env p).Hushed := by
  have hfaithful : (p.firstWorld env).Faithful := (faithful_empty.cancelIf _).emit _
  have hpauses : ∀ a : Activity, ∃ ps : List Path, (p.firstWorld env).latePauses
      = ps.map Path.text ∧ ps.Pairwise Path.Apart ∧ ∀ p ∈ ps, ∀ {q}, a.MayPause q → p.Apart q :=
    fun a => ⟨[], firstWorld_latePauses env p, .nil, fun p hp => absurd hp List.not_mem_nil⟩
  by_cases hp : p.step.faults = []
  · rw [start_of_valid hp]
    exact ⟨hfaithful, ⟨_, Step.activity_located env.scope p.step _ rfl⟩, hpauses _⟩
  · rw [start_of_faults hp]
    exact ⟨hfaithful, ⟨p.step.rootPath, .ended _ _⟩, hpauses _⟩

/-- **Late pauses stand apart from each other.** -/
theorem Reaches.latePauses {m : Machine} (h : p.Reaches env m) :
    ∃ ps : List Path, m.world.latePauses = ps.map Path.text ∧ ps.Pairwise Path.Apart := by
  obtain ⟨ps, hps, hapart, -⟩ := (Machine.Moves.hushed h (start_hushed env p)).pauses
  exact ⟨ps, hps, hapart⟩

end Program

end Lightshow
