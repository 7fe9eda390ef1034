import Lightshow.Proofs.Run.Bounds
import Lightshow.Proofs.Run.Plain
import Lightshow.Proofs.Time.LastCalls
import Lightshow.Proofs.Written.Paths

/-!
# When iterations begin, and when loops are left

Whether a loop goes on is asked between its iterations and at no other time, and the answer is that
of the bound that it was given when it was entered.  The journal of a run tells of all of this: that
a loop is entered, with its bound and the number that was drawn for it, that an iteration begins,
and that the loop is left.  Here every such decision is traced back to the last time at which its
loop was entered.  Since then nothing has been written of the loop but its iterations, so their
number is that of the iterations which are completed.  This holds because loops stand at different
places: while one of them is gone through, no other part of the run enters it once more.

Since the clock of a run does not go back, the loops of a run go on as their modes ask for.

## Main definitions

* `Journal.InLoop` — a loop was entered, and some iterations of it have begun since.
* `Activity.Loops` — the loops of an activity are planned, or have been entered before.
* `Block.decision`, `Record.Decided` — what is decided for a loop between two iterations.
* `Machine.Granted` — all that was decided in a run was decided as the bounds of its loops ask.

## Main results

* `Machine.round_keep`, `Machine.le_nextInstant` — **the clock of a run does not go back.**
* `Activity.Move.elsewhere` — a move writes nothing of loops that stand elsewhere.
* `Activity.Move.loops`, `Activity.Move.decisions` — single moves.
* `Machine.Granted.after` — what is decided in a run, by the bounds of its loops.
* `LoopMode.entered_exactly` — **loops go on as their modes ask**, in themselves and in runs.
-/

namespace Lightshow

open Relation World

variable {env : Environment}

/-! ### The clock -/

/-- Whoever is to cancel at some instant has done so when it has come. -/
theorem World.cancelled_cancelOnTime (env : Environment) (w : World) :
    ∀ t ∈ env.cancellation.time, t ≤ w.now → (w.cancelOnTime env).cancelled = true := by
  intro t ht hle
  have hdue : env.cancellation.time.any (· ≤ w.now) = true := by
    rw [Option.mem_def.mp ht]
    exact decide_eq_true hle
  rw [cancelOnTime, cancelled_cancelIf, hdue, Bool.true_or, Bool.or_true]

/-- What single moves of an activity keep is kept by all of them. -/
theorem Activity.Moves.keep {I : Machine → Prop} {x y : Activity.Progress}
    (h : Activity.Moves env x y)
    (hact : ∀ {a a' : Activity} {w w' : World}, Activity.Move env a w a' w' → I ⟨a, w⟩ → I ⟨a', w'⟩)
    (hx : I ⟨x.1, x.2⟩) : I ⟨y.1, y.2⟩ := by
  induction h with
  | refl => exact hx
  | tail _ hmove ih => exact hact hmove ih

namespace Machine

/-- The clock does not go back when everything waits, if nobody is late to cancel. -/
theorem le_nextInstant {a : Activity} {w : World} (hwaits : a.Waits w.halted w.now)
    (hcaller : ∀ t ∈ env.cancellation.time, t ≤ w.now → w.cancelled = true) :
    w.now ≤ nextInstant env a w := by
  obtain ⟨hdues, hlater⟩ := hwaits.dues
  obtain ⟨u, hmin⟩ : ∃ u, a.dues.min? = some u :=
    Option.ne_none_iff_exists'.mp fun hnone => hdues (List.min?_eq_none_iff.mp hnone)
  have hu : w.now ≤ u := (hlater u (List.min?_eq_some_iff.mp hmin).1).le
  rw [nextInstant, a.due_eq, hmin]
  cases hcancelled : w.cancelled with
  | true => exact hu
  | false =>
    cases htime : env.cancellation.time with
    | none => exact hu
    | some t =>
      have ht : w.now ≤ t := by
        refine Nat.le_of_not_lt fun hlt => ?_
        rw [hcaller t (by rw [htime]; rfl) hlt.le] at hcancelled
        cases hcancelled
      exact Nat.le_min.mpr ⟨hu, ht⟩

section Keeping

variable {I : Machine → Prop}

/-- What the clock keeps when it goes on holds after it has moved. -/
theorem advance_keep {before : World} {m : Machine}
    (hsettled : Activity.Settled before (m.activity, m.world)) (hlive : m.activity.flow? = none)
    (hcaller : ∀ t ∈ env.cancellation.time, t ≤ m.world.now → m.world.cancelled = true)
    (hwait : ∀ {a : Activity} {w : World} {t : Instant}, w.now ≤ t → I ⟨a, w⟩ →
      I ⟨a, { w with now := t }⟩) (hm : I m) : I (advance env before m) := by
  rcases advance_cases hsettled hlive with heq | ⟨hwaits, heq⟩
  · rw [heq]
    exact hm
  · rw [heq]
    exact hwait (le_nextInstant hwaits hcaller) hm

/-- **What is kept by all moves, by the caller, and by a clock that goes on, holds after a
round.** -/
theorem round_keep
    (hact : ∀ {a a' : Activity} {w w' : World}, Activity.Move env a w a' w' → I ⟨a, w⟩ → I ⟨a', w'⟩)
    (hturn : ∀ {a : Activity} {w : World}, I ⟨a, w⟩ → I ⟨a, w.nextRound⟩)
    (hcancel : ∀ {a : Activity} {w : World}, I ⟨a, w⟩ → I ⟨a, w.cancelOnTime env⟩)
    (hwait : ∀ {a : Activity} {w : World} {t : Instant}, w.now ≤ t → I ⟨a, w⟩ →
      I ⟨a, { w with now := t }⟩) (m : Machine) (hm : I m) : I (m.round env) := by
  obtain ⟨a, w⟩ := m
  have hmoves : Activity.Moves env (a, w.nextRound.cancelOnTime env) _ :=
    Activity.poll_moves a (w.nextRound.cancelOnTime env)
  have hpolled := hmoves.keep hact (hcancel (hturn hm))
  have hsettled := @Activity.poll_settled env a (w.nextRound.cancelOnTime env)
  have hops := Moves.ops (Moves.act hmoves)
  rcases hp : a.poll env (w.nextRound.cancelOnTime env) with ⟨a', w'⟩
  rw [hp] at hpolled hsettled hops
  have hcaller : ∀ t ∈ env.cancellation.time, t ≤ w'.now → w'.cancelled = true := by
    intro t ht hle
    rw [hsettled.1.now, cancelOnTime, now_cancelIf] at hle
    exact hops.cancelled (cancelled_cancelOnTime env _ t ht hle)
  simp only [round, hp]
  cases a' with
  | ended => exact hpolled
  | _ => exact advance_keep hsettled rfl hcaller hwait hpolled

end Keeping

end Machine

/-! ### Loops that have been entered -/

/-- The number that is drawn for a loop that is entered after some journal, if there is one. -/
def Environment.drawn (env : Environment) (mode : LoopMode) (j : Journal) : UInt64 :=
  match mode.draw? with
  | some (min, max) => env.random.whole j.drawCount min max
  | none => 0

/-- A loop gets its bound from its mode, the clocks, and the number that is drawn for it. -/
theorem World.enterLoop_drawn (env : Environment) (mode : LoopMode) (w : World) :
    w.enterLoop env mode
      = (mode.bound env.zone w.now (env.wall w.now) (env.drawn mode w.journal),
          w.notes (mode.draws.map Entry.drew)) := by
  unfold enterLoop Environment.drawn LoopMode.draws
  cases mode.draw? with
  | none => rfl
  | some range => rfl

/-- What an entry tells of the loop at a path: that it is entered, that an iteration of it begins,
or that it is left. -/
def Entry.loop? (path : Path) (e : Entry) : Option Entry :=
  match e with
  | .entered p _ => if p = path then some e else none
  | .event (.iteration _ text _ _) => if text = path.text then some e else none
  | .left p _ => if p = path then some e else none
  | _ => none

/-- The iteration of a loop that begins when some are completed. -/
def Block.iteration (block : Block) (completed : ℕ) : Event :=
  .iteration block.order block.path.text (completed + 1) block.mode.word

/-- A journal tells that a loop was entered at an instant, when there was an earlier journal, and
got its bound then, for which a number may have been drawn.  Of the loop nothing has been written
since but that some iterations have begun, one after the other. -/
structure Journal.InLoop (env : Environment) (j : Journal) (block : Block) (bound : Bound)
    (started : Instant) (earlier : Journal) (begun : ℕ) : Prop where
  gets : block.mode.bound env.zone started (env.wall started) (env.drawn block.mode earlier)
    = .ok bound
  told : ∃ since : Journal,
    j = since ++ ⟨started, .entered block.path bound⟩
      :: (block.mode.draws.map (fun d => ⟨started, .drew d⟩) ++ earlier) ∧
    since.entries.filterMap (Entry.loop? block.path)
      = (List.range begun).map fun k => .event (block.iteration k)

/-- A loop was entered before and has not been left, and some iterations have begun since. -/
def World.Stands (env : Environment) (w : World) (block : Block) (bound : Bound) (begun : ℕ) :
    Prop :=
  ∃ started earlier, started ≤ w.now ∧ w.journal.InLoop env block bound started earlier begun

section Standing

variable {w w' : World} {block : Block} {bound : Bound} {begun begun' : ℕ}

/-- What is written after a journal that tells of a loop. -/
theorem Journal.InLoop.append {j new : Journal} {started : Instant} {earlier : Journal}
    (h : j.InLoop env block bound started earlier begun)
    (hnew : (List.range begun).map (fun k => .event (block.iteration k))
        ++ new.entries.filterMap (Entry.loop? block.path)
      = (List.range begun').map fun k => .event (block.iteration k)) :
    (new ++ j).InLoop env block bound started earlier begun' := by
  obtain ⟨since, rfl, hsince⟩ := h.told
  refine ⟨h.gets, new ++ since, (List.append_assoc ..).symm, ?_⟩
  rw [Journal.entries, List.reverse_append, List.map_append, List.filterMap_append,
    ← Journal.entries, ← Journal.entries, hsince, hnew]

theorem World.Stands.append {new : Journal} (h : w.Stands env block bound begun)
    (hnow : w.now ≤ w'.now) (hjournal : w'.journal = new ++ w.journal)
    (hnew : (List.range begun).map (fun k => .event (block.iteration k))
        ++ new.entries.filterMap (Entry.loop? block.path)
      = (List.range begun').map fun k => .event (block.iteration k)) :
    w'.Stands env block bound begun' := by
  obtain ⟨started, earlier, hstarted, hloop⟩ := h
  exact ⟨started, earlier, hstarted.trans hnow, hjournal ▸ hloop.append hnew⟩

/-- A loop stays as it is if nothing is written about it. -/
theorem World.Stands.keep {new : Journal} (h : w.Stands env block bound begun)
    (hnow : w.now ≤ w'.now) (hjournal : w'.journal = new ++ w.journal)
    (hsee : w'.see (Entry.loop? block.path) = w.see (Entry.loop? block.path)) :
    w'.Stands env block bound begun := by
  rw [see_of_journal hjournal] at hsee
  exact h.append hnow hjournal (by rw [List.append_right_eq_self.mp hsee, List.append_nil])

/-- An iteration begins. -/
theorem World.Stands.begin (h : w.Stands env block bound begun) :
    (w.emit env (block.iteration begun)).Stands env block bound (begun + 1) := by
  obtain ⟨hnow, new, hjournal, -⟩ := @emit_grows env (block.iteration begun) w
  have hsee : (w.emit env (block.iteration begun)).see (Entry.loop? block.path)
      = w.see (Entry.loop? block.path) ++ [.event (block.iteration begun)] := by
    rw [see_emit env w rfl]
    simp [Entry.loop?, Block.iteration]
  rw [see_of_journal hjournal] at hsee
  refine h.append hnow.ge hjournal ?_
  rw [List.append_cancel_left hsee, List.range_succ, List.map_append]
  rfl

/-- A loop that is entered now. -/
theorem World.stands_of_enterLoop (h : w.enterLoop env block.mode = (.ok bound, w')) :
    (w'.note (.entered block.path bound)).Stands env block bound 0 := by
  rw [enterLoop_drawn] at h
  obtain ⟨hbound, rfl⟩ := Prod.mk.inj h
  refine ⟨w.now, w.journal, (notes_grows _ w).1.ge, hbound, [], ?_, rfl⟩
  -- no more than one number is drawn, so the draws are written in their order
  unfold LoopMode.draws
  cases block.mode.draw? with
  | none => rfl
  | some range => rfl

end Standing

/-! ### The loops of an activity -/

/-- A loop is that of a composite among certain steps. -/
def Block.Of (N : Path × Step → Prop) (block : Block) : Prop :=
  ∃ steps loop pause, loop.mode = block.mode ∧
    N (block.path, Step.composite block.order steps loop pause)

/-- The loops of an activity are those of certain steps, and those that have been entered have some
property, together with their bounds and the number of iterations that have begun. -/
inductive Activity.Loops (N : Path × Step → Prop) (Q : Block → Bound → ℕ → Prop) : Activity → Prop
  | planned {a : Activity} (h : a.Planned N) : Loops N Q a
  | ended (flow : Flow) : Loops N Q (.ended flow)
  | pause (path : Path) (o : Option TimeOption) : Loops N Q (.pause path o)
  | sleeping (wake : Instant) : Loops N Q (.sleeping wake)
  | applying (queues : List Queue) : Loops N Q (.applying queues)
  | seq {first rest : Activity} (hfirst : Loops N Q first) (hrest : Loops N Q rest) :
      Loops N Q (.seq first rest)
  | join {branches : List Activity} (h : ∀ a ∈ branches, Loops N Q a) : Loops N Q (.join branches)
  | rounds {block : Block} {bound : Bound} {completed : ℕ} {body : Activity} (hblock : block.Of N)
      (hbound : Q block bound completed) (hbody : body.Planned N) :
      Loops N Q (.rounds block bound completed body)
  | within {block : Block} {bound : Bound} {completed : ℕ} {body current : Activity}
      (hblock : block.Of N) (hbound : Q block bound (completed + 1)) (hbody : body.Planned N)
      (hcurrent : Loops N Q current) : Loops N Q (.within block bound completed body current)

namespace Activity

variable {N : Path × Step → Prop} {Q Q' : Block → Bound → ℕ → Prop}

/-- Only the loops that stand in an activity matter. -/
theorem Loops.mono {a : Activity} (h : a.Loops N Q) :
    (∀ block bound begun, block.path ∈ a.places → Q block bound begun → Q' block bound begun) →
      a.Loops N Q' := by
  induction h with
  | planned h => exact fun _ => .planned h
  | ended flow => exact fun _ => .ended flow
  | pause path o => exact fun _ => .pause path o
  | sleeping wake => exact fun _ => .sleeping wake
  | applying queues => exact fun _ => .applying queues
  | seq _ _ ihfirst ihrest =>
    intro hQ
    refine .seq (ihfirst fun _ _ _ hpath => hQ _ _ _ ?_) (ihrest fun _ _ _ hpath => hQ _ _ _ ?_)
    · exact List.mem_append_left _ hpath
    · exact List.mem_append_right _ hpath
  | join _ ih =>
    intro hQ
    refine .join fun a ha => ih a ha fun _ _ _ hpath => hQ _ _ _ ?_
    rw [Activity.places, placesAll_eq_flatMap]
    exact List.mem_flatMap.mpr ⟨a, ha, hpath⟩
  | rounds hblock hbound hbody =>
    exact fun hQ => .rounds hblock (hQ _ _ _ List.mem_cons_self hbound) hbody
  | within hblock hbound hbody _ ih =>
    intro hQ
    refine .within hblock (hQ _ _ _ List.mem_cons_self hbound) hbody
      (ih fun _ _ _ hpath => hQ _ _ _ ?_)
    exact List.mem_cons_of_mem _ (List.mem_append_right _ hpath)

theorem Loops.of_seq {first rest : Activity} (h : (Activity.seq first rest).Loops N Q) :
    first.Loops N Q ∧ rest.Loops N Q := by
  cases h with
  | planned h =>
    cases h with
    | seq hfirst hrest => exact ⟨.planned hfirst, .planned hrest⟩
  | seq hfirst hrest => exact ⟨hfirst, hrest⟩

theorem Loops.of_join {branches : List Activity} (h : (Activity.join branches).Loops N Q) :
    ∀ a ∈ branches, a.Loops N Q := by
  cases h with
  | planned h =>
    cases h with
    | join h => exact fun a ha => .planned (h a ha)
  | join h => exact h

/-- **A move writes nothing of loops that stand elsewhere.** -/
theorem Move.elsewhere {a a' : Activity} {w w' : World} (h : Move env a w a' w') {path : Path} :
    path ∉ a.places → w'.see (Entry.loop? path) = w.see (Entry.loop? path) := by
  induction h with
  | pause => exact fun _ => see_beginPause_none rfl (fun _ => rfl) (fun _ _ => rfl) _ _
  | dispatch =>
    exact fun _ => see_announce_none rfl (fun _ => rfl) (fun _ => rfl) (fun _ _ => rfl)
      (fun _ _ => rfl) _ _
  | serve _ _ hq =>
    exact fun _ => hq.see_none rfl (fun _ => rfl) (fun _ => rfl) (fun _ _ => rfl)
      (fun _ _ => rfl) (fun _ => rfl) fun _ => rfl
  | first _ ih => exact fun hpath => ih fun hin => hpath (List.mem_append_left _ hin)
  | branch before after _ ih =>
    refine fun hpath => ih fun hin => hpath ?_
    rw [Activity.places, placesAll_eq_flatMap]
    exact List.mem_flatMap.mpr ⟨_, List.mem_append_right _ List.mem_cons_self, hin⟩
  | inside _ ih =>
    exact fun hpath => ih fun hin =>
      hpath (List.mem_cons_of_mem _ (List.mem_append_right _ hin))
  | bar he =>
    intro _
    rw [see_fail_none _ rfl, see_note_none _ rfl, see_enterLoop (fun _ => rfl) he]
  | enter he =>
    intro hpath
    rw [see_note_none _ (if_neg fun heq => hpath (List.mem_cons.mpr (.inl heq.symm))),
      see_enterLoop (fun _ => rfl) he]
  | expire =>
    exact fun hpath =>
      see_note_none _ (if_neg fun heq => hpath (List.mem_cons.mpr (.inl heq.symm)))
  | begin =>
    -- other loops have other paths, and their iterations are told by other texts
    refine fun hpath => see_emit_none _ _ rfl (if_neg fun heq => hpath ?_)
    exact List.mem_cons.mpr (.inl (Path.text_injective heq).symm)
  | _ => exact fun _ => rfl

/-- Loops that stand elsewhere are not touched by a move. -/
theorem Move.keeps {a a' b : Activity} {w w' : World} (h : Move env a w a' w')
    (hplaces : ∀ path ∈ b.places, path ∉ a.places) (hb : b.Loops N (w.Stands env)) :
    b.Loops N (w'.Stands env) := by
  obtain ⟨hnow, new, hjournal, -⟩ := h.grows
  exact hb.mono fun block _ _ hpath hstands =>
    hstands.keep hnow.ge hjournal (h.elsewhere (hplaces _ hpath))

/-- **A move leaves all loops as they are but for one that it enters, or of which it begins an
iteration.** -/
theorem Move.loops {a a' : Activity} {w w' : World} (h : Move env a w a' w') : Arranged a →
    a.Loops N (w.Stands env) → a'.Loops N (w'.Stands env) := by
  induction h with
  | pause =>
    intro _ _
    exact beginPause_activity _ _ _ _ (fun _ => .ended _) (fun _ => .ended _) fun _ => .sleeping
  | wake =>
    intro _ _
    exact pollSleep_activity _ _ (fun _ => .ended _) (fun _ => .ended _) fun _ => .sleeping
  | dispatch => exact fun _ _ => .applying _
  | serve => exact fun _ _ => .applying _
  | first hmove ih =>
    intro harranged ha
    obtain ⟨hfirst, hrest⟩ := ha.of_seq
    cases harranged with
    | seq harranged _ hdisjoint =>
      exact .seq (ih harranged hfirst) (hmove.keeps (fun _ hin hpath => hdisjoint hpath hin) hrest)
  | second => exact fun _ ha => ha.of_seq.2
  | branch before after hmove ih =>
    intro harranged ha
    have hbranches := ha.of_join
    rw [List.forall_mem_append, List.forall_mem_cons] at hbranches
    cases harranged with
    | join harranged hdisjoint =>
      rw [List.pairwise_append, List.pairwise_cons] at hdisjoint
      obtain ⟨-, ⟨hright, -⟩, hleft⟩ := hdisjoint
      refine .join ?_
      rw [List.forall_mem_append, List.forall_mem_cons]
      refine ⟨fun b hb => ?_, ?_, fun b hb => ?_⟩
      · exact hmove.keeps (fun _ hin hpath => hleft b hb _ List.mem_cons_self hin hpath)
          (hbranches.1 b hb)
      · exact ih (harranged _ (List.mem_append_right _ List.mem_cons_self)) hbranches.2.1
      · exact hmove.keeps (fun _ hin hpath => hright b hb hpath hin) (hbranches.2.2 b hb)
  | enter he =>
    intro _ ha
    cases ha with
    | planned h =>
      cases h with
      | enter hs _ hbody =>
        refine .seq (.pause _ _) (.seq (.rounds ?_ (stands_of_enterLoop he) hbody) (.pause _ _))
        exact ⟨_, _, _, rfl, hs⟩
  | begin =>
    intro _ ha
    cases ha with
    | planned h => cases h
    | rounds hblock hbound hbody => exact .within hblock hbound.begin hbody (.planned hbody)
  | inside hmove ih =>
    intro harranged ha
    cases ha with
    | planned h => cases h
    | within hblock hbound hbody hcurrent =>
      cases harranged with
      | within _ _ _ hcurrent' _ hpath =>
        obtain ⟨hnow, new, hjournal, -⟩ := hmove.grows
        exact .within hblock (hbound.keep hnow.ge hjournal (hmove.elsewhere hpath)) hbody
          (ih hcurrent' hcurrent)
  | again =>
    intro _ ha
    cases ha with
    | planned h => cases h
    | within hblock hbound hbody _ => exact .rounds hblock hbound hbody
  | _ => exact fun _ _ => .ended _

end Activity

/-! ### What loops decide -/

/-- What is decided for a loop between two iterations: that another one begins, or that the loop is
left. -/
def Entry.decision? : Entry → Option Entry
  | .event (.iteration order path number mode) => some (.event (.iteration order path number mode))
  | .left path completed => some (.left path completed)
  | _ => none

/-- What is written when it is decided for a loop at an instant whether another iteration begins. -/
def Block.decision (block : Block) (bound : Bound) (completed : ℕ) (now : Instant) : Entry :=
  if bound.continues completed now then .event (block.iteration completed)
  else .left block.path completed

/-- A move decides for one loop as its bound asks, or for none. -/
theorem Activity.Move.decisions {N : Path × Step → Prop} {Q : Block → Bound → ℕ → Prop}
    {a a' : Activity} {w w' : World} (h : Activity.Move env a w a' w') : a.Loops N Q →
      w'.see Entry.decision? = w.see Entry.decision? ∨
        ∃ block bound completed new, block.Of N ∧ Q block bound completed ∧
          w'.journal = new ++ ⟨w.now, block.decision bound completed w.now⟩ :: w.journal ∧
            ∀ r ∈ new, r.entry.decision? = none := by
  induction h with
  | pause => exact fun _ => .inl (see_beginPause_none rfl (fun _ => rfl) (fun _ _ => rfl) _ _)
  | dispatch =>
    exact fun _ => .inl (see_announce_none rfl (fun _ => rfl) (fun _ => rfl) (fun _ _ => rfl)
      (fun _ _ => rfl) _ _)
  | serve _ _ hq =>
    exact fun _ => .inl (hq.see_none rfl (fun _ => rfl) (fun _ => rfl) (fun _ _ => rfl)
      (fun _ _ => rfl) (fun _ => rfl) fun _ => rfl)
  | first _ ih => exact fun ha => ih ha.of_seq.1
  | branch _ _ _ ih => exact fun ha => ih (ha.of_join _ (List.mem_append_right _ List.mem_cons_self))
  | inside _ ih =>
    intro ha
    cases ha with
    | planned h => cases h
    | within _ _ _ hcurrent => exact ih hcurrent
  | bar he =>
    refine fun _ => .inl ?_
    rw [see_fail_none _ rfl, see_note_none _ rfl, see_enterLoop (fun _ => rfl) he]
  | enter he =>
    refine fun _ => .inl ?_
    rw [see_note_none _ rfl, see_enterLoop (fun _ => rfl) he]
  | @expire block bound completed body w hb =>
    intro ha
    cases ha with
    | planned h => cases h
    | rounds hblock hbound _ =>
      refine .inr ⟨block, bound, completed, [], hblock, hbound, ?_, fun r hr => ?_⟩
      · rw [Block.decision, if_neg (ne_true_of_eq_false hb)]
        rfl
      · exact absurd hr List.not_mem_nil
  | @begin block bound completed body w hb _ =>
    intro ha
    cases ha with
    | planned h => cases h
    | rounds hblock hbound _ =>
      -- the caller may cancel inside the event
      obtain ⟨-, new, hjournal, -⟩ :=
        cancelIf_grows (env.cancellation.event.any
          (· = (w.note (.event (block.iteration completed))).journal.eventCount))
          (w.note (.event (block.iteration completed)))
      refine .inr ⟨block, bound, completed, new, hblock, hbound, ?_, ?_⟩
      · rw [Block.decision, if_pos hb]
        exact hjournal
      · exact view_eq_none hjournal (see_cancelIf _ rfl _)
  | _ => exact fun _ => .inl rfl

/-- What a record tells was decided for a loop that had been entered before, as its bound asks. -/
def Record.Decided (env : Environment) (N : Path × Step → Prop) (r : Record) (before : Journal) :
    Prop :=
  ∃ block bound completed started earlier, block.Of N ∧
    before.InLoop env block bound started earlier completed ∧ started ≤ r.time ∧
      r.entry = block.decision bound completed r.time

/-- A record of a journal with what had happened before is new, or it was so of the old journal. -/
theorem Journal.suffix_append_cases {r : Record} {before new j : Journal}
    (h : r :: before <:+ new ++ j) : r ∈ new ∨ r :: before <:+ j := by
  induction new with
  | nil => exact .inr h
  | cons x new ih =>
    rcases List.suffix_cons_iff.mp h with heq | h
    · exact .inl (List.mem_cons.mpr (.inl (List.cons.inj heq).1))
    · exact (ih h).imp_left (List.mem_cons_of_mem x)

/-- The loops of a run were entered before, and all was decided for them as their bounds ask. -/
structure Machine.Granted (env : Environment) (N : Path × Step → Prop) (m : Machine) : Prop where
  arranged : m.activity.Arranged
  loops : m.activity.Loops N (m.world.Stands env)
  decided : ∀ r before, r :: before <:+ m.world.journal → r.entry.decision? ≠ none →
    r.Decided env N before

namespace Machine

variable {N : Path × Step → Prop}

/-- What a world tells besides is nothing to the loops, and time may pass. -/
theorem Granted.of_world {a : Activity} {w w' : World} (h : Granted env N ⟨a, w⟩)
    (hnow : w.now ≤ w'.now) {new : Journal} (hjournal : w'.journal = new ++ w.journal)
    (hloop : ∀ path, w'.see (Entry.loop? path) = w.see (Entry.loop? path))
    (hdecision : w'.see Entry.decision? = w.see Entry.decision?) : Granted env N ⟨a, w'⟩ := by
  refine ⟨h.arranged, h.loops.mono fun block _ _ _ hstands =>
    hstands.keep hnow hjournal (hloop block.path), fun r before hr hdecides => ?_⟩
  rcases Journal.suffix_append_cases (hjournal ▸ hr) with hin | hold
  · exact absurd (view_eq_none hjournal hdecision r hin) hdecides
  · exact h.decided r before hold hdecides

theorem Granted.act {a a' : Activity} {w w' : World} (h : Granted env N ⟨a, w⟩)
    (ha : Activity.Move env a w a' w') : Granted env N ⟨a', w'⟩ := by
  refine ⟨ha.arranged h.arranged, ha.loops h.arranged h.loops, fun r before hr hdecides => ?_⟩
  rcases ha.decisions h.loops with hsame | ⟨block, bound, completed, new, hblock, hbound, hone, hnew⟩
  · obtain ⟨-, new, hjournal, -⟩ := ha.grows
    rcases Journal.suffix_append_cases (hjournal ▸ hr) with hin | hold
    · exact absurd (view_eq_none hjournal hsame r hin) hdecides
    · exact h.decided r before hold hdecides
  · rcases Journal.suffix_append_cases (hone ▸ hr) with hin | hr
    · exact absurd (hnew r hin) hdecides
    · rcases List.suffix_cons_iff.mp hr with heq | hold
      · -- this is what has just been decided
        obtain ⟨rfl, rfl⟩ := List.cons.inj heq
        obtain ⟨started, earlier, hstarted, hloop⟩ := hbound
        exact ⟨block, bound, completed, started, earlier, hblock, hloop, hstarted, rfl⟩
      · exact h.decided r before hold hdecides

/-- **All that is decided for the loops of a run is decided as their bounds ask.** -/
theorem Granted.after {m : Machine} (h : m.Granted env N) (n : ℕ) : (m.after env n).Granted env N := by
  refine after_keep (Granted env N) (fun m hm => ?_) n m h
  refine round_keep (fun ha h => h.act ha) (fun h => ?_) (fun {a w} h => ?_) (fun hle h => ?_) m hm
  · exact h.of_world le_rfl (List.nil_append _).symm (fun _ => rfl) rfl
  · obtain ⟨hnow, new, hjournal, -⟩ := cancelOnTime_grows env w
    exact h.of_world hnow.ge hjournal (fun _ => see_cancelIf w rfl _) (see_cancelIf w rfl _)
  · exact h.of_world hle (List.nil_append _).symm (fun _ => rfl) rfl

end Machine

/-! ### Programs -/

/-- A loop of a tree: that of a composite at a path. -/
def Step.HasLoop (path : Path) (s : Step) (block : Block) : Prop := block.Of (· ∈ s.stepsAt path)

namespace Program

variable {p : Program}

theorem start_granted (env : Environment) (p : Program) :
    (Machine.start env p).Granted env (· ∈ p.step.stepsAt p.step.rootPath) := by
  have hnone : (p.firstWorld env).see Entry.decision? = [] := see_firstWorld rfl
  have hdecided : ∀ r before, r :: before <:+ (p.firstWorld env).journal →
      r.entry.decision? ≠ none → r.Decided env (· ∈ p.step.stepsAt p.step.rootPath) before := by
    intro r before hr hdecides
    rw [see, List.filterMap_eq_nil_iff] at hnone
    have hmem := List.mem_reverse.mpr (hr.subset List.mem_cons_self)
    exact absurd (hnone r.entry (List.mem_map.mpr ⟨r, hmem, rfl⟩)) hdecides
  by_cases hf : p.step.faults = []
  · rw [start_of_valid hf]
    exact ⟨Step.activity_arranged _ _ _, .planned (p.step.activity_planned env.scope _), hdecided⟩
  · rw [start_of_faults hf]
    exact ⟨.ended _, .ended _, hdecided⟩

/-- **All that was decided for the loops of a run was decided as their bounds ask.** -/
theorem decided_of_run? {fuel : ℕ} {result : RunResult} {w : World}
    (h : p.run? env fuel = some (result, w)) : ∀ r before, r :: before <:+ w.journal →
      r.entry.decision? ≠ none → r.Decided env (· ∈ p.step.stepsAt p.step.rootPath) before := by
  rw [Program.run?, Option.map_eq_some_iff] at h
  obtain ⟨⟨flow, w'⟩, hrun, hresult⟩ := h
  have hafter := (Machine.run?_eq_some_iff fuel _ flow w').mp hrun
  have hgranted := (start_granted env p).after fuel
  rw [hafter] at hgranted
  obtain rfl : w'.emit env (.stopped env.runId flow.status) = w := (Prod.mk.inj hresult).2
  -- all that comes after the end is that the run stops
  obtain ⟨hnow, new, hjournal, -⟩ := @emit_grows env (.stopped env.runId flow.status) w'
  exact (hgranted.of_world hnow.ge hjournal (fun _ => see_emit_none env w' rfl rfl)
    (see_emit_none env w' rfl rfl)).decided

end Program

/-! ### The modes of loops -/

/-- What is drawn for a loop by a fair source is within the range of its mode. -/
theorem LoopMode.admits_drawn (hrandom : env.random.Fair) (mode : LoopMode) (j : Journal)
    (h : ¬mode.Barred env.zone) : mode.Admits (env.drawn mode j) := by
  cases mode with
  | random min max =>
    have hrange : ¬max < min := h
    simp only [Environment.drawn, draw?, if_neg hrange, Admits]
    exact hrandom.whole_bounds _ min max (UInt64.not_lt.mp hrange)
  | _ => trivial

/-- A loop that cannot be entered draws nothing. -/
theorem LoopMode.draws_of_barred {zone : Zone} {mode : LoopMode} (h : mode.Barred zone) :
    mode.draws = [] := by
  cases mode with
  | random min max =>
    have hrange : max < min := h
    rw [draws, draw?, if_pos hrange]
    rfl
  | _ => rfl

/-- A loop that has a bound could be entered. -/
theorem LoopMode.not_barred {mode : LoopMode} {zone : Zone} {started : Instant} {wall : UtcTime}
    {drawn : UInt64} {bound : Bound} (h : mode.bound zone started wall drawn = .ok bound) :
    ¬mode.Barred zone := by
  intro hbarred
  obtain ⟨cause, herror⟩ : ∃ cause, mode.bound zone started wall drawn = .error cause :=
    bound_error_iff.mpr hbarred
  rw [h] at herror
  cases herror

/-- **A loop that is entered goes on as its mode asks, and so it does in a run.**  It can be entered
unless its range is empty or its deadline never comes; a number is drawn for it then, and at no
other time; and its bound decides as its mode asks, with this number, for as long as the clock can
tell.  Once the bound has said no it says nothing else.  A deadline is the first instant at which
local clocks show its moment, if the zone keeps the order of time.  Whatever is decided for a loop in
a run, that another iteration begins or that the loop is left, was asked for by the mode, with the
number that was drawn when the loop was entered, and as many iterations are completed as have begun
since. -/
theorem LoopMode.entered_exactly (hrandom : env.random.Fair) (hwall : ∀ t, (env.wall t).Regular) :
    (∀ (mode : LoopMode) (w : World),
      ((∃ cause, (w.enterLoop env mode).1 = .error cause) ↔ mode.Barred env.zone) ∧
      (mode.Barred env.zone → (w.enterLoop env mode).2 = w) ∧
      (w.enterLoop env mode).2 = w.notes (mode.draws.map Entry.drew) ∧
      ∀ bound, (w.enterLoop env mode).1 = .ok bound →
        mode.Admits (env.drawn mode w.journal) ∧
        (mode.Leapless → ∀ completed now, w.now ≤ now → now < Bound.clockRange →
          (bound.continues completed now = true ↔ mode.GoesOn env.zone (env.wall w.now)
            (env.drawn mode w.journal) completed (now - w.now))) ∧
        ∀ completed completed' now now', completed ≤ completed' → now ≤ now' →
          bound.continues completed now = false → bound.continues completed' now' = false) ∧
    (∀ m, env.zone.Ordered m → ∀ wall drawn completed passed,
      ((deadline m).GoesOn env.zone wall drawn completed passed ↔
        ∃ t, env.zone.First m t ∧ wall.count + passed < t.count)) ∧
    ∀ (p : Program) (fuel : ℕ) (result : RunResult) (w : World),
      p.run? env fuel = some (result, w) →
        ∀ (r : Record) (before : Journal), r :: before <:+ w.journal → r.entry.decision? ≠ none →
          r.time < Bound.clockRange → ∃ block bound started earlier completed,
            p.step.HasLoop p.step.rootPath block ∧
            before.InLoop env block bound started earlier completed ∧ started ≤ r.time ∧
            block.mode.Admits (env.drawn block.mode earlier) ∧
            (r.entry = .event (block.iteration completed) ∧ (block.mode.Leapless →
                block.mode.GoesOn env.zone (env.wall started) (env.drawn block.mode earlier)
                  completed (r.time - started)) ∨
              r.entry = .left block.path completed ∧ (block.mode.Leapless →
                ¬block.mode.GoesOn env.zone (env.wall started) (env.drawn block.mode earlier)
                  completed (r.time - started))) := by
  refine ⟨fun mode w => ?_, fun m hz _ _ _ _ => goesOn_deadline_iff hz,
    fun p fuel result w hrun r before hr hdecides hrange => ?_⟩
  · rw [enterLoop_drawn]
    refine ⟨bound_error_iff, fun hbarred => ?_, rfl, fun bound hbound => ⟨?_, ?_, ?_⟩⟩
    · rw [draws_of_barred hbarred]
      rfl
    · exact admits_drawn hrandom mode _ (not_barred hbound)
    · exact fun hmode completed now => continues_iff hbound hmode (hwall _)
    · exact fun _ _ _ _ hcompleted hnow hover => Bound.over_forever hover hcompleted hnow
  · obtain ⟨block, bound, completed, started, earlier, hblock, hloop, hle, hentry⟩ :=
      Program.decided_of_run? hrun r before hr hdecides
    have hiff : block.mode.Leapless → (bound.continues completed r.time = true ↔
        block.mode.GoesOn env.zone (env.wall started) (env.drawn block.mode earlier) completed
          (r.time - started)) :=
      fun hmode => continues_iff hloop.gets hmode (hwall _) hle hrange
    refine ⟨block, bound, started, earlier, completed, hblock, hloop, hle,
      admits_drawn hrandom _ _ (not_barred hloop.gets), ?_⟩
    rw [hentry, Block.decision]
    split
    · next hgoes => exact .inl ⟨rfl, fun hmode => (hiff hmode).mp hgoes⟩
    · next hover => exact .inr ⟨rfl, fun hmode hgoes => hover ((hiff hmode).mpr hgoes)⟩

/-- Ten seconds after the start of 1970. -/
def Moment.tenSeconds : Moment := ⟨⟨1970, 1, 1⟩, ⟨0, 0, 10⟩⟩

/-- A loop until ten seconds after the start of 1970. -/
def LoopMode.tenSeconds : LoopMode := .deadline .tenSeconds

/-- The plain world, in which each call takes four seconds. -/
def Environment.slow : Environment :=
  { Environment.plain with gateway := fun _ _ => { latency := Duration.seconds 4 } }

/-- The lamp is served until ten seconds have passed.  Its third call ends after twelve, so the fourth
one is never made, although the loop was still to go on just before the ten seconds were over. -/
theorem LoopMode.tenSeconds_passed :
    (∃ drawn, tenSeconds.GoesOn Environment.slow.zone ⟨0, 0, 0⟩ drawn 7 (Duration.seconds 10 - 1) ∧
      ¬tenSeconds.GoesOn Environment.slow.zone ⟨0, 0, 0⟩ drawn 7 (Duration.seconds 10)) ∧
    (∃ t, Environment.slow.zone.First .tenSeconds t ∧
      UtcTime.count ⟨0, 0, 0⟩ + (Duration.seconds 10 - 1 : ℕ) < t.count) ∧
    ∃ result w, (Program.lamp tenSeconds).run? .slow 12 = some (result, w) ∧
      (∃ block completed started drawn,
        ⟨Duration.seconds 8, .event (Block.iteration block completed)⟩ ∈ w.journal ∧
          tenSeconds.GoesOn Environment.slow.zone ⟨0, 0, 0⟩ drawn completed
            (Duration.seconds 8 - started)) ∧
      ∃ completed started drawn,
        ⟨Duration.seconds 12, .left (.root .serial) completed⟩ ∈ w.journal ∧
          ¬tenSeconds.GoesOn Environment.slow.zone ⟨0, 0, 0⟩ drawn completed
            (Duration.seconds 12 - started) := by
  obtain ⟨hmodes, hdeadlines, hruns⟩ :=
    @LoopMode.entered_exactly .slow RandomSource.least_fair fun _ => nofun
  have hproper : tenSeconds.Leapless := show (10 : ℕ) ≠ 60 by decide
  have hbound : (World.enterLoop .slow tenSeconds {}).1 = .ok (.stop (Duration.seconds 10)) := by
    rfl
  obtain ⟨-, hiff, -⟩ := (hmodes tenSeconds {}).2.2.2 _ hbound
  have hgoes := (hiff hproper 7 (Duration.seconds 10 - 1) (Nat.zero_le _) (by decide)).mp (by decide)
  refine ⟨⟨_, hgoes, fun h => ?_⟩, ?_, ?_⟩
  · exact absurd ((hiff hproper 7 _ (Nat.zero_le _) (by decide)).mpr h) (by decide)
  · have hordered : Environment.slow.zone.Ordered .tenSeconds := List.pairwise_singleton _ _
    obtain ⟨t, hfirst, hlt⟩ := (hdeadlines _ hordered _ _ _ _).mp hgoes
    exact ⟨t, hfirst, hlt⟩
  · have hthird : ((Program.lamp tenSeconds).run? .slow 12).any (fun x =>
        decide (⟨Duration.seconds 8, .event (.iteration .serial "serial" 3 "deadline")⟩
          ∈ x.2.journal ∧ ⟨Duration.seconds 12, .left (.root .serial) 3⟩ ∈ x.2.journal)) = true := by
      decide +kernel
    -- the program has one loop only
    have hmode : ∀ block, (Program.lamp tenSeconds).step.HasLoop
        (Program.lamp tenSeconds).step.rootPath block → block.mode = tenSeconds := by
      rintro block ⟨steps, loop, pause, hmode, hmem⟩
      simp only [Program.lamp, Step.light, Step.stepsAt, Step.stepsFrom, List.append_nil,
        List.mem_cons, List.not_mem_nil, or_false, Prod.mk.injEq, Step.composite.injEq,
        reduceCtorEq, and_false] at hmem
      rw [← hmode, hmem.2.2.2.1]
    cases hrun : (Program.lamp tenSeconds).run? .slow 12 with
    | none =>
      rw [hrun] at hthird
      cases hthird
    | some x =>
      obtain ⟨result, w⟩ := x
      rw [hrun] at hthird
      obtain ⟨hbegins, hleft⟩ := of_decide_eq_true hthird
      refine ⟨result, w, rfl, ?_, ?_⟩
      · obtain ⟨later, before, hsplit⟩ := List.append_of_mem hbegins
        obtain ⟨block, bound, started, earlier, completed, hblock, -, -, -, hcases⟩ :=
          hruns _ _ _ _ hrun _ before ⟨later, hsplit.symm⟩ nofun (by decide)
        rw [hmode block hblock] at hcases
        obtain ⟨hentry, hgoes⟩ | ⟨hentry, -⟩ := hcases
        · exact ⟨block, completed, started, _, hentry ▸ hbegins, hgoes hproper⟩
        · cases hentry
      · obtain ⟨later, before, hsplit⟩ := List.append_of_mem hleft
        obtain ⟨block, bound, started, earlier, completed, hblock, -, -, -, hcases⟩ :=
          hruns _ _ _ _ hrun _ before ⟨later, hsplit.symm⟩ nofun (by decide)
        rw [hmode block hblock] at hcases
        obtain ⟨hentry, -⟩ | ⟨hentry, hover⟩ := hcases
        · cases hentry
        · obtain ⟨-, rfl⟩ := Entry.left.inj hentry
          exact ⟨3, started, _, hleft, hover hproper⟩

end Lightshow
