import Lightshow.Proofs.Run.Move
import Lightshow.Proofs.Run.Writes

/-!
# What a run does to its world

Forget what is left to do, and look at the world alone: a run does one thing after the other to
it.  It writes an entry, the caller cancels, an error makes the run halt, a part gives way, the
clock moves.  These are the *operations*, and all moves are put together from them.

The one thing that has to be known of the activity is that it looks before it begins anything:
while the run is to halt, no operation writes an entry that begins something.  So this is made a
condition of writing, and it is shown once that all moves obey it.

## Main definitions

* `Entry.starts`, `Entry.halts` — entries that begin something, and those that make a run halt.
* `World.Op`, `World.Ops` — operations, and sequences of them.
* `World.Faithful` — the flags of a world tell what was written.

## Main results

* `Queue.Move.ops`, `Activity.Move.ops`, `Machine.Moves.ops` — moves are sequences of operations.
* `World.Ops.keep` — what every operation keeps holds after all of them.
* `World.Ops.faithful` — the flags of a world go on to tell what was written.
-/

namespace Lightshow

open Relation World

variable {env : Environment}

/-! ### Operations -/

/-- Whether an entry begins something: a call, a transition, the look-up of a reference, an
iteration. -/
def Entry.starts : Entry → Bool
  | .called _ | .dispatched .. | .resolved _ => true
  | .event (.iteration ..) | .event (.transition ..) => true
  | _ => false

/-- Whether a run is to halt from an entry on. -/
def Entry.halts : Entry → Bool
  | .cancelled | .halted _ => true
  | _ => false

/-- Whether an entry is not for the parts of a run to write: it makes the run halt, or it tells
that the run starts or stops. -/
def Entry.outer : Entry → Bool
  | .event (.started ..) | .event (.stopped ..) => true
  | e => e.halts

theorem Entry.halts_of_outer {e : Entry} (h : e.outer = false) : e.halts = false := by
  cases e with
  | event e => rfl
  | _ => exact h

namespace World

/-- One operation on a world. -/
inductive Op : World → World → Prop
  /-- Something is written, and it begins nothing if the run is to halt. -/
  | note {e : Entry} {w : World} (he : e.outer = false)
      (hs : w.halted = true → e.starts = false) : Op w (w.note e)
  /-- The caller cancels, or does not. -/
  | cancel (due : Bool) (w : World) : Op w (w.cancelIf due)
  /-- An error makes the run halt. -/
  | fail (cause : RunError) (w : World) : Op w (w.fail cause)
  /-- A part gives way. -/
  | yield (w : World) : Op w w.yield
  /-- The clock moves. -/
  | clock (t : Instant) (w : World) : Op w { w with now := t }
  /-- A round begins. -/
  | turn (w : World) : Op w w.nextRound

/-- A sequence of operations. -/
def Ops : World → World → Prop := ReflTransGen Op

/-- **What every operation keeps holds after all of them.** -/
theorem Ops.keep (I : World → Prop) {w w' : World} (h : Ops w w')
    (hI : ∀ {w w' : World}, Op w w' → I w → I w') (hw : I w) : I w' := by
  induction h with
  | refl => exact hw
  | tail _ hop ih => exact hI hop ih

/-- Nothing that was written is lost, and what is written is for the parts of a run to write, or
makes the run halt. -/
theorem Ops.entries {w w' : World} (h : Ops w w') : ∃ new, w'.entries = w.entries ++ new ∧
    ∀ e ∈ new, e.outer = false ∨ e.halts = true := by
  have hstep : ∀ {v v' : World}, Op v v' → ∃ new, v'.entries = v.entries ++ new ∧
      ∀ e ∈ new, e.outer = false ∨ e.halts = true := by
    intro v v' hop
    cases hop with
    | note he => exact ⟨_, entries_note .., fun x hx => .inl (List.mem_singleton.mp hx ▸ he)⟩
    | cancel =>
      refine ⟨_, entries_cancelIf .., fun x hx => .inr ?_⟩
      rw [eq_cancelled_of_mem hx]
      rfl
    | fail cause =>
      exact ⟨_, entries_note .., fun x hx => .inr (by rw [List.mem_singleton.mp hx]; rfl)⟩
    | _ => exact ⟨[], (List.append_nil _).symm, fun x hx => absurd hx List.not_mem_nil⟩
  refine h.keep (fun v => ∃ new, v.entries = w.entries ++ new ∧
      ∀ e ∈ new, e.outer = false ∨ e.halts = true) (fun hop ⟨new, hnew, hall⟩ => ?_)
    ⟨[], (List.append_nil _).symm, fun x hx => absurd hx List.not_mem_nil⟩
  obtain ⟨more, hmore, hall'⟩ := hstep hop
  refine ⟨new ++ more, by rw [hmore, hnew, List.append_assoc], fun x hx => ?_⟩
  exact (List.mem_append.mp hx).elim (hall x) (hall' x)

/-- A run that is to halt remains so. -/
theorem Ops.halted {w w' : World} (h : Ops w w') (hw : w.halted = true) : w'.halted = true := by
  refine h.keep (·.halted = true) (fun hop hw => ?_) hw
  cases hop with
  | note => exact hw
  | cancel due w => rw [halted_cancelIf, hw, Bool.true_or]
  | fail cause w => exact Bool.or_true _
  | _ => exact hw

/-- A run that goes on went on before. -/
theorem Ops.going {w w' : World} (h : Ops w w') (hw : w'.halted = false) : w.halted = false := by
  cases hhalted : w.halted with
  | false => rfl
  | true => exact absurd (h.halted hhalted) (not_halted_of_going hw)

theorem note_ops {e : Entry} {w : World} (he : e.outer = false)
    (hs : w.halted = true → e.starts = false) : Ops w (w.note e) :=
  ReflTransGen.single (.note he hs)

theorem emit_ops {e : Event} {w : World} (he : (Entry.event e).outer = false)
    (hs : w.halted = true → (Entry.event e).starts = false) : Ops w (w.emit env e) :=
  (note_ops he hs).tail (.cancel _ _)

theorem call_ops {c : Call} {w : World} (hw : w.halted = false) : Ops w (w.call env c) := by
  exact (note_ops rfl fun h => absurd h (not_halted_of_going hw)).tail (.cancel _ _)

theorem notes_ops {es : List Entry} : ∀ {w : World}, (∀ e ∈ es, e.outer = false) →
    (w.halted = true → ∀ e ∈ es, e.starts = false) → Ops w (w.notes es) := by
  induction es with
  | nil => exact fun _ _ => ReflTransGen.refl
  | cons e es ih =>
    intro w he hs
    have hfirst : Ops w (w.note e) :=
      note_ops (he e List.mem_cons_self) fun hw => hs hw e List.mem_cons_self
    exact hfirst.trans (ih (fun x hx => he x (List.mem_cons_of_mem e hx))
      fun hw x hx => hs hw x (List.mem_cons_of_mem e hx))

/-- Drawing numbers begins nothing. -/
theorem draws_ops (draws : List Draw) (w : World) : Ops w (w.notes (draws.map Entry.drew)) := by
  refine notes_ops (fun e he => ?_) fun _ e he => ?_
  · obtain ⟨d, -, rfl⟩ := List.mem_map.mp he
    rfl
  · obtain ⟨d, -, rfl⟩ := List.mem_map.mp he
    rfl

end World

/-! ### The flags of a world -/

/-- The flags of a world tell what was written. -/
structure World.Faithful (w : World) : Prop where
  cancelled : w.cancelled = true ↔ .cancelled ∈ w.entries
  failed : w.failed = true ↔ ∃ cause, .halted cause ∈ w.entries

namespace World

/-- A run is to halt if something in its journal says so. -/
theorem Faithful.halted {w : World} (h : w.Faithful) :
    w.halted = true ↔ ∃ e ∈ w.entries, e.halts = true := by
  rw [World.halted, Bool.or_eq_true, h.cancelled, h.failed]
  constructor
  · rintro (hc | ⟨cause, hf⟩)
    · exact ⟨_, hc, rfl⟩
    · exact ⟨_, hf, rfl⟩
  · rintro ⟨e, he, hhalts⟩
    cases e with
    | cancelled => exact .inl he
    | halted cause => exact .inr ⟨cause, he⟩
    | _ => cases hhalts

theorem Faithful.note {w : World} (h : w.Faithful) {e : Entry} (he : e.halts = false) :
    (w.note e).Faithful where
  cancelled := by
    rw [cancelled_note, h.cancelled, entries_note, List.mem_append, List.mem_singleton]
    refine (or_iff_left ?_).symm
    rintro rfl
    exact absurd he nofun
  failed := by
    rw [failed_note, h.failed, entries_note]
    refine exists_congr fun cause => ?_
    rw [List.mem_append, List.mem_singleton]
    refine (or_iff_left ?_).symm
    rintro rfl
    exact absurd he nofun

theorem Faithful.cancelIf {w : World} (h : w.Faithful) (due : Bool) :
    (w.cancelIf due).Faithful where
  cancelled := by
    rw [cancelled_cancelIf, entries_cancelIf, List.mem_append, ← h.cancelled]
    cases w.cancelled <;> cases due <;> simp
  failed := by
    rw [failed_cancelIf, h.failed, entries_cancelIf]
    refine exists_congr fun cause => ?_
    rw [List.mem_append]
    refine (or_iff_left ?_).symm
    split <;> simp

theorem Faithful.fail {w : World} (h : w.Faithful) (cause : RunError) :
    (w.fail cause).Faithful where
  cancelled := by
    have hentries : (w.fail cause).entries = w.entries ++ [.halted cause] := entries_note ..
    rw [hentries, List.mem_append, ← h.cancelled, List.mem_singleton]
    exact (or_iff_left nofun).symm
  failed := by
    have hentries : (w.fail cause).entries = w.entries ++ [.halted cause] := entries_note ..
    rw [hentries]
    exact iff_of_true rfl ⟨cause, List.mem_append_right _ List.mem_cons_self⟩

/-- **The flags of a world go on to tell what was written.** -/
theorem Ops.faithful {w w' : World} (h : Ops w w') (hw : w.Faithful) : w'.Faithful := by
  refine h.keep World.Faithful (fun hop hw => ?_) hw
  cases hop with
  | note he hs => exact hw.note (Entry.halts_of_outer he)
  | cancel due w => exact hw.cancelIf due
  | fail cause w => exact hw.fail cause
  | yield w => exact ⟨hw.cancelled, hw.failed⟩
  | clock t w => exact ⟨hw.cancelled, hw.failed⟩
  | turn w => exact ⟨hw.cancelled, hw.failed⟩

end World

/-! ### Moves -/

namespace Queue

theorem settle_ops (c : Call) (result : Except DeviceError Unit) (w : World) :
    Ops w (settle env c result w).2 := by
  have hshown : ∀ error, Ops w (shown env c error w) := fun error =>
    (note_ops rfl fun _ => rfl).trans (emit_ops rfl fun _ => rfl)
  rcases settle_cases env c result w with ⟨-, h⟩ | ⟨e, -, -, h⟩ | ⟨cause, -, -, h⟩
  · rw [h]
    exact hshown none
  · rw [h]
    exact (hshown (some e)).tail (.note rfl fun _ => rfl)
  · rw [h]
    exact (hshown (some (.gateway cause))).tail (.fail _ _)

theorem Move.ops {q q' : Queue} {w w' : World} (h : Move env q w q' w') : Ops w w' := by
  cases h with
  | finish => exact ReflTransGen.refl
  | halt => exact ReflTransGen.refl
  | call hw hc => exact call_ops hw
  | await => exact note_ops rfl fun _ => rfl
  | answer => exact (note_ops rfl fun _ => rfl).trans (settle_ops ..)
  | acknowledge => exact settle_ops ..

/-- A view that shows nothing of calls shows nothing of queues. -/
theorem Move.see_none {α : Type} {view : Entry → Option α} (hv : view .cancelled = none)
    (hcalled : ∀ c, view (.called c) = none) (hreturned : ∀ c, view (.returned c) = none)
    (hsettled : ∀ c e, view (.settled c e) = none)
    (hshown : ∀ c e, view (.event (Call.applied c e)) = none)
    (hhalted : ∀ e, view (.halted e) = none) (hfailed : ∀ f, view (.failed f) = none)
    {q q' : Queue} {w w' : World} (h : Move env q w q' w') : w'.see view = w.see view := by
  have hsettle : ∀ (c : Call) (result : Except DeviceError Unit) (v : World),
      (settle env c result v).2.see view = v.see view := by
    intro c result v
    rw [see_settle hv, hsettled, hshown]
    cases c.fatal? (error? result) <;> cases c.failure? (error? result) <;>
      simp [hhalted, hfailed]
  cases h with
  | finish => rfl
  | halt => rfl
  | call => exact see_call_none _ _ hv (hcalled _)
  | await => exact see_note_none _ (hreturned _)
  | answer => exact (hsettle _ _ _).trans (see_note_none _ (hreturned _))
  | acknowledge => exact hsettle _ _ _

end Queue

namespace Activity

theorem beginPause_ops (path : Path) (o : TimeOption) (w : World) :
    Ops w (beginPause env path (some o) w).2 := by
  obtain ⟨draws, span, h⟩ := beginPause_eq env path o w
  rw [h, beginSleep_world]
  exact (draws_ops draws w).trans (emit_ops rfl fun _ => rfl)

theorem announce_ops (path : Path) (t : Transition) {w : World} (hw : w.halted = false) :
    Ops w (announce env path t w).2 := by
  have hnever : ∀ {P : Prop}, w.halted = true → P := fun h => absurd h (not_halted_of_going hw)
  have hlookup : ∀ e ∈ (references t).flatMap (lookup env.resolve path), e.outer = false := by
    intro e he
    obtain ⟨r, -, he⟩ := List.mem_flatMap.mp he
    rcases List.mem_cons.mp he with rfl | he
    · rfl
    · obtain ⟨f, -, rfl⟩ := Option.map_eq_some_iff.mp (Option.mem_toList.mp he)
      rfl
  -- nothing of this is written unless the run goes on
  rw [announce_eq]
  refine ((note_ops rfl fun h => hnever h).trans (notes_ops hlookup ?_)).trans (emit_ops rfl ?_)
  · rw [halted_note]
    exact hnever
  · rw [halted_notes, halted_note]
    exact hnever

theorem enterLoop_ops (env : Environment) (mode : LoopMode) (w : World) :
    Ops w (w.enterLoop env mode).2 := by
  obtain ⟨draws, drawn, -, h⟩ := enterLoop_eq env mode w
  rw [h]
  exact draws_ops draws w

theorem Move.ops {a a' : Activity} {w w' : World} (h : Move env a w a' w') : Ops w w' := by
  induction h with
  | pause => exact beginPause_ops ..
  | dispatch hw => exact announce_ops _ _ hw
  | serve _ _ hq => exact hq.ops
  | first _ ih => exact ih
  | branch _ _ _ ih => exact ih
  | inside _ ih => exact ih
  | @bar block _ _ _ _ w w' he =>
    have hloop := enterLoop_ops env block.mode w
    rw [he] at hloop
    -- after the draws it is written that the loop is barred, and the run is to halt
    exact (hloop.tail (.note rfl fun _ => rfl)).tail (.fail _ _)
  | @enter block _ _ _ _ w w' he =>
    have hloop := enterLoop_ops env block.mode w
    rw [he] at hloop
    exact hloop.tail (.note rfl fun _ => rfl)
  | expire => exact note_ops rfl fun _ => rfl
  | begin _ hw => exact emit_ops rfl fun h => absurd h (not_halted_of_going hw)
  | again => exact ReflTransGen.single (.yield _)
  | _ => exact ReflTransGen.refl

end Activity

theorem Machine.Move.ops {m m' : Machine} (h : Machine.Move env m m') : Ops m.world m'.world := by
  cases h with
  | act ha => exact ha.ops
  | wait a w t => exact ReflTransGen.single (.clock t w)
  | turn a w => exact ReflTransGen.single (.turn w)
  | cancel a w due => exact ReflTransGen.single (.cancel due w)

/-- **A run does one operation after the other to its world.** -/
theorem Machine.Moves.ops {m m' : Machine} (h : Machine.Moves env m m') :
    Ops m.world m'.world := by
  induction h with
  | refl => exact ReflTransGen.refl
  | tail _ hmove ih => exact ih.trans hmove.ops

namespace World

theorem faithful_empty : Faithful {} where
  cancelled := iff_of_false nofun List.not_mem_nil
  failed := iff_of_false nofun fun ⟨_, h⟩ => List.not_mem_nil h

theorem Faithful.emit {w : World} (h : w.Faithful) (e : Event) : (w.emit env e).Faithful :=
  (h.note (e := .event e) rfl).cancelIf _

end World

namespace Program

variable {p : Program} {m : Machine}

theorem start_world (env : Environment) (p : Program) :
    (Machine.start env p).world = p.firstWorld env := by
  unfold Machine.start
  cases p.step.faults <;> rfl

/-- All that a run does to its world are operations. -/
theorem Reaches.ops (h : p.Reaches env m) : Ops (p.firstWorld env) m.world := by
  rw [← start_world]
  exact Machine.Moves.ops h

/-- **The flags of a run tell what was written.** -/
theorem Reaches.faithful (h : p.Reaches env m) : m.world.Faithful :=
  h.ops.faithful ((faithful_empty.cancelIf _).emit _)

end Program

end Lightshow
