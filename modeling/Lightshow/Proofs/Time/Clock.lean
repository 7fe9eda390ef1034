import Lightshow.Proofs.Run.Operation

/-!
# The clock during a poll

The clock of a run moves between its rounds only.  While the parts of a run go on it stands still,
and all that they write is written at one instant.

## Main definitions

* `World.Grows` — something is written, and no time passes.

## Main results

* `Activity.Move.grows`, `Activity.poll_grows` — **no time passes while an activity goes on.**
* `Machine.after_keep`, `Machine.round_world` — rounds.
* `World.see_of_journal`, `World.view_eq_none` — what views show of what was written.
* `foldr_max_le_iff` — the last of some instants.
-/

namespace Lightshow

open Relation World

variable {env : Environment}

/-- The last of some instants, and of the present. -/
theorem foldr_max_le_iff {now t : ℕ} {ts : List ℕ} :
    ts.foldr max now ≤ t ↔ now ≤ t ∧ ∀ u ∈ ts, u ≤ t := by
  induction ts with
  | nil => exact ⟨fun h => ⟨h, fun u hu => absurd hu List.not_mem_nil⟩, And.left⟩
  | cons u ts ih =>
    rw [List.foldr_cons, List.forall_mem_cons, Nat.max_le, ih]
    exact and_left_comm

namespace World

/-- From one world to another no time passes, and what is written bears the time. -/
def Grows (w w' : World) : Prop :=
  w'.now = w.now ∧ ∃ new : Journal, w'.journal = new ++ w.journal ∧ ∀ r ∈ new, r.time = w.now

variable {u v w : World}

theorem Grows.refl (w : World) : w.Grows w :=
  ⟨rfl, [], rfl, fun _ hr => absurd hr List.not_mem_nil⟩

theorem Grows.trans (huv : u.Grows v) (hvw : v.Grows w) : u.Grows w := by
  obtain ⟨hnow, new, hjournal, hnew⟩ := huv
  obtain ⟨hnow', new', hjournal', hnew'⟩ := hvw
  refine ⟨hnow'.trans hnow, new' ++ new, ?_, fun r hr => ?_⟩
  · rw [hjournal', hjournal, List.append_assoc]
  · rcases List.mem_append.mp hr with hr | hr
    · exact (hnew' r hr).trans hnow
    · exact hnew r hr

theorem note_grows (e : Entry) (w : World) : w.Grows (w.note e) :=
  ⟨rfl, [⟨w.now, e⟩], rfl, fun r hr => by rw [List.mem_singleton.mp hr]⟩

theorem cancelIf_grows (due : Bool) (w : World) : w.Grows (w.cancelIf due) := by
  unfold cancelIf
  split
  · exact note_grows .cancelled w
  · exact .refl w

theorem cancelOnTime_grows (env : Environment) (w : World) : w.Grows (w.cancelOnTime env) :=
  cancelIf_grows _ w

theorem emit_grows (e : Event) (w : World) : w.Grows (w.emit env e) :=
  (note_grows _ w).trans (cancelIf_grows _ _)

theorem call_grows (c : Call) (w : World) : w.Grows (w.call env c) :=
  (note_grows _ w).trans (cancelIf_grows _ _)

theorem fail_grows (cause : RunError) (w : World) : w.Grows (w.fail cause) :=
  note_grows (.halted cause) w

theorem yield_grows (w : World) : w.Grows w.yield :=
  ⟨rfl, [], rfl, fun _ hr => absurd hr List.not_mem_nil⟩

theorem notes_grows (es : List Entry) : ∀ w : World, w.Grows (w.notes es) := by
  induction es with
  | nil => exact Grows.refl
  | cons e es ih => exact fun w => (note_grows e w).trans (ih _)

/-- What a view shows in the end is what it showed before, and what it shows of what was written
since. -/
theorem see_of_journal {α : Type} {new : Journal} (h : w.journal = new ++ v.journal)
    (view : Entry → Option α) : w.see view = v.see view ++ new.entries.filterMap view := by
  rw [see, see, entries, entries, Journal.entries, Journal.entries, Journal.entries, h,
    List.reverse_append, List.map_append, List.filterMap_append]

/-- Nothing was written that a view shows, if it shows no more than before. -/
theorem view_eq_none {α : Type} {new : Journal} (h : w.journal = new ++ v.journal)
    {view : Entry → Option α} (hsee : w.see view = v.see view) :
    ∀ r ∈ new, view r.entry = none := by
  intro r hr
  rw [see_of_journal h view] at hsee
  have hnone := List.filterMap_eq_nil_iff.mp (List.append_right_eq_self.mp hsee)
  exact hnone _ (List.mem_map.mpr ⟨r, List.mem_reverse.mpr hr, rfl⟩)

/-- When a run has come to halt, something that makes it halt was written since it went on. -/
theorem Faithful.halts_since {new : Journal} (hv : v.Faithful) (hw : w.Faithful)
    (h : w.journal = new ++ v.journal) (hgoing : v.halted = false) (hhalted : w.halted = true) :
    ∃ r ∈ new, r.entry.halts = true := by
  obtain ⟨e, he, hhalts⟩ := hw.halted.mp hhalted
  obtain ⟨r, hr, rfl⟩ := List.mem_map.mp he
  rw [List.mem_reverse, h] at hr
  rcases List.mem_append.mp hr with hr | hr
  · exact ⟨r, hr, hhalts⟩
  · have hbefore : r.entry ∈ v.entries := List.mem_map.mpr ⟨r, List.mem_reverse.mpr hr, rfl⟩
    exact absurd (hv.halted.mpr ⟨_, hbefore, hhalts⟩) (not_halted_of_going hgoing)

end World

namespace Queue

theorem settle_grows (c : Call) (result : Except DeviceError Unit) (w : World) :
    w.Grows (settle env c result w).2 := by
  have hshown : ∀ error, w.Grows (shown env c error w) := fun error =>
    (note_grows _ w).trans (emit_grows _ _)
  rcases settle_cases env c result w with ⟨-, h⟩ | ⟨e, -, -, h⟩ | ⟨cause, -, -, h⟩
  · rw [h]
    exact hshown none
  · rw [h]
    exact (hshown (some e)).trans (note_grows _ _)
  · rw [h]
    exact (hshown (some (.gateway cause))).trans (fail_grows _ _)

theorem Move.grows {q q' : Queue} {w w' : World} (h : Move env q w q' w') : w.Grows w' := by
  cases h with
  | finish => exact .refl w
  | halt => exact .refl w
  | call => exact call_grows _ w
  | await => exact note_grows _ w
  | answer => exact (note_grows _ w).trans (settle_grows ..)
  | acknowledge => exact settle_grows ..

theorem Moves.grows {x y : Queue × World} (h : Moves env x y) : x.2.Grows y.2 := by
  induction h with
  | refl => exact .refl _
  | tail _ hmove ih => exact ih.trans hmove.grows

end Queue

namespace Activity

theorem beginPause_grows (path : Path) (o : TimeOption) (w : World) :
    w.Grows (beginPause env path (some o) w).2 := by
  obtain ⟨draws, span, h⟩ := beginPause_eq env path o w
  rw [h, beginSleep_world]
  exact (notes_grows _ w).trans (emit_grows _ _)

theorem announce_grows (path : Path) (t : Transition) (w : World) :
    w.Grows (announce env path t w).2 := by
  rw [announce_eq]
  exact ((note_grows _ w).trans (notes_grows _ _)).trans (emit_grows _ _)

theorem enterLoop_grows {mode : LoopMode} {result : Except LoopError Bound} {w w' : World}
    (h : w.enterLoop env mode = (result, w')) : w.Grows w' := by
  obtain ⟨draws, times, -, heq⟩ := enterLoop_eq env mode w
  rw [heq] at h
  obtain ⟨-, rfl⟩ := Prod.mk.inj h
  exact notes_grows _ w

/-- **No time passes while a part of an activity goes on.** -/
theorem Move.grows {a a' : Activity} {w w' : World} (h : Move env a w a' w') : w.Grows w' := by
  induction h with
  | pause => exact beginPause_grows ..
  | dispatch => exact announce_grows ..
  | serve _ _ hq => exact hq.grows
  | first _ ih => exact ih
  | branch _ _ _ ih => exact ih
  | inside _ ih => exact ih
  | bar he => exact ((enterLoop_grows he).trans (note_grows _ _)).trans (fail_grows _ _)
  | enter he => exact (enterLoop_grows he).trans (note_grows _ _)
  | expire => exact note_grows _ _
  | begin => exact emit_grows _ _
  | again => exact yield_grows _
  | _ => exact .refl _

theorem Moves.grows {x y : Progress} (h : Moves env x y) : x.2.Grows y.2 := by
  induction h with
  | refl => exact .refl _
  | tail _ hmove ih => exact ih.trans hmove.grows

/-- **No time passes during a poll.** -/
theorem poll_grows (a : Activity) (w : World) : w.Grows (poll env a w).2 :=
  Moves.grows (poll_moves a w)

end Activity

/-! ### Rounds -/

namespace Machine

/-- What a round keeps holds after any number of rounds. -/
theorem after_keep (I : Machine → Prop) (hI : ∀ m : Machine, I m → I (m.round env)) (n : ℕ) :
    ∀ m : Machine, I m → I (m.after env n) := by
  induction n with
  | zero => exact fun m hm => hm
  | succ n ih =>
    intro m hm
    unfold after
    split
    · exact hm
    · exact ih _ (hI m hm)

theorem advance_world (before : World) (m : Machine) :
    ∃ now, (advance env before m).world = { m.world with now := now } := by
  unfold advance
  split
  · exact ⟨m.world.now, rfl⟩
  · exact ⟨_, rfl⟩

/-- What a round writes is written by the caller, or by the parts of the run. -/
theorem round_world (env : Environment) (m : Machine) : ∃ now, (m.round env).world
    = { (m.activity.poll env (World.cancelOnTime env m.world.nextRound)).2 with now := now } := by
  rcases hp : m.activity.poll env (World.cancelOnTime env m.world.nextRound) with ⟨a, w⟩
  simp only [round, hp]
  cases a with
  | ended flow => exact ⟨w.now, rfl⟩
  | _ => exact advance_world _ ⟨_, w⟩

end Machine

end Lightshow
