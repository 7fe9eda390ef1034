import Lightshow.Run.World

/-!
# What is written into the journal

Whatever a run does to its world it writes into the journal: an entry for each thing that
happens, and one more if the caller cancels inside it.  Here the journal is read in order of
time, and for each operation of the world we say which entries it adds.

What is seen of a journal is nearly always a list of some entries: the events, the calls, what
the calls came to.  Such a *view* is a partial function on entries, and a view that does not
look at cancellations sees exactly what an operation means to write.

## Main definitions

* `Journal.entries`, `World.entries` — what happened, the first thing first.
* `Entry.event?`, `Entry.call?`, `Entry.settled?`, … — views.
* `World.see` — what a view shows of a world.

## Main results

* `entries_note`, `entries_cancelIf` — the entries that the two basic operations add.
* `see_emit`, `see_call`, … — what a view shows after each operation.
* `Journal.map_events`, `Journal.calls_eq`, `Journal.failures_eq` — the lists of the journal as
  views.
-/

namespace Lightshow

/-! ### Views -/

namespace Entry

/-- The event that an entry tells of. -/
def event? : Entry → Option Event
  | .event e => some e
  | _ => none

/-- The call that an entry begins. -/
def call? : Entry → Option Call
  | .called c => some c
  | _ => none

/-- The call that an entry closes, with what it came to. -/
def settled? : Entry → Option (Call × Option DeviceError)
  | .settled c e => some (c, e)
  | _ => none

/-- The transition that an entry dispatches, with its path. -/
def dispatched? : Entry → Option (Path × Transition)
  | .dispatched p t => some (p, t)
  | _ => none

/-- The reference that an entry looks up. -/
def resolved? : Entry → Option DeviceRef
  | .resolved r => some r
  | _ => none

/-- The failure that an entry records. -/
def failure? : Entry → Option Failure
  | .failed f => some f
  | _ => none

end Entry

/-- What happened so far, the first thing first. -/
def Journal.entries (j : Journal) : List Entry := j.reverse.map Record.entry

/-- What happened so far in a world, the first thing first. -/
def World.entries (w : World) : List Entry := w.journal.entries

/-- What a view shows of a world, the first thing first. -/
def World.see {α : Type} (w : World) (view : Entry → Option α) : List α :=
  w.entries.filterMap view

theorem Journal.map_events (j : Journal) :
    j.events.map Prod.snd = j.entries.filterMap Entry.event? := by
  rw [Journal.events, Journal.entries, List.map_filterMap, List.filterMap_map]
  congr 1
  funext r
  cases h : r.entry <;> simp [Entry.event?, h]

theorem Journal.calls_eq (j : Journal) : j.calls = j.entries.filterMap Entry.call? := by
  rw [Journal.calls, Journal.entries, List.filterMap_map]
  rfl

theorem Journal.failures_eq (j : Journal) :
    j.failures = j.entries.filterMap Entry.failure? := by
  rw [Journal.failures, Journal.entries, List.filterMap_map]
  rfl

namespace World

variable {α : Type} (env : Environment) (w : World) (view : Entry → Option α)

/-! ### Entries -/

@[simp] theorem entries_note (e : Entry) : (w.note e).entries = w.entries ++ [e] := by
  simp [entries, Journal.entries, note]

@[simp] theorem now_note (e : Entry) : (w.note e).now = w.now := rfl

@[simp] theorem halted_note (e : Entry) : (w.note e).halted = w.halted := rfl

/-- A run that goes on is not to halt. -/
theorem not_halted_of_going {w : World} (hw : w.halted = false) : ¬w.halted = true := by
  rw [hw]
  exact Bool.false_ne_true

@[simp] theorem cancelled_note (e : Entry) : (w.note e).cancelled = w.cancelled := rfl

@[simp] theorem failed_note (e : Entry) : (w.note e).failed = w.failed := rfl

/-- A world in which several things more happened. -/
def notes (es : List Entry) (w : World) : World := es.foldl (fun w e => w.note e) w

@[simp] theorem entries_notes (es : List Entry) : (w.notes es).entries = w.entries ++ es := by
  induction es generalizing w with
  | nil => exact (List.append_nil _).symm
  | cons e es ih =>
    rw [notes, List.foldl_cons, ← notes, ih, entries_note, List.append_assoc]
    rfl

/-- Writing changes nothing but the journal. -/
theorem notes_eq (es : List Entry) : w.notes es = { w with journal := (w.notes es).journal } := by
  induction es generalizing w with
  | nil => rfl
  | cons e es ih => exact ih (w.note e)

@[simp] theorem cancelled_notes (es : List Entry) : (w.notes es).cancelled = w.cancelled := by
  rw [notes_eq]

@[simp] theorem failed_notes (es : List Entry) : (w.notes es).failed = w.failed := by
  rw [notes_eq]

@[simp] theorem halted_notes (es : List Entry) : (w.notes es).halted = w.halted := by
  rw [halted, cancelled_notes, failed_notes, halted]

/-- The caller cancels once at most. -/
theorem entries_cancelIf (due : Bool) :
    (w.cancelIf due).entries
      = w.entries ++ if due && !w.cancelled then [.cancelled] else [] := by
  unfold cancelIf
  split
  · exact entries_note w .cancelled
  · rw [List.append_nil]

/-- What is written when the caller cancels, or does not. -/
theorem eq_cancelled_of_mem {due : Bool} {e : Entry}
    (h : e ∈ if due then [Entry.cancelled] else []) : e = .cancelled := by
  cases due with
  | false => exact absurd h List.not_mem_nil
  | true => exact List.mem_singleton.mp h

@[simp] theorem now_cancelIf (due : Bool) : (w.cancelIf due).now = w.now := by
  unfold cancelIf; split <;> rfl

@[simp] theorem failed_cancelIf (due : Bool) : (w.cancelIf due).failed = w.failed := by
  unfold cancelIf; split <;> rfl

@[simp] theorem cancelled_cancelIf (due : Bool) :
    (w.cancelIf due).cancelled = (w.cancelled || due) := by
  unfold cancelIf
  cases h : w.cancelled <;> cases due <;> simp [h]

theorem halted_cancelIf (due : Bool) : (w.cancelIf due).halted = (w.halted || due) := by
  rw [halted, halted, cancelled_cancelIf, failed_cancelIf]
  cases w.cancelled <;> cases w.failed <;> cases due <;> rfl

theorem entries_emit (e : Event) :
    (w.emit env e).entries = w.entries ++ .event e ::
      if env.cancellation.event.any (· = (w.note (.event e)).journal.eventCount) && !w.cancelled
        then [.cancelled] else [] := by
  rw [emit, entries_cancelIf, entries_note, List.append_assoc]
  rfl

@[simp] theorem now_call (c : Call) : (w.call env c).now = w.now := by
  rw [call, now_cancelIf, now_note]

/-! ### What views show -/

theorem see_note (e : Entry) : (w.note e).see view = w.see view ++ (view e).toList := by
  rw [see, entries_note, List.filterMap_append, see]
  rfl

theorem see_notes (es : List Entry) : (w.notes es).see view = w.see view ++ es.filterMap view := by
  rw [see, entries_notes, List.filterMap_append, see]

variable {view}

theorem see_draws (hv : ∀ d, view (.drew d) = none) (draws : List Draw) :
    (w.notes (draws.map Entry.drew)).see view = w.see view := by
  have hdraws : (draws.map Entry.drew).filterMap view = [] :=
    List.filterMap_eq_nil_iff.mpr fun e he => by
      obtain ⟨d, -, rfl⟩ := List.mem_map.mp he
      exact hv d
  rw [see_notes, hdraws, List.append_nil]

theorem see_cancelIf (hv : view .cancelled = none) (due : Bool) :
    (w.cancelIf due).see view = w.see view := by
  rw [see, entries_cancelIf, List.filterMap_append, see]
  split <;> simp [hv]

theorem see_emit (hv : view .cancelled = none) (e : Event) :
    (w.emit env e).see view = w.see view ++ (view (.event e)).toList := by
  rw [emit, see_cancelIf _ hv, see_note]

theorem see_call (hv : view .cancelled = none) (c : Call) :
    (w.call env c).see view = w.see view ++ (view (.called c)).toList := by
  rw [call, see_cancelIf _ hv, see_note]

/-- What a view shows can be told from a view that shows as much. -/
theorem see_factor {β : Type} {base : Entry → Option β} {f : β → Option α}
    (h : ∀ e, view e = (base e).bind f) : w.see view = (w.see base).filterMap f := by
  rw [see, see, List.filterMap_filterMap]
  exact congrArg (w.entries.filterMap ·) (funext h)

/-- A view shows the same if one that shows as much does. -/
theorem see_of_base {β : Type} {base : Entry → Option β} {f : β → Option α} {w w' : World}
    (h : ∀ e, view e = (base e).bind f) (hsee : w'.see base = w.see base) :
    w'.see view = w.see view := by
  rw [see_factor w' h, see_factor w h, hsee]

/-! What is not seen. -/

theorem see_note_none {e : Entry} (he : view e = none) : (w.note e).see view = w.see view := by
  rw [see_note, he]
  exact List.append_nil _

theorem see_emit_none {e : Event} (hv : view .cancelled = none) (he : view (.event e) = none) :
    (w.emit env e).see view = w.see view := by
  rw [emit, see_cancelIf _ hv, see_note_none _ he]

theorem see_call_none {c : Call} (hv : view .cancelled = none) (hc : view (.called c) = none) :
    (w.call env c).see view = w.see view := by
  rw [call, see_cancelIf _ hv, see_note_none _ hc]

theorem see_fail_none {cause : RunError} (he : view (.halted cause) = none) :
    (w.fail cause).see view = w.see view := see_note_none w he

theorem see_record (f : Failure) :
    (w.record f).see view = w.see view ++ (view (.failed f)).toList := see_note w view _

theorem see_fail (cause : RunError) :
    (w.fail cause).see view = w.see view ++ (view (.halted cause)).toList := see_note w view _

end World

end Lightshow
