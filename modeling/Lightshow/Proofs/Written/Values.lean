import Mathlib.Data.List.Nodup
import Lightshow.Proofs.Written.Document
import Lightshow.Proofs.Written.Text
import Lightshow.Program.Reading

/-!
# Written values

The parts of a program may be given in several forms.  Here one of them is chosen for each part,
the record that names every field, and shown to be read back.  A brightness in range, a pause and
a loop are such parts; a loop with a deadline is not written.

The plain numbers that the other forms of a pause or a loop consist of are asked for first, so a
record has to be refused by the readers of numbers and truth values.  It always is.

## Main definitions

* `TimeOption.document`, `Pause.document`, `Loop.document` — the records.
* `Brightness.Writable`, `DeviceState.Writable`, `LoopMode.Writable` — what is written.

## Main results

* `DeviceState.written`, `Pause.written`, `Loop.written` — the records are read back.
-/

namespace Lightshow

open Document

/-- The record with some named fields. -/
def Document.object (fields : List (String × Document)) : Document :=
  .record .settled (fields.map fun f => (.text f.1, f.2))

/-! ### Numbers -/

/-- A whole number as a document. -/
def countDocument (n : UInt64) : Document := .int n.toNat

theorem asWord_int {bits n : ℕ} (h : n < 1 <<< bits) : asWord bits (.int n) = .ok n :=
  if_pos ⟨Int.natCast_nonneg n, h⟩

theorem written_float (x : Float) : Written asFloat x (.float x) := Written.leaf trivial rfl rfl

theorem written_bool (b : Bool) : Written asBool b (.bool b) := Written.leaf trivial rfl rfl

theorem written_text (s : String) : Written asText s (.text s) := Written.leaf trivial rfl rfl

/-- A whole number with so many bits is read back. -/
theorem written_word {α : Type} (bits : ℕ) {n : ℕ} (f : ℕ → α) (h : n < 1 <<< bits) :
    Written (fun d => f <$> d.asWord bits) (f n) (.int n) := by
  refine Written.leaf trivial rfl ?_
  rw [asWord_int h]
  rfl

theorem written_uInt8 (n : UInt8) :
    Written (fun d => UInt8.ofNat <$> d.asWord 8) n (.int n.toNat) := by
  have h := written_word 8 UInt8.ofNat n.toNat_lt
  rwa [UInt8.ofNat_toNat] at h

theorem written_uInt16 (n : UInt16) :
    Written (fun d => UInt16.ofNat <$> d.asWord 16) n (.int n.toNat) := by
  have h := written_word 16 UInt16.ofNat n.toNat_lt
  rwa [UInt16.ofNat_toNat] at h

theorem written_uInt32 (n : UInt32) :
    Written (fun d => UInt32.ofNat <$> d.asWord 32) n (.int n.toNat) := by
  have h := written_word 32 UInt32.ofNat n.toNat_lt
  rwa [UInt32.ofNat_toNat] at h

theorem written_count (n : UInt64) : Written asCount n (countDocument n) := by
  have h := written_word 64 UInt64.ofNat n.toNat_lt
  rwa [UInt64.ofNat_toNat] at h

/-! ### States -/

/-- A brightness in range. -/
def Brightness.Writable : Brightness → Prop
  | .level n => n.toNat ≤ top
  | .step n => n.natAbs ≤ top

instance : DecidablePred Brightness.Writable
  | .level n => inferInstanceAs (Decidable (n.toNat ≤ Brightness.top))
  | .step n => inferInstanceAs (Decidable (n.natAbs ≤ Brightness.top))

/-- A level is a number, and a step is a text that no reader of numbers takes. -/
theorem Brightness.written {b : Brightness} (h : b.Writable) :
    Written Brightness.ofDocument b b.document := by
  cases b with
  | level n =>
    have hsigned : Written asSigned (n.toNat : ℤ) (.int n.toNat) := by
      refine Written.leaf trivial rfl (if_pos ?_)
      exact decide_eq_true (Nat.lt_trans n.toNat_lt (by decide))
    refine Written.bind (Written.firstFit_head (hsigned.returning Sum.inl)) ?_
    have hrange : 0 ≤ (n.toNat : ℤ) ∧ (n.toNat : ℤ) ≤ top :=
      ⟨Int.natCast_nonneg _, Int.ofNat_le.mpr h⟩
    show Brightness.ofNumber n.toNat = _
    rw [ofNumber, level?, if_pos hrange, Int.toNat_natCast, UInt8.ofNat_toNat]
  | step n =>
    have hrefuse : Refuses asSigned (.text (Brightness.step n).text) := by
      intro d' hd'
      rw [hd'.eq_of_isLeaf trivial]
      rfl
    have htext := (written_text (Brightness.step n).text).returning (Sum.inr : String → ℤ ⊕ String)
    refine Written.bind (Written.firstFit_tail hrefuse.bind (Written.firstFit_head htext)) ?_
    exact read_text h

/-- A state with its brightness in range. -/
def DeviceState.Writable (s : DeviceState) : Prop := ∀ b ∈ s.bri, b.Writable

/-- How the value of a field is written. -/
def StateField.write : (f : StateField) → f.Value → Document
  | on => .bool
  | bri => Brightness.document
  | hue => fun n : UInt16 => .int n.toNat
  | sat => fun n : UInt8 => .int n.toNat
  | xy => pairDocument
  | ct => fun n : UInt16 => .int n.toNat
  | ctk => fun n : UInt32 => .int n.toNat
  | transitionTime => fun n : UInt16 => .int n.toNat
  | time => .float

theorem StateField.isPresent_write (f : StateField) (v : f.Value) : (f.write v).IsPresent := by
  cases f with
  | bri => cases (v : Brightness) <;> trivial
  | on | hue | sat | xy | ct | ctk | transitionTime | time => trivial

/-- A value of a field that is written. -/
def StateField.Writable : (f : StateField) → f.Value → Prop
  | bri => Brightness.Writable
  | on | hue | sat | xy | ct | ctk | transitionTime | time => fun _ => True

/-- A field is read back. -/
theorem StateField.written (f : StateField) (v : f.Value) (h : f.Writable v) :
    Written f.read v (f.write v) := by
  cases f with
  | on => exact written_bool v
  | bri => exact Brightness.written h
  | hue | ct | transitionTime => exact written_uInt16 v
  | sat => exact written_uInt8 v
  | ctk => exact written_uInt32 v
  | xy => exact (written_float _).pair (written_float _)
  | time => exact written_float v

/-- The fields of a state, those that are not set being left out. -/
def DeviceState.table (s : DeviceState) : DeviceState.format.Table
  | .on => s.on.map some
  | .bri => s.bri.map some
  | .hue => s.hue.map some
  | .sat => s.sat.map some
  | .xy => s.xy.map some
  | .ct => s.ct.map some
  | .ctk => s.ctk.map some
  | .transitionTime => s.transitionTime.map some
  | .time => s.time.map some

theorem DeviceState.ofTable_table (s : DeviceState) : DeviceState.ofTable s.table = s := by
  have hjoin : ∀ {α : Type} (o : Option α), (o.map some).join = o := fun o => by cases o <;> rfl
  obtain ⟨on, bri, hue, sat, xy, ct, ctk, transitionTime, time⟩ := s
  show DeviceState.mk (on.map some).join (bri.map some).join (hue.map some).join
    (sat.map some).join (xy.map some).join (ct.map some).join (ctk.map some).join
    (transitionTime.map some).join (time.map some).join = _
  simp only [hjoin]

theorem DeviceState.format_proper : DeviceState.format.Proper :=
  ⟨fun f => by cases f <;> rfl, by decide⟩

theorem DeviceState.document_eq (s : DeviceState) :
    s.document = DeviceState.format.document (fun f => ofOption f.write) s.table := by
  have hentry : ∀ {α : Type} (name : String) (write : α → Document) (o : Option α),
      fieldEntry name write o
        = ((o.map some).map fun v => (Document.text name, ofOption write v)).toList := by
    intro α name write o
    cases o <;> rfl
  unfold DeviceState.document RecordFormat.document
  have hfields : DeviceState.format.fields
      = [.on, .bri, .hue, .sat, .xy, .ct, .ctk, .transitionTime, .time] := rfl
  rw [List.filterMap_eq_flatMap_toList, hfields]
  simp only [hentry, List.append_assoc, List.flatMap_cons, List.flatMap_nil, List.append_nil]
  rfl

/-- **A state is read back**, in whatever order its fields stand. -/
theorem DeviceState.written {s : DeviceState} (h : s.Writable) :
    Written DeviceState.ofDocument s s.document := by
  have hfield : ∀ f v, s.table f = some v →
      Written (DeviceState.format.read f) v (ofOption f.write v) := by
    intro f v hv
    refine Written.optional fun x hx => ⟨f.isPresent_write x, f.written x ?_⟩
    cases f with
    | bri =>
      obtain ⟨b, hb, rfl⟩ := Option.map_eq_some_iff.mp hv
      obtain rfl := Option.some.inj hx
      exact h b hb
    | on | hue | sat | xy | ct | ctk | transitionTime | time => trivial
  have htable := RecordFormat.written_table DeviceState.format_proper s.table _
    (fun f hf => absurd hf Bool.false_ne_true) hfield
  rw [DeviceState.document_eq]
  have hstate := htable.map DeviceState.ofTable
  rwa [DeviceState.ofTable_table] at hstate

/-! ### Pauses -/

section Bounds

variable {α : Type} {bound : Document → Except ReadError α} {write : α → Document}

/-- A range as a document. -/
def boundsDocument (write : α → Document) (p : α × α) : Document :=
  .object [("min", write p.1), ("max", write p.2)]

/-- Both bounds of a range. -/
def boundsTable (bound : Document → Except ReadError α) (p : α × α) :
    (rangeFormat α bound).Table
  | .min => some p.1
  | .max => some p.2

theorem rangeFormat_proper : (rangeFormat α bound).Proper where
  named f := by cases f <;> rfl
  nodup := by
    show [RangeField.min, .max].Nodup
    decide

/-- A range is read back if its bounds are. -/
theorem written_bounds (h : ∀ x, Written bound x (write x)) (p : α × α) :
    Written (boundsOfDocument bound) p (boundsDocument write p) := by
  have htable : Written (rangeFormat α bound).table (boundsTable bound p)
      (boundsDocument write p) :=
    RecordFormat.written_table rangeFormat_proper (boundsTable bound p) (fun _ => write)
      (fun f _ => by cases f <;> rfl) fun f v _ => h v
  exact Written.bind htable rfl

end Bounds

/-- The range of a random part as a document. -/
def Jitter.document (j : Jitter) : Document := boundsDocument .float (j.min, j.max)

theorem Jitter.written (j : Jitter) : Written Jitter.ofDocument j j.document :=
  Written.bind (written_bounds written_float (j.min, j.max)) rfl

namespace TimeOption

/-- A time option as a document, with `null` for no random part. -/
def document (o : TimeOption) : Document :=
  .object [("seconds", .float o.seconds), ("jitter", ofOption Jitter.document o.jitter)]

/-- Both fields of a time option. -/
def table (o : TimeOption) : TimeOption.format.Table
  | .seconds => some o.seconds
  | .jitter => some o.jitter

/-- How the value of a field is written. -/
def writeField : (f : TimeField) → TimeOption.format.Value f → Document
  | .seconds => .float
  | .jitter => ofOption Jitter.document

theorem format_proper : TimeOption.format.Proper := ⟨fun f => by cases f <;> rfl, by decide⟩

theorem written_field (f : TimeField) (v : TimeOption.format.Value f) :
    Written (TimeOption.format.read f) v (writeField f v) := by
  cases f with
  | seconds => exact written_float v
  | jitter => exact Written.optional fun j _ => ⟨trivial, j.written⟩

/-- The record is no number, so it is read as a record. -/
theorem written (o : TimeOption) : Written TimeOption.ofDocument o o.document := by
  have htable : Written TimeOption.format.table o.table o.document :=
    RecordFormat.written_table format_proper o.table writeField
      (fun f hf => absurd hf Bool.false_ne_true) fun f v _ => written_field f v
  exact (Written.firstFit_head (htable.map TimeOption.ofTable)).firstFit_tail
    (refuses_record fun _ => rfl)

end TimeOption

namespace Pause

/-- A pause as a document, with `null` for what is absent. -/
def document (p : Pause) : Document :=
  .object [("before", ofOption TimeOption.document p.before),
    ("after", ofOption TimeOption.document p.after)]

/-- Both fields of a pause. -/
def table (p : Pause) : Pause.format.Table
  | .before => some p.before
  | .after => some p.after

theorem format_proper : Pause.format.Proper := ⟨fun f => by cases f <;> rfl, by decide⟩

/-- **A pause is read back.** -/
theorem written (p : Pause) : Written Pause.ofDocument p p.document := by
  have htable : Written Pause.format.table p.table p.document :=
    RecordFormat.written_table format_proper p.table (fun _ => ofOption TimeOption.document)
      (fun f hf => absurd hf Bool.false_ne_true)
      fun f v _ => Written.optional fun o _ => ⟨trivial, o.written⟩
  exact (Written.firstFit_head (htable.map Pause.ofTable)).firstFit_tail
    (refuses_record fun _ => rfl)

end Pause

/-! ### Loops -/

/-- A timer as a document. -/
def Timer.document (t : Timer) : Document :=
  .object [("hours", countDocument t.hours), ("minutes", countDocument t.minutes),
    ("seconds", countDocument t.seconds)]

/-- All fields of a timer. -/
def Timer.table (t : Timer) : Timer.format.Table
  | .hours => some t.hours
  | .minutes => some t.minutes
  | .seconds => some t.seconds

theorem Timer.format_proper : Timer.format.Proper := ⟨fun f => by cases f <;> rfl, by decide⟩

theorem Timer.written (t : Timer) : Written Timer.ofDocument t t.document := by
  have htable : Written Timer.format.table t.table t.document :=
    RecordFormat.written_table Timer.format_proper t.table (fun _ => countDocument)
      (fun f hf => absurd hf Bool.false_ne_true) fun f v _ => written_count v
  exact Written.bind htable rfl

/-- A mode that is written: any but a deadline. -/
def LoopMode.Writable : LoopMode → Prop
  | .infinite | .counted _ | .random .. | .timer _ => True
  | .deadline _ => False

/-- The name of the field that asks for a mode. -/
def LoopMode.key : LoopMode → String
  | .infinite => "infinite"
  | .counted _ => "count"
  | .random .. => "random"
  | .timer _ => "timer"
  | .deadline _ => "deadline"

/-- What a mode is given by. A deadline is not written. -/
def LoopMode.document : LoopMode → Document
  | .infinite => .bool true
  | .counted n => countDocument n
  | .random min max => boundsDocument countDocument (min, max)
  | .timer t => t.document
  | .deadline _ => .null

/-- A loop as a document: its mode, and its pause with `null` for none. -/
def Loop.document (l : Loop) : Document :=
  .object [(l.mode.key, l.mode.document), ("pause", ofOption TimeOption.document l.pause)]

/-- How the value of a field is written. -/
def LoopField.write : (f : LoopField) → f.Value → Document
  | infinite => .bool
  | count => ofOption countDocument
  | random => ofOption (boundsDocument countDocument)
  | timer => ofOption Timer.document
  | deadline => fun _ => .null
  | pause => ofOption TimeOption.document

theorem LoopField.written {f : LoopField} (hf : f ≠ .deadline) (v : f.Value) :
    Written f.read v (f.write v) := by
  cases f with
  | infinite => exact written_bool v
  | count => exact Written.optional fun n _ => ⟨trivial, written_count n⟩
  | random => exact Written.optional fun p _ => ⟨trivial, written_bounds written_count p⟩
  | timer => exact Written.optional fun t _ => ⟨trivial, t.written⟩
  | deadline => exact absurd rfl hf
  | pause => exact Written.optional fun o _ => ⟨trivial, o.written⟩

/-- The fields of a loop: the one of its mode, and the pause. -/
def Loop.table (l : Loop) : Loop.format.Table
  | .infinite => match l.mode with
    | .infinite => some true
    | _ => none
  | .count => match l.mode with
    | .counted n => some (some n)
    | _ => none
  | .random => match l.mode with
    | .random min max => some (some (min, max))
    | _ => none
  | .timer => match l.mode with
    | .timer t => some (some t)
    | _ => none
  | .deadline => match l.mode with
    | .deadline m => some (some m)
    | _ => none
  | .pause => some l.pause

theorem Loop.format_proper : Loop.format.Proper := ⟨fun f => by cases f <;> rfl, by decide⟩

/-- **A loop is read back** if it has no deadline. -/
theorem Loop.written {l : Loop} (h : l.mode.Writable) : Written Loop.ofDocument l l.document := by
  obtain ⟨mode, pause⟩ := l
  have hdocument : (Loop.mk mode pause).document
      = Loop.format.document LoopField.write (Loop.mk mode pause).table := by
    cases mode with
    | infinite | counted | random | timer => rfl
    | deadline => exact h.elim
  have htable : Written Loop.format.table (Loop.mk mode pause).table
      (Loop.mk mode pause).document := by
    rw [hdocument]
    refine RecordFormat.written_table Loop.format_proper _ _
      (fun f hf => absurd hf Bool.false_ne_true) fun f v hv => LoopField.written ?_ v
    rintro rfl
    cases mode with
    | infinite | counted | random | timer => cases hv
    | deadline => exact h
  have hmodes : Loop.ofTable (Loop.mk mode pause).table = .ok ⟨mode, pause⟩ := by
    cases mode with
    | infinite | counted | random | timer => rfl
    | deadline => exact h.elim
  refine Written.bind (Written.firstFit_tail (refuses_record fun _ => rfl)
    (Written.firstFit_head (htable.returning Sum.inr))) ?_
  exact hmodes

end Lightshow
