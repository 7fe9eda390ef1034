import Lightshow.Proofs.Reading.Program
import Lightshow.Proofs.Reading.Steps
import Lightshow.Proofs.State.Brightness
import Lightshow.Proofs.Written.Values

/-!
# States as JSON values

A state is written as an object with an entry for each field that is set, and it is read from such
an object without regard to the order of its keys.  Two things can be lost on the way.  JSON has no
numbers but finite ones: any other float becomes `null`, and then a time reads as left out and a
colour is refused.  And a brightness is only read if it is in range, whatever was written.

Nothing else is lost.  The states that come back are those with their brightness in range and
their floats finite, and they come back as they were: no field is set that was not, none becomes
another, and a step remains a step even if it is zero, since its text shows the sign.

## Main definitions

* `DeviceState.Finite` — the floats of a state are finite.

## Main results

* `RecordFormat.table_document` — what is found in a table that was written out.
* `Brightness.writable_of_ofDocument` — what is read as a brightness is in range.
* `DeviceState.json_read_back` — **which states are read back from their JSON values.**
-/

namespace Lightshow

open Document Text

/-! ### Tables that were written out -/

/-- Where only the image of one member passes a test, it is what the test finds. -/
theorem find?_filterMap {α β : Type} {xs : List α} {g : α → Option β} {p : β → Bool} {x : α}
    (hx : x ∈ xs) (hp : ∀ y b, g y = some b → (p b = true ↔ y = x)) :
    (xs.filterMap g).find? p = g x := by
  cases hg : g x with
  | none =>
    apply List.find?_eq_none.mpr
    intro b hb htest
    obtain ⟨y, -, hy⟩ := List.mem_filterMap.mp hb
    obtain rfl := (hp y b hy).mp htest
    rw [hg] at hy
    cases hy
  | some b =>
    have hmem : b ∈ xs.filterMap g := List.mem_filterMap.mpr ⟨x, hx, hg⟩
    have hsome : ((xs.filterMap g).find? p).isSome :=
      List.find?_isSome.mpr ⟨b, hmem, (hp x b hg).mpr rfl⟩
    obtain ⟨c, hc⟩ := Option.isSome_iff_exists.mp hsome
    obtain ⟨y, -, hy⟩ := List.mem_filterMap.mp (List.mem_of_find?_eq_some hc)
    obtain rfl := (hp y c hy).mp (List.find?_some hc)
    rw [hc, ← hg, ← hy]

/-- **In a table that was written out** each field is found as it is read by itself. -/
theorem RecordFormat.table_document {φ : Type} [DecidableEq φ] {format : RecordFormat φ}
    (hformat : format.Proper) {write : (f : φ) → format.Value f → Document} {t t' : format.Table}
    (h : format.table (format.document write t) = .ok t') (f : φ) :
    t' f = (t f).bind fun v => (format.read f (write f v)).toOption := by
  obtain ⟨found, hfound, hcomplete⟩ := bind_eq_ok.mp h
  rw [complete_inv hcomplete, readEntries_field .settled f hfound, noField, Option.none_or,
    find?_filterMap (x := f) (hformat.mem_fields f)]
  · cases t f <;> rfl
  · intro g e he
    obtain ⟨v, -, rfl⟩ := Option.map_eq_some_iff.mp he
    have hkey : format.fieldOfKey .settled (.text (format.name g)) = .ok g := by
      show format.fieldOfText (format.name g) = .ok g
      rw [fieldOfText, hformat.named g]
    rw [decide_eq_true_iff, hkey, Except.ok.injEq]

/-! ### Values -/

/-- What is read where something may be left out is read by itself. -/
theorem asOptional_inv {α : Type} {read : Document → Except ReadError α} {d : Document} {x : α}
    (h : asOptional read d = .ok (some x)) : read d = .ok x := by
  cases d with
  | null | absent => cases h
  | scalar s =>
    obtain ⟨nothing, -, h⟩ := bind_eq_ok.mp h
    cases nothing with
    | true => cases h
    | false =>
      obtain ⟨y, hy, h⟩ := bind_eq_ok.mp h
      cases h
      exact hy
  | bool | int | float | text | list | record | tagged | broken =>
    obtain ⟨y, hy, h⟩ := bind_eq_ok.mp h
    cases h
    exact hy

theorem isJson_jsonValue_float (x : Float) : (float x).jsonValue.IsJson := by
  rw [jsonValue]
  split <;> trivial

/-- A float that is read back from JSON is finite. -/
theorem finite_of_asFloat {x y : Float} (h : asFloat (float x).jsonValue = .ok y) :
    x.isFinite = true := by
  by_contra hx
  rw [jsonValue, if_neg hx] at h
  cases h

/-- Of two floats that are read back both are. -/
theorem finite_of_asPair {p q : Float × Float}
    (h : asPair asFloat (pairDocument p).jsonValue = .ok q) :
    p.1.isFinite = true ∧ p.2.isFinite = true := by
  have hread : (asFloat (float p.1).jsonValue >>= fun x =>
      asFloat (float p.2).jsonValue >>= fun y => pure (x, y)) = .ok q := h
  obtain ⟨x, hx, hread⟩ := bind_eq_ok.mp hread
  obtain ⟨y, hy, -⟩ := bind_eq_ok.mp hread
  exact ⟨finite_of_asFloat hx, finite_of_asFloat hy⟩

theorem jsonValue_pairDocument {p : Float × Float} (hx : p.1.isFinite = true)
    (hy : p.2.isFinite = true) : (pairDocument p).jsonValue = pairDocument p := by
  rw [pairDocument, jsonValue, jsonItems, jsonItems, jsonItems, jsonValue, jsonValue, if_pos hx,
    if_pos hy]

/-! ### Brightness -/

/-- **What is read as a brightness is in range.** -/
theorem Brightness.writable_of_ofDocument {d : Document} {b : Brightness}
    (h : Brightness.ofDocument d = .ok b) : b.Writable := by
  obtain ⟨choice, -, h⟩ := bind_eq_ok.mp h
  cases choice with
  | inl n =>
    replace h : ofNumber n = .ok b := h
    rw [ofNumber] at h
    cases hlevel : level? n with
    | none =>
      rw [hlevel] at h
      cases h
    | some c =>
      rw [hlevel] at h
      obtain ⟨m, -, hm, rfl⟩ := level?_eq_some_iff.mp hlevel
      rw [← Except.ok.inj h]
      exact hm
  | inr s =>
    have hspelled := read_eq_ok_iff.mp (show read s = .ok b from h)
    cases hspelled with
    | level hn => exact hn
    | step hk => exact hk

/-- A brightness has no floats, and JSON holds it as it is. -/
theorem Brightness.jsonValue_document (b : Brightness) : b.document.jsonValue = b.document := by
  cases b <;> rfl

/-! ### Records as JSON holds them -/

namespace RecordFormat

variable {φ : Type} {format : RecordFormat φ} {t : format.Table}

theorem jsonEntries_filterMap (fields : List φ) (entry : φ → Option (Document × Document)) :
    jsonEntries (fields.filterMap entry)
      = fields.filterMap fun f => (entry f).map fun e => (e.1, e.2.jsonValue) := by
  induction fields with
  | nil => rfl
  | cons f fields ih =>
    cases hentry : entry f with
    | none => simp [hentry, ih]
    | some e => simp [hentry, ih, jsonEntries]

/-- The record of a table holds each field as JSON holds it by itself. -/
theorem jsonValue_document (write : (f : φ) → format.Value f → Document) :
    (format.document write t).jsonValue
      = format.document (fun f v => (write f v).jsonValue) t := by
  rw [document, Document.jsonValue, jsonEntries_filterMap, document]
  congr 2
  funext f
  cases t f <;> rfl

/-- Of how the fields are written only what is set is seen. -/
theorem document_congr {write write' : (f : φ) → format.Value f → Document}
    (h : ∀ f v, t f = some v → write f v = write' f v) :
    format.document write t = format.document write' t := by
  rw [document, document]
  congr 1
  refine List.filterMap_congr fun f _ => ?_
  cases hf : t f with
  | none => rfl
  | some v =>
    rw [Option.map_some, Option.map_some, h f v hf]

theorem holdJson_filterMap (fields : List φ) {entry : φ → Option (Document × Document)}
    (h : ∀ f, ∀ e ∈ entry f, (∃ word, e.1 = text word) ∧ e.2.IsJson) :
    HoldJson (fields.filterMap entry) := by
  induction fields with
  | nil => trivial
  | cons f fields ih =>
    cases hentry : entry f with
    | none => rwa [List.filterMap_cons_none hentry]
    | some e =>
      rw [List.filterMap_cons_some hentry]
      obtain ⟨hkey, hvalue⟩ := h f e hentry
      exact ⟨hkey, hvalue, ih⟩

/-- A record of JSON is one whose fields are of JSON. -/
theorem isJson_document {write : (f : φ) → format.Value f → Document}
    (h : ∀ f v, (write f v).IsJson) : (format.document write t).IsJson := by
  refine ⟨trivial, holdJson_filterMap _ fun f e he => ?_⟩
  obtain ⟨v, -, rfl⟩ := Option.map_eq_some_iff.mp he
  exact ⟨⟨_, rfl⟩, h f v⟩

end RecordFormat

/-! ### Fields -/

/-- A value that JSON has all of: its floats are finite. -/
def StateField.Finite : (f : StateField) → f.Value → Prop
  | xy => fun p : Float × Float => p.1.isFinite = true ∧ p.2.isFinite = true
  | time => fun x : Float => x.isFinite = true
  | on | bri | hue | sat | ct | ctk | transitionTime => fun _ => True

/-- Such a value is held as it is. -/
theorem StateField.Finite.jsonValue_write {f : StateField} {v : f.Value} (h : f.Finite v) :
    (f.write v).jsonValue = f.write v := by
  cases f with
  | bri => exact Brightness.jsonValue_document v
  | xy => exact jsonValue_pairDocument h.1 h.2
  | time => exact if_pos h
  | on | hue | sat | ct | ctk | transitionTime => rfl

/-- What is read back as a value of a field is such a value, and in range. -/
theorem StateField.of_read {f : StateField} {v w : f.Value}
    (h : f.read (f.write v).jsonValue = .ok w) : f.Finite v ∧ f.Writable w := by
  cases f with
  | bri => exact ⟨trivial, Brightness.writable_of_ofDocument h⟩
  | xy => exact ⟨finite_of_asPair h, trivial⟩
  | time => exact ⟨finite_of_asFloat h, trivial⟩
  | on | hue | sat | ct | ctk | transitionTime => exact ⟨trivial, trivial⟩

theorem StateField.isJson_write (f : StateField) (v : f.Value) : (f.write v).jsonValue.IsJson := by
  cases f with
  | bri => cases (v : Brightness) <;> trivial
  | xy => exact ⟨trivial, isJson_jsonValue_float _, isJson_jsonValue_float _, trivial⟩
  | time => exact isJson_jsonValue_float v
  | on | hue | sat | ct | ctk | transitionTime => trivial

/-! ### States -/

namespace DeviceState

/-- The floats of a state are finite. -/
def Finite (s : DeviceState) : Prop :=
  (∀ p ∈ s.xy, p.1.isFinite = true ∧ p.2.isFinite = true) ∧ ∀ x ∈ s.time, x.isFinite = true

/-- The fields of a state, as JSON holds them. -/
theorem jsonValue_eq (s : DeviceState) : s.jsonValue
    = DeviceState.format.document (fun f v => (ofOption f.write v).jsonValue) s.table :=
  (congrArg Document.jsonValue s.document_eq).trans (RecordFormat.jsonValue_document _)

theorem map_some_eq {α : Type} {o : Option α} {x : α} : o.map some = some (some x) ↔ x ∈ o := by
  cases o <;> simp

/-- A field that stands in the table is set. -/
theorem exists_of_table {s : DeviceState} {f : StateField} {o : Option f.Value}
    (h : s.table f = some o) : ∃ v, o = some v := by
  cases f <;> obtain ⟨v, -, rfl⟩ := Option.map_eq_some_iff.mp h <;> exact ⟨v, rfl⟩

theorem finite_iff {s : DeviceState} :
    s.Finite ↔ ∀ f v, s.table f = some (some v) → f.Finite v := by
  constructor
  · intro h f v hv
    cases f with
    | xy => exact h.1 v (map_some_eq.mp hv)
    | time => exact h.2 v (map_some_eq.mp hv)
    | on | bri | hue | sat | ct | ctk | transitionTime => trivial
  · intro h
    exact ⟨fun p hp => h .xy p (map_some_eq.mpr hp), fun x hx => h .time x (map_some_eq.mpr hx)⟩

/-- A state whose floats are finite is held as it is. -/
theorem Finite.jsonValue {s : DeviceState} (h : s.Finite) : s.jsonValue = s.document := by
  rw [jsonValue_eq, document_eq]
  refine RecordFormat.document_congr fun f o hv => ?_
  obtain ⟨v, rfl⟩ := exists_of_table hv
  exact (finite_iff.mp h f v hv).jsonValue_write

/-- What a table is taken for has the fields of the table. -/
theorem join_table_ofTable (t : DeviceState.format.Table) (f : StateField) :
    ((ofTable t).table f).join = (t f).join := by
  have hjoin : ∀ {α : Type} (o : Option (Option α)), (o.join.map some).join = o.join :=
    fun o => by cases o.join <;> rfl
  cases f <;> exact hjoin _

/-- A field that is set has been read from what was written, if the state is read back. -/
theorem read_of_ofDocument {s s' : DeviceState} (h : ofDocument s.jsonValue = .ok s')
    {f : StateField} {w : f.Value} (hw : s'.table f = some (some w)) :
    ∃ v, s.table f = some (some v) ∧ f.read (f.write v).jsonValue = .ok w := by
  obtain ⟨t, ht, rfl⟩ : ∃ t, DeviceState.format.table s.jsonValue = .ok t ∧ ofTable t = s' := by
    obtain ⟨t, ht, h⟩ := bind_eq_ok.mp h
    exact ⟨t, ht, Except.ok.inj h⟩
  rw [jsonValue_eq] at ht
  have hjoin : (t f).join = some w := by
    rw [← join_table_ofTable, hw]
    rfl
  -- what was found under the name of the field has been read from the value written there
  rw [RecordFormat.table_document format_proper ht f] at hjoin
  cases hs : s.table f with
  | none =>
    rw [hs] at hjoin
    cases hjoin
  | some o =>
    obtain ⟨v, rfl⟩ := exists_of_table hs
    rw [hs] at hjoin
    exact ⟨v, rfl, asOptional_inv (toOption_eq_some.mp (Option.join_eq_some_iff.mp hjoin))⟩

theorem isJson_jsonValue (s : DeviceState) : s.jsonValue.IsJson := by
  rw [jsonValue_eq]
  refine RecordFormat.isJson_document fun f o => ?_
  cases o with
  | none => trivial
  | some v => exact f.isJson_write v

/-- **Which states are read back from their JSON values**, in whatever order the keys stand: those
with their brightness in range and their floats finite. -/
theorem json_read_back {s : DeviceState} {d : Document} (h : Reordered s.jsonValue d) :
    ofDocument d = .ok s ↔ s.Writable ∧ s.Finite := by
  constructor
  · intro hread
    -- the order of keys is nothing to the reader, so they may as well stand as they were written
    have hread' : ofDocument s.jsonValue = .ok s := by
      rw [← toOption_eq_some, ← orderless_ofDocument s.isJson_jsonValue h, hread]
      rfl
    have hfields : ∀ f v, s.table f = some (some v) → f.Finite v ∧ f.Writable v := by
      intro f w hw
      obtain ⟨v, hv, hread⟩ := read_of_ofDocument hread' hw
      obtain rfl := Option.some.inj (Option.some.inj (hv.symm.trans hw))
      exact StateField.of_read hread
    refine ⟨fun b hb => (hfields .bri b (map_some_eq.mpr hb)).2, ?_⟩
    exact finite_iff.mpr fun f v hv => (hfields f v hv).1
  · rintro ⟨hwritable, hfinite⟩
    rw [hfinite.jsonValue] at h
    exact (written hwritable d h).2

/-- A step of zero, a colour and both fade times. -/
def sunset : DeviceState where
  bri := some (.step 0)
  xy := some (0.25, 0.5)
  transitionTime := some 40
  time := some 2.5

/-- `sunset` as an object with its keys sorted. -/
def sunsetSorted : Document :=
  .object [("bri", .text "+0"), ("time", .float 2.5), ("transitiontime", .int 40),
    ("xy", .list .settled [.float 0.25, .float 0.5])]

theorem sunset_json_read_back : Reordered sunset.jsonValue sunsetSorted ∧
    sunset.Writable ∧ sunset.Finite ∧ ofDocument sunsetSorted = .ok sunset := by
  have hwritable : sunset.Writable := by
    rintro _ ⟨⟩
    decide
  have hfinite : sunset.Finite := by
    constructor <;> rintro _ ⟨⟩ <;> decide
  have horder : Reordered sunset.jsonValue sunsetSorted := by
    rw [hfinite.jsonValue]
    exact .record .settled (.refl _) (.cons _ (List.reverse_perm _).symm)
  exact ⟨horder, hwritable, hfinite, (json_read_back horder).mpr ⟨hwritable, hfinite⟩⟩

/-- A time that is no number is lost. -/
example : ofDocument ({ sunset with time := some (0.0 / 0.0) } : DeviceState).jsonValue
    = .ok { sunset with time := none } := by
  rfl

end DeviceState

end Lightshow
