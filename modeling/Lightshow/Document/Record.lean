import Lightshow.Document.Basic

/-!
# Records

A record has named fields. It is read from the entries of a document in the order in
which they stand, into a table of the fields found so far: an entry that names no field
is refused, and so is one that names a field for the second time. Fields that must be
there are asked for at the end. Because the table does not remember the order, entries
that are all fine may stand in any order.

A list may stand for a record, with the fields in the order in which they are declared.

## Main definitions

* `RecordFormat` — the fields of a record, their names and their readers.
* `RecordFormat.Table` — the fields found.
* `RecordFormat.read` — a document as a table.
-/

namespace Lightshow

/-- The fields of a record: what they are called, how each is read, and which must be
there. -/
structure RecordFormat (φ : Type) where
  Value : φ → Type
  /-- The fields in the order in which they are declared. -/
  fields : List φ
  name : φ → String
  /-- Other names of a field. -/
  aliases : φ → List String
  read : (f : φ) → Document → Except ReadError (Value f)
  required : φ → Bool

namespace RecordFormat

variable {φ : Type} [DecidableEq φ]

/-- The values of the fields found so far. -/
abbrev Table (format : RecordFormat φ) : Type := (f : φ) → Option (format.Value f)

/-- No field found. -/
def noField (format : RecordFormat φ) : format.Table := fun _ => none

/-- A table with one more field. -/
def Table.insert {format : RecordFormat φ} (t : format.Table) (f : φ) (v : format.Value f) :
    format.Table :=
  fun g => if h : f = g then some (h ▸ v) else t g

/-- The field with a name. -/
def named? (format : RecordFormat φ) (name : String) : Option φ :=
  format.fields.find? fun f => format.name f = name || name ∈ format.aliases f

/-- The field that a text names. -/
def fieldOfText (format : RecordFormat φ) (name : String) : Except ReadError φ :=
  match format.named? name with
  | some f => .ok f
  | none => .error (.unknownField name)

/-- The field that a key stands for. In a plain value a number stands for the field with
that number. -/
def fieldOfKey (format : RecordFormat φ) (form : Form) (key : Document) : Except ReadError φ :=
  match form, key with
  | _, .text name => format.fieldOfText name
  | _, .scalar s => format.fieldOfText s.text
  | .settled, .int n =>
    if n < 0 then .error .wrongType
    else
      match format.fields[n.toNat]? with
      | some f => .ok f
      | none => .error .outOfRange
  | _, key => .error key.mismatch

/-- The table extended by entries, in their order. -/
def readEntries (format : RecordFormat φ) (form : Form) (t : format.Table) :
    List (Document × Document) → Except ReadError format.Table
  | [] => .ok t
  | (key, d) :: rest => do
    let f ← format.fieldOfKey form key
    if (t f).isSome then .error (.duplicateField (format.name f))
    else do
      let v ← format.read f d
      format.readEntries form (t.insert f v) rest

/-- The table extended by items that stand for the fields in their order. Items that are
left over are refused with `excess`. -/
def readItems (format : RecordFormat φ) (excess : ReadError) (t : format.Table) :
    List φ → List Document → Except ReadError format.Table
  | [], [] => .ok t
  | [], d :: _ =>
    match d with
    | .broken e => .error e
    | _ => .error excess
  | fs, [] => if fs.any format.required then .error .wrongLength else .ok t
  | f :: fs, d :: rest => do
    let v ← format.read f d
    format.readItems excess (t.insert f v) fs rest

/-- A table in which no field that must be there is missing. -/
def complete (format : RecordFormat φ) (t : format.Table) : Except ReadError format.Table :=
  match format.fields.find? fun f => format.required f && (t f).isNone with
  | some f => .error (.missingField (format.name f))
  | none => .ok t

/-- A document as a table of fields. -/
def table (format : RecordFormat φ) (d : Document) : Except ReadError format.Table :=
  match d with
  | .record form entries => format.readEntries form format.noField entries >>= format.complete
  | .list .settled items => format.readItems .wrongLength format.noField format.fields items
  | .list .json items => format.readItems .malformed format.noField format.fields items
  | .absent => format.complete format.noField
  | .scalar s => if s.isVoid then format.complete format.noField else .error s.mismatch
  | d => .error d.mismatch

end RecordFormat

end Lightshow
