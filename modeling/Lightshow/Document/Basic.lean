import Lightshow.Document.Scalar

/-!
# Documents

Programs, states and settings arrive as documents: trees of lists and records over
truth values, numbers and texts. A record is an ordered list of entries, so the order
in which keys are visited, and keys that are given twice, are not lost.

A document of the form `settled` is a plain value. One of the forms `json` and `yaml` is
a text that is still being read: what stands in it is looked at in text order, so of
several things wrong the first is reported, and a text that cannot be read on ends in
`broken`. `settle` reads such a document to its end.

The functions `as…` ask a document for a value of some kind.

## Main definitions

* `Document`, `Form` — the trees.
* `Document.settle` — the plain value of a document.
* `Document.asBool`, `asWord`, `asFloat`, `asText`, `asOptional`, `asItems`, `asPair` —
  asking for values.
* `Document.firstFit` — a choice between forms.
-/

namespace Lightshow

/-- How a list or a record is written, which decides how it may be read. -/
inductive Form where
  /-- A plain value. A list may stand for a record, and an entry may be named by its number. -/
  | settled
  /-- A JSON text. A list may stand for a record. -/
  | json
  /-- A YAML text, with the tag of the node. Records are entered by name only. -/
  | yaml (tag : Option String)
  deriving DecidableEq, Repr

/-- A document. -/
inductive Document where
  | null
  | bool (b : Bool)
  | int (n : Int)
  | float (x : Float)
  | text (s : String)
  | list (form : Form) (items : List Document)
  | record (form : Form) (entries : List (Document × Document))
  /-- A scalar of a YAML text. -/
  | scalar (s : Scalar)
  /-- A value under a tag of the document's own. -/
  | tagged (tag : String) (body : Document)
  /-- A text without a document. -/
  | absent
  /-- From here on the text cannot be read. -/
  | broken (cause : ReadError)
  deriving Repr

namespace Document

/-! ### Depth -/

mutual

/-- The number of lists and records around the innermost value, and one. -/
def depth : Document → Nat
  | list _ items => depthItems items + 1
  | record _ entries => depthEntries entries + 1
  | tagged _ body => depth body + 1
  | _ => 1

/-- The greatest depth in a list. -/
def depthItems : List Document → Nat
  | [] => 0
  | d :: rest => max (depth d) (depthItems rest)

/-- The greatest depth among the values of some entries. -/
def depthEntries : List (Document × Document) → Nat
  | [] => 0
  | (_, d) :: rest => max (depth d) (depthEntries rest)

end

/-! ### Settling -/

/-- What a scalar denotes, as a document. -/
def ofDenoted : Denoted → Document
  | .nothing => null
  | .truth b => bool b
  | .whole n => int n
  | .float x => float x
  | .text s => text s

/-- A tag of the document's own cannot stand in a settled document. -/
def refuseTag (tag : Option String) : Except ReadError Unit :=
  if (Scalar.ownTag? tag).isSome then .error .malformed else .ok ()

/-- The tag that a form carries. -/
def Form.tag : Form → Option String
  | .yaml tag => tag
  | _ => none

mutual

/-- The plain value of a document. A text is read to its end in text order, and the first
thing that is no value is reported. -/
def settle : Document → Except ReadError Document
  | list form items => do
    refuseTag (Form.tag form)
    return list .settled (← settleItems items)
  | record form entries => do
    refuseTag (Form.tag form)
    return record .settled (← settleEntries entries)
  | scalar s => do
    refuseTag s.tag
    return ofDenoted (← s.resolve)
  | tagged .. => .error .malformed
  | absent => .ok null
  | broken e => .error e
  | null => .ok null
  | bool b => .ok (bool b)
  | int n => .ok (int n)
  | float x => .ok (float x)
  | text s => .ok (text s)

/-- `settle` for the items of a list. -/
def settleItems : List Document → Except ReadError (List Document)
  | [] => .ok []
  | d :: rest => do
    let d ← settle d
    let rest ← settleItems rest
    return d :: rest

/-- `settle` for the entries of a record, each key before its value. -/
def settleEntries : List (Document × Document) → Except ReadError (List (Document × Document))
  | [] => .ok []
  | (k, d) :: rest => do
    let k ← settle k
    let d ← settle d
    let rest ← settleEntries rest
    return (k, d) :: rest

end

/-! ### Asking for values -/

/-- Why a document is refused where it does not fit. -/
def mismatch : Document → ReadError
  | scalar s => s.mismatch
  | absent => .malformed
  | broken e => e
  | _ => .wrongType

/-- A document asked for a truth value. -/
def asBool (d : Document) : Except ReadError Bool :=
  match d with
  | bool b => .ok b
  | scalar s => (s.truth?).elim (.error s.mismatch) .ok
  | d => .error d.mismatch

/-- A document asked for a whole number from zero to below `2 ^ bits`. -/
def asWord (bits : Nat) (d : Document) : Except ReadError Nat :=
  match d with
  | int n => if 0 ≤ n ∧ n.toNat < 1 <<< bits then .ok n.toNat else .error .outOfRange
  | scalar s =>
    match s.unsigned? with
    | some n => if n < 1 <<< bits then .ok n else .error .outOfRange
    | none => .error s.mismatch
  | d => .error d.mismatch

/-- A settled document asked for a signed whole number of 64 bits. -/
def asSigned (d : Document) : Except ReadError Int :=
  match d with
  | int n => if Text.fitsSigned 64 n then .ok n else .error .outOfRange
  | d => .error d.mismatch

/-- A document asked for a float; a whole number is the nearest one. -/
def asFloat (d : Document) : Except ReadError Float :=
  match d with
  | int n => .ok (Float.ofInt n)
  | float x => .ok x
  | scalar s => (s.float?).elim (.error s.mismatch) .ok
  | d => .error d.mismatch

/-- A document asked for a text. -/
def asText (d : Document) : Except ReadError String :=
  match d with
  | text s => .ok s
  | scalar s => .ok s.text
  | d => .error d.mismatch

/-- A document asked for what may be left out. -/
def asOptional {α : Type} (read : Document → Except ReadError α) (d : Document) :
    Except ReadError (Option α) :=
  match d with
  | null => .ok none
  | absent => .ok none
  | scalar s => do if ← s.isNothing then return none else return some (← read (scalar s))
  | d => do return some (← read d)

/-- A document asked for a list. Where nothing is written the list is empty. -/
def asItems (d : Document) : Except ReadError (List Document) :=
  match d with
  | list _ items => .ok items
  | absent => .ok []
  | scalar s => if s.isVoid then .ok [] else .error s.mismatch
  | d => .error d.mismatch

/-- A document asked for a list of values of one kind. -/
def asList {α : Type} (read : Document → Except ReadError α) (d : Document) :
    Except ReadError (List α) := do
  (← d.asItems).mapM read

/-- Why a list with more items than fit is refused. -/
def Form.excess : Form → ReadError
  | .json => .malformed
  | _ => .wrongLength

/-- A document asked for two values of one kind. -/
def asPair {α : Type} (read : Document → Except ReadError α) (d : Document) :
    Except ReadError (α × α) := do
  match ← d.asItems with
  | [] => .error .wrongLength
  | [x] => do
    let _ ← read x
    .error .wrongLength
  | x :: y :: rest => do
    let x ← read x
    let y ← read y
    if rest.isEmpty then return (x, y)
    else
      match d with
      | list form _ => .error (Form.excess form)
      | _ => .error .wrongLength

/-- The first reader that accepts the settled document. Why the others refuse it is not told. -/
def firstFit {α : Type} (readers : List (Document → Except ReadError α)) (d : Document) :
    Except ReadError α := do
  let d ← d.settle
  match readers.findSome? (fun read => (read d).toOption) with
  | some x => return x
  | none => .error .noVariant

end Document

end Lightshow
