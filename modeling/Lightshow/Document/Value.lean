import Lightshow.Document.Basic

/-!
# Values with tags

A YAML text read for its own sake becomes a tree of plain values in which tags of the
document's own are kept. No record has one key twice.

Keys are compared as values. A whole number differs from the float that is equal to it, no
number is equal to itself, and records are equal if they hold the same entries in any order.

## Main definitions

* `Document.same` — equality of values.
* `Document.value` — the value of a document, with its tags.
-/

namespace Lightshow

namespace Document

/-! ### Equality -/

/-- Equality of floats, with all that is no number counted as one. -/
def sameFloat (x y : Float) : Bool := x == y || (x.isNaN && y.isNaN)

mutual

/-- Whether two values are equal. -/
def same : Document → Document → Bool
  | null, null => true
  | bool a, bool b => a = b
  | int m, int n => m = n
  | float x, float y => sameFloat x y
  | text s, text t => s = t
  | list _ xs, list _ ys => sameItems xs ys
  | record _ xs, record _ ys => xs.length = ys.length && sameEntries xs ys
  | tagged a x, tagged b y => a = b && same x y
  | _, _ => false

/-- Whether two lists hold equal items. -/
def sameItems : List Document → List Document → Bool
  | [], [] => true
  | x :: xs, y :: ys => same x y && sameItems xs ys
  | _, _ => false

/-- Whether all entries of a first record are in a second one. -/
def sameEntries : List (Document × Document) → List (Document × Document) → Bool
  | [], _ => true
  | (k, x) :: rest, ys => ys.any (fun e => same k e.1 && same x e.2) && sameEntries rest ys

end

/-- Whether some entries have a key. -/
def hasKey (entries : List (Document × Document)) (key : Document) : Bool :=
  entries.any fun e => same e.1 key

/-! ### Values -/

/-- A value under the document's own tag, if it has one. -/
def underTag (tag : Option String) (d : Document) : Document :=
  match Scalar.ownTag? tag with
  | some name => tagged name d
  | none => d

mutual

/-- The value of a document, with its tags. The first thing that is no value is reported. -/
def value : Document → Except ReadError Document
  | list form items => do
    return underTag (Form.tag form) (list (.yaml none) (← valueItems items))
  | record form entries => do
    return underTag (Form.tag form) (record (.yaml none) (← valueEntries [] entries))
  | scalar s => do
    return underTag s.tag (ofDenoted (← s.resolve))
  | tagged tag d => do
    return tagged tag (← value d)
  | absent => .ok null
  | broken e => .error e
  | null => .ok null
  | bool b => .ok (bool b)
  | int n => .ok (int n)
  | float x => .ok (float x)
  | text s => .ok (text s)

/-- `value` for the items of a list. -/
def valueItems : List Document → Except ReadError (List Document)
  | [] => .ok []
  | d :: rest => do
    let d ← value d
    let rest ← valueItems rest
    return d :: rest

/-- `value` for the entries of a record after those of `before`. A key that is given again is
refused before its value is looked at. -/
def valueEntries (before : List (Document × Document)) :
    List (Document × Document) → Except ReadError (List (Document × Document))
  | [] => .ok before
  | (k, d) :: rest => do
    let k ← value k
    if hasKey before k then .error .duplicateKey
    else do
      let d ← value d
      valueEntries (before ++ [(k, d)]) rest

end

end Document

end Lightshow
