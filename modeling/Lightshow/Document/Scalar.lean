import Lightshow.Decimal.Reading
import Lightshow.ReadError

/-!
# Scalars

A scalar of a YAML text is a piece of text, and what it denotes depends on who asks.
Asked for a text it is just that. Asked for nothing in particular, a plain scalar
denotes what the core rules say: nothing, a truth value, a number, or else its text.
Asked for a number it may denote one that the core rules do not see.

* `Scalar` — a text with the style in which it is written and its tag.
* `Scalar.truth?`, `Scalar.unsigned?`, `Scalar.float?` — a scalar asked for a truth
  value, a whole number or a float.
* `Plain.resolve` — a plain scalar asked for nothing in particular.
* `Scalar.resolve` — any scalar asked for nothing in particular.
-/

namespace Lightshow

open Lightshow.Text

/-- How a scalar is written. -/
inductive ScalarStyle where
  | plain
  | quoted
  /-- A block that keeps its line breaks. -/
  | literal
  /-- A block whose line breaks are folded. -/
  | folded
  deriving DecidableEq, Repr

/-- A scalar as it is written. -/
structure Scalar where
  tag : Option String := none
  style : ScalarStyle := .plain
  text : String
  deriving DecidableEq, Repr

/-- What a scalar denotes. -/
inductive Denoted where
  | nothing
  | truth (b : Bool)
  | whole (n : Int)
  | float (x : Float)
  | text (s : String)
  deriving DecidableEq, Repr

namespace Plain

/-- The words for nothing. -/
def isNull (s : List Char) : Bool :=
  ["null", "Null", "NULL", "~"].any (·.toList = s)

/-- The words for truth values. -/
def truth? (s : List Char) : Option Bool :=
  if ["true", "True", "TRUE"].any (·.toList = s) then some true
  else if ["false", "False", "FALSE"].any (·.toList = s) then some false
  else none

/-- Whether a text begins with a sign. -/
def isSigned (s : List Char) : Bool := s.head? = some '+' || s.head? = some '-'

/-- Digits behind a needless zero, with or without a sign: a text and not a number. -/
def isZeroPadded (s : List Char) : Bool :=
  match if isSigned s then s.drop 1 else s with
  | '0' :: d :: ds => (d :: ds).all Char.isDigit
  | _ => false

/-- A numeral after the mark of its base: `0x`, `0o` or `0b`. -/
def based? (s : List Char) : Option Nat :=
  match s with
  | '0' :: 'x' :: ds => radix? 16 ds
  | '0' :: 'o' :: ds => radix? 8 ds
  | '0' :: 'b' :: ds => radix? 2 ds
  | _ => none

/-- A whole number from zero up: in another base, or in decimal digits without needless
zeros. A plus sign may precede it. -/
def unsigned? (s : List Char) : Option Nat :=
  let body := match s with
    | '+' :: r => r
    | r => r
  match based? body with
  | some n => some n
  | none => if isZeroPadded s then none else natural? body

/-- A whole number after a minus sign. -/
def negative? (s : List Char) : Option Int :=
  match s with
  | '-' :: r =>
    match based? r with
    | some n => some (-(n : Int))
    | none => if isZeroPadded s then none else (natural? r).map fun n => -(n : Int)
  | _ => none

/-- A float: one of the words for infinity and for no number, or a decimal that is not
too large. -/
def float? (s : List Char) : Option Float :=
  let infinity := [".inf", ".Inf", ".INF"]
  let body := match s with
    | '+' :: r => r
    | r => r
  if s.head? = some '+' && isSigned body then none
  else if infinity.any (·.toList = body) then some (1.0 / 0.0)
  else if infinity.any (fun w => '-' :: w.toList = s) then some (-1.0 / 0.0)
  else if [".nan", ".NaN", ".NAN"].any (·.toList = s) then some (0.0 / 0.0)
  else ((Decimal.fraction? body).map Decimal.Fraction.toFloat).filter (·.isFinite)

/-- A whole number of any sign. Beyond 64 bits and within 128 it is refused, and beyond
that it is no whole number any more. -/
def whole? (s : List Char) : Except ReadError (Option Int) :=
  match unsigned? s with
  | some n =>
    if n < UInt64.size then .ok (some n)
    else if n < 1 <<< 128 then .error .wrongType
    else .ok none
  | none =>
    match negative? s with
    | some n =>
      if fitsSigned 64 n then .ok (some n)
      else if fitsSigned 128 n then .error .wrongType
      else .ok none
    | none => .ok none

/-- What a plain scalar denotes if nothing in particular is asked for. -/
def resolve (s : List Char) : Except ReadError Denoted :=
  if s.isEmpty || isNull s then .ok .nothing
  else
    match truth? s with
    | some b => .ok (.truth b)
    | none => do
      match ← whole? s with
      | some n => return .whole n
      | none =>
        if isZeroPadded s then return .text (String.ofList s)
        else
          match float? s with
          | some x => return .float x
          | none => return .text (String.ofList s)

end Plain

namespace Scalar

/-- The tags of the core rules. -/
def coreTag (name : String) : String := "tag:yaml.org,2002:" ++ name

/-- The name in a tag of the document's own, which starts with an exclamation mark. The
mark alone names itself. -/
def ownTag? (tag : Option String) : Option String :=
  tag.bind fun t =>
    match t.toList with
    | ['!'] => some "!"
    | '!' :: name => some (String.ofList name)
    | _ => none

/-- A plain scalar without text, as it stands where nothing is written. -/
def isVoid (s : Scalar) : Bool := s.style = .plain && s.text.isEmpty

/-- What a scalar denotes if nothing in particular is asked for. A tag of the core rules
decides what a plain or quoted text is read as. A tag of the document's own is not
looked at. -/
def resolve (s : Scalar) : Except ReadError Denoted :=
  let cs := s.text.toList
  let plain := s.style = .plain
  match s.tag with
  | none => if plain then Plain.resolve cs else .ok (.text s.text)
  | some tag =>
    if tag = coreTag "bool" then
      match Plain.truth? cs with
      | some b => .ok (.truth b)
      | none => .error .outOfRange
    else if tag = coreTag "int" then
      match Plain.whole? cs with
      | .ok (some n) => .ok (.whole n)
      | .error e => .error e
      | .ok none => .error .outOfRange
    else if tag = coreTag "float" then
      match Plain.float? cs with
      | some x => .ok (.float x)
      | none => .error .outOfRange
    else if tag = coreTag "null" then
      if Plain.isNull cs then .ok .nothing else .error .outOfRange
    else if plain && tag.toList.head? = some '!' then Plain.resolve cs
    else .ok (.text s.text)

/-- Why a scalar is refused where it does not fit. -/
def mismatch (s : Scalar) : ReadError :=
  match s.resolve with
  | .error e => e
  | .ok _ => .wrongType

/-- Whether a scalar can be asked for a value of the core type `name`: it is plain, or a
literal block with that tag. -/
def offers (name : String) (s : Scalar) : Bool :=
  s.style = .plain || (s.style = .literal && s.tag = some (coreTag name))

/-- A scalar asked for a truth value. -/
def truth? (s : Scalar) : Option Bool :=
  if s.offers "bool" then Plain.truth? s.text.toList else none

/-- A scalar asked for a whole number of 64 bits from zero up. -/
def unsigned? (s : Scalar) : Option Nat :=
  if s.offers "int" then (Plain.unsigned? s.text.toList).filter (· < UInt64.size) else none

/-- A scalar asked for a float. -/
def float? (s : Scalar) : Option Float :=
  if s.offers "float" then Plain.float? s.text.toList else none

/-- Whether a scalar stands for nothing where something may be left out. -/
def isNothing (s : Scalar) : Except ReadError Bool :=
  if s.style != .plain then .ok false
  else
    match s.tag with
    | some tag =>
      if tag = coreTag "null" then
        if Plain.isNull s.text.toList then .ok true else .error .outOfRange
      else .ok false
    | none => .ok (s.text.isEmpty || Plain.isNull s.text.toList)

end Scalar

end Lightshow
