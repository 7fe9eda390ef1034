import Lightshow.Document.Basic
import Lightshow.Text.Blank

/-!
# JSON texts

A JSON text is read into a document of the form `json`. Where the text cannot be read on,
the document ends in `broken`, so whoever looks at the document in text order comes upon
what was there before the fault first.

Keys keep their order and may repeat. A whole number that fits 64 bits is an `int`, and
any other number a `float`; minus zero is a float. A number too large for a float, half of
a surrogate pair, and more than 127 lists and records around a value are faults.

## Main definitions

* `Document.ofJson` — the document that a text begins with, and what follows it.
* `readJson` — a whole text read as a value of some kind.
* `parseJson` — a whole text as a settled document.
* `Document.jsonValue` — a plain value as JSON holds it.
-/

namespace Lightshow

open Lightshow.Text

namespace Json

/-- Blanks between the parts of a text. -/
def isSpace (c : Char) : Bool := c = ' ' || c = '\n' || c = '\t' || c = '\r'

/-- A text without the blanks it starts with. -/
def skip (s : List Char) : List Char := s.dropWhile isSpace

/-! ### Numbers -/

/-- A number as it is written. -/
structure Numeral where
  negative : Bool
  whole : List Char
  part : List Char
  exponent : Option Int

/-- The digits after a point, if there is a point. -/
def takePart : List Char → Option (List Char × List Char)
  | '.' :: r =>
    match Decimal.takeDigits r with
    | ([], _) => none
    | (ds, r) => some (ds, r)
  | r => some ([], r)

/-- The exponent, if there is one. -/
def takeExponent : List Char → Option (Option Int × List Char)
  | c :: r =>
    if c = 'e' ∨ c = 'E' then
      let (negative, r) := match r with
        | '-' :: r => (true, r)
        | '+' :: r => (false, r)
        | r => (false, r)
      match Decimal.takeDigits r with
      | ([], _) => none
      | (ds, r) => (natural? ds).map fun n => (some (if negative then -(n : Int) else n), r)
    else some (none, c :: r)
  | [] => some (none, [])

/-- The number that a text begins with, and the rest. A zero is followed by no digit. -/
def takeNumeral (s : List Char) : Option (Numeral × List Char) := do
  let (negative, s) := match s with
    | '-' :: r => (true, r)
    | r => (false, r)
  let (whole, r) := Decimal.takeDigits s
  if whole.isEmpty || (whole.head? = some '0' && 1 < whole.length) then none
  else do
    let (part, r) ← takePart r
    let (exponent, r) ← takeExponent r
    return (⟨negative, whole, part, exponent⟩, r)

/-- The exact value of a number. -/
def Numeral.fraction (n : Numeral) : Option Decimal.Fraction := do
  let digits ← digits? (n.whole ++ n.part)
  return ⟨n.negative, ofDigits 10 digits, n.exponent.getD 0 - n.part.length⟩

/-- The whole number, if it has neither point nor exponent and fits 64 bits. -/
def Numeral.whole? (n : Numeral) : Option Int := do
  if n.part.isEmpty && n.exponent.isNone then
    let k ← natural? n.whole
    if n.negative then if 0 < k ∧ k ≤ 1 <<< 63 then some (-(k : Int)) else none
    else if k < UInt64.size then some k else none
  else none

/-- A number as a document. -/
def Numeral.document (n : Numeral) : Document :=
  match n.whole? with
  | some k => .int k
  | none =>
    match (n.fraction.map Decimal.Fraction.toFloat).filter (·.isFinite) with
    | some x => .float x
    | none => .broken .malformed

/-! ### Texts -/

/-- Four digits in base sixteen. -/
def unit? (a b c d : Char) : Option Nat := radix? 16 [a, b, c, d]

/-- What a letter after a backslash stands for. -/
def escape? : Char → Option Char
  | '"' => some '"'
  | '\\' => some '\\'
  | '/' => some '/'
  | 'b' => some '\x08'
  | 'f' => some '\x0c'
  | 'n' => some '\n'
  | 'r' => some '\r'
  | 't' => some '\t'
  | _ => none

/-- Whether a unit is the first half, or the second half, of a pair. -/
def isHigh (u : Nat) : Bool := 0xD800 ≤ u && u ≤ 0xDBFF

@[inherit_doc isHigh] def isLow (u : Nat) : Bool := 0xDC00 ≤ u && u ≤ 0xDFFF

/-- The character of a pair of halves. -/
def ofPair (high low : Nat) : Char :=
  Char.ofNat (0x10000 + (high - 0xD800) * 0x400 + (low - 0xDC00))

/-- The characters up to the closing quote, and what follows it. `done` are the characters
before, the last one first. -/
def takeText (done : List Char) : List Char → Option (String × List Char)
  | [] => none
  | '"' :: r => some (String.ofList done.reverse, r)
  | '\\' :: 'u' :: a :: b :: c :: d :: r =>
    match unit? a b c d with
    | none => none
    | some u =>
      if isLow u then none
      else if isHigh u then
        match r with
        | '\\' :: 'u' :: e :: f :: g :: h :: r =>
          match unit? e f g h with
          | some v => if isLow v then takeText (ofPair u v :: done) r else none
          | none => none
        | _ => none
      else takeText (Char.ofNat u :: done) r
  | '\\' :: c :: r =>
    match escape? c with
    | some x => takeText (x :: done) r
    | none => none
  | c :: r => if c.toNat < 0x20 then none else takeText (c :: done) r

/-! ### Values -/

/-- A document and what follows it. Nothing follows what is broken. -/
abbrev Reading (α : Type) : Type := α × Option (List Char)

/-- A word that stands for a document. -/
def word (w : List Char) (d : Document) (s : List Char) : Reading Document :=
  match after? w s with
  | some r => (d, some r)
  | none => (.broken .malformed, none)

/-- The items or entries of a list or a record that breaks off. -/
def brokenItem (e : ReadError) : Reading (List Document) := ([.broken e], none)

@[inherit_doc brokenItem] def brokenEntry (e : ReadError) : Reading (List (Document × Document)) :=
  ([(.broken e, .broken e)], none)

mutual

/-- The value that a text begins with. At most `levels` lists and records may nest, and
`fuel` bounds the number of steps. -/
def value : Nat → Nat → List Char → Reading Document
  | 0, _, _ => (.broken .malformed, none)
  | fuel + 1, levels, s =>
    match skip s with
    | 'n' :: r => word "ull".toList .null r
    | 't' :: r => word "rue".toList (.bool true) r
    | 'f' :: r => word "alse".toList (.bool false) r
    | '"' :: r =>
      match takeText [] r with
      | some (t, r) => (.text t, some r)
      | none => (.broken .malformed, none)
    | '[' :: r =>
      match levels with
      | 0 => (.broken .tooDeep, none)
      | levels + 1 =>
        let (ds, r) := items fuel levels true (skip r)
        (.list .json ds, r)
    | '{' :: r =>
      match levels with
      | 0 => (.broken .tooDeep, none)
      | levels + 1 =>
        let (es, r) := entries fuel levels true (skip r)
        (.record .json es, r)
    | s =>
      match takeNumeral s with
      | some (n, r) =>
        match n.document with
        | .broken e => (.broken e, none)
        | d => (d, some r)
      | none => (.broken .malformed, none)

/-- The items of a list up to its end. Before every item but the first stands a comma. -/
def items : Nat → Nat → Bool → List Char → Reading (List Document)
  | 0, _, _, _ => brokenItem .malformed
  | fuel + 1, levels, first, s =>
    match s with
    | ']' :: r => ([], some r)
    | ',' :: r =>
      if first then brokenItem .malformed
      else
        match skip r with
        | ']' :: _ => brokenItem .malformed
        | r => item fuel levels r
    | s => if first then item fuel levels s else brokenItem .malformed

/-- An item of a list and the items after it. -/
def item : Nat → Nat → List Char → Reading (List Document)
  | 0, _, _ => brokenItem .malformed
  | fuel + 1, levels, s =>
    match value fuel levels s with
    | (d, none) => ([d], none)
    | (d, some r) =>
      let (ds, r) := items fuel levels false (skip r)
      (d :: ds, r)

/-- The entries of a record up to its end. Before every entry but the first stands a comma. -/
def entries : Nat → Nat → Bool → List Char → Reading (List (Document × Document))
  | 0, _, _, _ => brokenEntry .malformed
  | fuel + 1, levels, first, s =>
    match s with
    | '}' :: r => ([], some r)
    | ',' :: r => if first then brokenEntry .malformed else entry fuel levels (skip r)
    | s => if first then entry fuel levels s else brokenEntry .malformed

/-- An entry of a record and the entries after it. -/
def entry : Nat → Nat → List Char → Reading (List (Document × Document))
  | 0, _, _ => brokenEntry .malformed
  | fuel + 1, levels, s =>
    match s with
    | '"' :: r =>
      match takeText [] r with
      | none => brokenEntry .malformed
      | some (key, r) =>
        match skip r with
        | ':' :: r =>
          match value fuel levels r with
          | (d, none) => ([(.text key, d)], none)
          | (d, some r) =>
            let (es, r) := entries fuel levels false (skip r)
            ((.text key, d) :: es, r)
        | _ => ([(.text key, .broken .malformed)], none)
    | _ => brokenEntry .malformed

end

/-- The number of lists and records that may stand around a value. -/
def maxLevels : Nat := 127

end Json

/-- The document that a JSON text begins with, and what follows it. -/
def Document.ofJson (s : String) : Document × Option (List Char) :=
  let cs := s.toList
  Json.value (3 * cs.length + 3) Json.maxLevels cs

/-- A JSON text read as a value of some kind. After the value only blanks may follow. -/
def readJson {α : Type} (read : Document → Except ReadError α) (s : String) :
    Except ReadError α := do
  let (d, rest) := Document.ofJson s
  let x ← read d
  match rest with
  | some r => if (Json.skip r).isEmpty then return x else .error .malformed
  | none => .error .malformed

/-- A JSON text as a settled document. -/
def parseJson (s : String) : Except ReadError Document := readJson Document.settle s

/-! ### Values that are written -/

namespace Document

mutual

/-- A plain value as JSON holds it: all its numbers are finite, and any other float has become
`null`. -/
def jsonValue : Document → Document
  | float x => if x.isFinite then float x else null
  | list form items => list form (jsonItems items)
  | record form entries => record form (jsonEntries entries)
  | d => d

/-- `jsonValue` for the items of a list. -/
def jsonItems : List Document → List Document
  | [] => []
  | d :: rest => jsonValue d :: jsonItems rest

/-- `jsonValue` for the values of some entries. -/
def jsonEntries : List (Document × Document) → List (Document × Document)
  | [] => []
  | (key, d) :: rest => (key, jsonValue d) :: jsonEntries rest

end

end Document

end Lightshow
