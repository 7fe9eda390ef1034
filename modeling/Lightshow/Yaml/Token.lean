import Lightshow.Document.Scalar
import Lightshow.Yaml.Scalars

/-!
# Tokens of YAML texts

The smallest pieces of a YAML text, and how the anchors, tags and directives among them are
written.

## Main definitions

* `Token` — the pieces.
* `anchorName` — the name of an anchor or an alias.
* `nodeTag` — a tag, as the handle and the rest of the name.
* `directive` — a directive.
-/

namespace Lightshow.Yaml

open Lightshow.Text

/-- A piece of a YAML text. -/
inductive Token where
  | streamEnd
  | version (major minor : Nat)
  /-- What a handle stands for in tags. -/
  | handle (name meaning : String)
  | documentStart
  | documentEnd
  | blockSequenceStart
  | blockMappingStart
  | blockEnd
  | flowSequenceStart
  | flowSequenceEnd
  | flowMappingStart
  | flowMappingEnd
  | blockEntry
  | flowEntry
  | key
  | value
  | alias (name : String)
  | anchor (name : String)
  | tag (handle rest : String)
  | scalar (style : ScalarStyle) (text : String)
  /-- From here on the text cannot be read. -/
  | broken
  deriving DecidableEq, Repr

/-! ### Anchors -/

/-- The characters besides blanks that may follow the name of an anchor. -/
def endsAnchor (x : Char) : Bool :=
  x = '?' || x = ':' || x = ',' || x = ']' || x = '}' || x = '%' || x = '@' || x = '\x60'

/-- The name of an anchor or an alias after its mark, and the place after it. -/
def anchorName (c : Cursor) : Option (String × Cursor) :=
  let name := (c.skip 1).takeWhile isWord
  let c := c.skip (1 + name.length)
  if !name.isEmpty && (c.blankAt 0 || c.head?.any endsAnchor) then
    some (String.ofList name, c)
  else none

/-! ### Tags -/

/-- The characters of a tag besides those of names. -/
def tagMarks : List Char :=
  [';', '/', '?', ':', '@', '&', '=', '+', '$', '.', '!', '~', '*', '\'', '(', ')', '%']

/-- The characters of a tag that stands between angle brackets besides those. -/
def verbatimMarks : List Char := [',', '[', ']']

/-- Two digits in base sixteen after a percent sign, at the start of a text. -/
def octet? : List Char → Option Nat
  | '%' :: a :: b :: _ => radix? 16 [a, b]
  | _ => none

/-- How many octets a character takes whose first octet is given, and what that octet adds to
the code of the character. -/
def leadingOctet? (n : Nat) : Option (Nat × Nat) :=
  if n < 0x80 then some (1, n)
  else if 0xC0 ≤ n ∧ n < 0xE0 then some (2, n % 0x20)
  else if 0xE0 ≤ n ∧ n < 0xF0 then some (3, n % 0x10)
  else if 0xF0 ≤ n ∧ n < 0xF8 then some (4, n % 0x08)
  else none

/-- The octets that follow the first one of a character, `count` of them. -/
def trailingOctets (count : Nat) (code : Nat) (s : List Char) : Option Nat :=
  match count with
  | 0 => some code
  | count + 1 =>
    match octet? s with
    | some n =>
      if 0x80 ≤ n ∧ n < 0xC0 then trailingOctets count (code * 0x40 + n % 0x40) (s.drop 3)
      else none
    | none => none

/-- The character that is written as octets at the start of a text, and how many characters
that takes. -/
def octetChar? (s : List Char) : Option (Char × Nat) := do
  let (count, code) ← leadingOctet? (← octet? s)
  return (Char.ofNat (← trailingOctets (count - 1) code (s.drop 3)), 3 * count)

/-- The characters of a tag from a place on, and the place after them. -/
def tagText (verbatim : Bool) : (fuel : Nat) → List Char → Cursor → Option (List Char × Cursor)
  | 0, done, c => some (done.reverse, c)
  | fuel + 1, done, c =>
    match c.head? with
    | none => some (done.reverse, c)
    | some x =>
      if x = '%' then
        match octetChar? c.rest with
        | some (y, width) => tagText verbatim fuel (y :: done) (c.skip width)
        | none => none
      else if isWord x || tagMarks.contains x || (verbatim && verbatimMarks.contains x) then
        tagText verbatim fuel (x :: done) (c.skip 1)
      else some (done.reverse, c)

/-- `tagText`, of which there must be some. -/
def someTagText (verbatim : Bool) (c : Cursor) : Option (List Char × Cursor) :=
  (tagText verbatim c.rest.length [] c).filter (!·.1.isEmpty)

/-- An exclamation mark, a name, and perhaps another exclamation mark. -/
def handleText (c : Cursor) : Option (List Char × Cursor) :=
  if c.at? '!' then
    let name := (c.skip 1).takeWhile isWord
    let c := c.skip (1 + name.length)
    if c.at? '!' then some ('!' :: name ++ ['!'], c.skip 1) else some ('!' :: name, c)
  else none

/-- The tag at a place before it is checked what follows it. -/
def tagParts (c : Cursor) : Option (String × String × Cursor) := do
  if c.peek? 1 = some '<' then
    let (text, c) ← someTagText true (c.skip 2)
    if c.at? '>' then return ("", String.ofList text, c.skip 1) else none
  else
    let (handle, c) ← handleText c
    if 1 < handle.length && handle.getLast? = some '!' then
      let (text, c) ← someTagText false c
      return (String.ofList handle, String.ofList text, c)
    else
      let (text, c) ← tagText false c.rest.length [] c
      let name := handle.drop 1 ++ text
      if name.isEmpty then return ("", "!", c) else return ("!", String.ofList name, c)

/-- The tag at a place, as its handle and the rest of its name, and the place after it. A
blank follows, or a comma within brackets. -/
def nodeTag (flow : Bool) (c : Cursor) : Option (String × String × Cursor) :=
  (tagParts c).filter fun (_, _, c) => c.blankAt 0 || (flow && c.at? ',')

/-! ### Directives -/

/-- The number at a place, of at most nine digits, and the place after it. -/
def versionNumber (c : Cursor) : Option (Nat × Cursor) :=
  let ds := c.takeWhile Char.isDigit
  if 9 < ds.length then none else (natural? ds).map fun n => (n, c.skip ds.length)

/-- The version that a directive tells. -/
def versionDirective (c : Cursor) : Option (Token × Cursor) := do
  let (major, c) ← versionNumber (c.skipWhile isGap)
  if c.at? '.' then
    let (minor, c) ← versionNumber (c.skip 1)
    return (.version major minor, c)
  else none

/-- A handle and its meaning that a directive tells. -/
def handleDirective (c : Cursor) : Option (Token × Cursor) := do
  let (name, c) ← handleText (c.skipWhile isGap)
  if !(name = ['!'] || (1 < name.length && name.getLast? = some '!')) || !c.atGap then none
  else
    let (meaning, c) ← someTagText true (c.skipWhile isGap)
    if c.blankAt 0 then return (.handle (String.ofList name) (String.ofList meaning), c)
    else none

/-- The directive at a place, and the line after it. -/
def directive (c : Cursor) : Option (Token × Cursor) := do
  let name := (c.skip 1).takeWhile isWord
  let c := c.skip (1 + name.length)
  if name.isEmpty || !c.blankAt 0 then none
  else
    let (token, c) ←
      if name = "YAML".toList then versionDirective c
      else if name = "TAG".toList then handleDirective c
      else none
    return (token, ← c.endLine?)

end Lightshow.Yaml
