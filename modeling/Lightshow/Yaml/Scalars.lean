import Lightshow.Text.Numeral
import Lightshow.Yaml.Cursor

/-!
# Scalars in YAML texts

A scalar stands as plain text, between quotes, or as an indented block. In plain and quoted
scalars the blanks between two words are kept if they are on one line; a single line break
becomes a space, and of several line breaks all but the first are kept. A block keeps its
lines, or folds them in the same way where neither line starts with a blank.

## Main definitions

* `Gap`, `takeGap` — what stands between two words.
* `plainScalar`, `quotedScalar`, `blockScalar` — the three ways to write a scalar.
-/

namespace Lightshow.Yaml

open Lightshow.Text

/-! ### Gaps -/

/-- What stands between two words. -/
structure Gap where
  /-- The blanks before the first line break. -/
  blanks : List Char := []
  /-- The first line break. -/
  first : List Char := []
  /-- The line breaks after it. -/
  more : List Char := []
  /-- Whether there is a line break. -/
  broken : Bool := false

/-- What a gap stands for. -/
def Gap.text (g : Gap) : List Char :=
  if !g.broken then g.blanks
  else if g.first = ['\n'] then if g.more.isEmpty then [' '] else g.more
  else g.first ++ g.more

/-- The gap from a place on, and the place after it. A tab at the start of a line must stand
at column `indent` or further. -/
def takeGap (indent : Nat) : (fuel : Nat) → Gap → Cursor → Option (Gap × Cursor)
  | 0, g, c => some (g, c)
  | fuel + 1, g, c =>
    match c.head? with
    | none => some (g, c)
    | some x =>
      if isGap x then
        if g.broken then
          if x = '\t' && c.column < indent then none else takeGap indent fuel g (c.skip 1)
        else takeGap indent fuel { g with blanks := g.blanks ++ [x] } (c.skip 1)
      else if isBreak x then
        let g := if g.broken then { g with more := g.more ++ c.lineBreak }
          else { blanks := [], first := c.lineBreak, more := [], broken := true }
        takeGap indent fuel g c.skipLine
      else some (g, c)

/-! ### Plain scalars -/

/-- The characters that end a plain scalar within brackets. -/
def isFlowMark (x : Char) : Bool := x = ',' || x = '[' || x = ']' || x = '{' || x = '}'

/-- The word of a plain scalar at a place, and the place after it. `flow` tells whether the
scalar stands within brackets. -/
def plainWord (flow : Bool) : (fuel : Nat) → List Char → Cursor → Option (List Char × Cursor)
  | 0, done, c => some (done.reverse, c)
  | fuel + 1, done, c =>
    match c.head? with
    | none => some (done.reverse, c)
    | some x =>
      if isGap x || isBreak x then some (done.reverse, c)
      else if flow && x = ':' && (c.peek? 1).any (fun y => isFlowMark y || y = '?') then none
      else if (x = ':' && c.blankAt 1) || (flow && isFlowMark x) then some (done.reverse, c)
      else plainWord flow fuel (x :: done) (c.skip 1)

/-- The words of a plain scalar from a place on, after a first part and a gap. The result
also tells whether the gap after the last word is broken. -/
def plainWords (flow : Bool) (indent : Nat) :
    (fuel : Nat) → List Char → Gap → Cursor → Option (List Char × Bool × Cursor)
  | 0, done, gap, c => some (done, gap.broken, c)
  | fuel + 1, done, gap, c =>
    if c.atDocumentMark || c.at? '#' then some (done, gap.broken, c)
    else
      match plainWord flow c.rest.length [] c with
      | none => none
      | some ([], c) => some (done, gap.broken, c)
      | some (word, c) =>
        let done := done ++ gap.text ++ word
        match takeGap indent c.rest.length {} c with
        | none => none
        | some (gap, next) =>
          if next.index = c.index then some (done, false, c)
          else if !flow && next.column < indent then some (done, gap.broken, next)
          else plainWords flow indent fuel done gap next

/-- The plain scalar at a place, whether a line ends after it, and the place after it. In a
block its later lines start at column `indent` or further. -/
def plainScalar (flow : Bool) (indent : Nat) (c : Cursor) : Option (String × Bool × Cursor) :=
  (plainWords flow indent (c.rest.length + 1) [] {} c).map fun (text, broken, c) =>
    (String.ofList text, broken, c)

/-! ### Quoted scalars -/

/-- What a letter after a backslash stands for. -/
def escape? : Char → Option Char
  | '0' => some '\x00'
  | 'a' => some '\x07'
  | 'b' => some '\x08'
  | 't' | '\t' => some '\t'
  | 'n' => some '\n'
  | 'v' => some '\x0b'
  | 'f' => some '\x0c'
  | 'r' => some '\r'
  | 'e' => some '\x1b'
  | ' ' => some ' '
  | '"' => some '"'
  | '/' => some '/'
  | '\\' => some '\\'
  | 'N' => some '\x85'
  | '_' => some '\xa0'
  | 'L' => some '\u2028'
  | 'P' => some '\u2029'
  | _ => none

/-- How many digits of a code follow a letter after a backslash. -/
def codeDigits? : Char → Option Nat
  | 'x' => some 2
  | 'u' => some 4
  | 'U' => some 8
  | _ => none

/-- The character with a code. -/
def ofCode? (n : Nat) : Option Char :=
  if (0xD800 ≤ n ∧ n ≤ 0xDFFF) ∨ 0x10FFFF < n then none else some (Char.ofNat n)

/-- The character that the escape at a place stands for, and the place after it. -/
def takeEscape (c : Cursor) : Option (Char × Cursor) := do
  let letter ← c.peek? 1
  match codeDigits? letter with
  | none => return (← escape? letter, c.skip 2)
  | some n =>
    let digits := (c.rest.drop 2).take n
    if digits.length < n then none
    else return (← ofCode? (← radix? 16 digits), c.skip (2 + n))

/-- The word of a quoted scalar at a place, whether an escaped line break follows it, and the
place after it. -/
def quotedWord (quote : Char) :
    (fuel : Nat) → List Char → Cursor → Option (List Char × Bool × Cursor)
  | 0, done, c => some (done.reverse, false, c)
  | fuel + 1, done, c =>
    match c.head? with
    | none => some (done.reverse, false, c)
    | some x =>
      if isGap x || isBreak x then some (done.reverse, false, c)
      else if quote = '\'' && x = '\'' && c.peek? 1 = some '\'' then
        quotedWord quote fuel ('\'' :: done) (c.skip 2)
      else if x = quote then some (done.reverse, false, c)
      else if quote = '"' && x = '\\' then
        if (c.peek? 1).any isBreak then some (done.reverse, true, (c.skip 1).skipLine)
        else
          match takeEscape c with
          | none => none
          | some (y, c) => quotedWord quote fuel (y :: done) c
      else quotedWord quote fuel (x :: done) (c.skip 1)

/-- The rest of a quoted scalar after a first part, and the place after it. -/
def quotedWords (quote : Char) : (fuel : Nat) → List Char → Cursor → Option (String × Cursor)
  | 0, _, _ => none
  | fuel + 1, done, c =>
    if c.atDocumentMark || c.atEnd then none
    else do
      let (word, escaped, c) ← quotedWord quote c.rest.length [] c
      if c.at? quote then return (String.ofList (done ++ word), c.skip 1)
      else
        let (gap, c) ← takeGap 0 c.rest.length { broken := escaped } c
        quotedWords quote fuel (done ++ word ++ gap.text) c

/-- The quoted scalar at a place, and the place after it. -/
def quotedScalar (quote : Char) (c : Cursor) : Option (String × Cursor) :=
  quotedWords quote (c.rest.length + 1) [] (c.skip 1)

/-! ### Block scalars -/

/-- What happens to the line breaks at the end of a block. -/
inductive Chomping where
  | strip
  | clip
  | keep
  deriving DecidableEq, Repr

/-- The sign that tells about the end of a block. -/
def chomping? : Option Char → Option Chomping
  | some '+' => some .keep
  | some '-' => some .strip
  | _ => none

/-- The digit that tells the indentation of a block; it is not zero. -/
def indentation? (x : Option Char) : Option Nat := x.bind digitValue?

/-- What stands after the mark of a block: a sign and a digit in any order, both of which may
be missing. -/
def blockHeader (c : Cursor) : Option (Chomping × Nat × Cursor) :=
  match chomping? c.head? with
  | some chomping =>
    match indentation? (c.peek? 1) with
    | some 0 => none
    | some n => some (chomping, n, c.skip 2)
    | none => some (chomping, 0, c.skip 1)
  | none =>
    match indentation? c.head? with
    | some 0 => none
    | some n =>
      match chomping? (c.peek? 1) with
      | some chomping => some (chomping, n, c.skip 2)
      | none => some (.clip, n, c.skip 1)
    | none => some (.clip, 0, c)

/-- Empty lines from a place on: the greatest column that their blanks reach, their line
breaks, and the place after them. No tab may stand where `indent` asks for a space; an
`indent` of zero is not known yet. -/
def emptyLines (indent : Nat) :
    (fuel : Nat) → Nat → List Char → Cursor → Option (Nat × List Char × Cursor)
  | 0, widest, breaks, c => some (widest, breaks, c)
  | fuel + 1, widest, breaks, c =>
    let blanks := (c.takeWhile (· = ' ')).length
    let c := c.skip (if indent = 0 then blanks else min blanks (indent - c.column))
    let widest := max widest c.column
    if (indent = 0 || c.column < indent) && c.at? '\t' then none
    else if c.atBreak then
      emptyLines indent fuel widest (breaks ++ c.lineBreak) c.skipLine
    else some (widest, breaks, c)

/-- The lines of a block from a place on. `last` is the line break before it, `breaks` those
of the empty lines after that, and `indented` tells whether the line before starts with a
blank. -/
def blockLines (folded : Bool) (indent : Nat) :
    (fuel : Nat) → (done last breaks : List Char) → (indented : Bool) → Cursor →
      Option (List Char × List Char × List Char × Cursor)
  | 0, done, last, breaks, _, c => some (done, last, breaks, c)
  | fuel + 1, done, last, breaks, indented, c =>
    if c.column = indent && !c.atEnd then
      let blank := c.atGap
      let joint :=
        if folded && last = ['\n'] && !indented && !blank then
          if breaks.isEmpty then [' '] else []
        else last
      let line := c.takeWhile (fun x => !isBreak x)
      let c := c.skip line.length
      let done := done ++ joint ++ breaks ++ line
      match emptyLines indent c.rest.length 0 [] c.skipLine with
      | none => none
      | some (_, breaks, next) => blockLines folded indent fuel done c.lineBreak breaks blank next
    else some (done, last, breaks, c)

/-- The block at a place, and the place after it. `parent` is the column around it, or minus
one. -/
def blockScalar (folded : Bool) (parent : Int) (c : Cursor) : Option (String × Cursor) := do
  let (chomping, given, c) ← blockHeader (c.skip 1)
  let c ← c.endLine?
  let given := if given = 0 then 0 else (max parent 0).toNat + given
  let (widest, breaks, c) ← emptyLines given c.rest.length 0 [] c
  let indent := if given = 0 then max widest (max (parent + 1) 1).toNat else given
  let (done, last, breaks, c) ← blockLines folded indent (c.rest.length + 1) [] [] breaks false c
  let tail := match chomping with
    | .strip => []
    | .clip => last
    | .keep => last ++ breaks
  return (String.ofList (done ++ tail), c)

end Lightshow.Yaml
