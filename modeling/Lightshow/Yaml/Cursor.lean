/-!
# A place in a YAML text

A text is gone through from its start, and the number of the character, the line and the
column are counted on the way. Lines end in a carriage return, a line feed, both, or one of
three separators of Unicode.

## Main definitions

* `isGap`, `isBreak`, `isAllowed` — classes of characters.
* `Cursor` — a place in a text, with `skip`, `skipLine` and `skipWhile`.
* `Cursor.lineBreak` — what the line break at a place stands for.
* `Cursor.atDocumentMark` — the marks between documents.
-/

namespace Lightshow.Yaml

/-- A space or a tab. -/
def isGap (c : Char) : Bool := c = ' ' || c = '\t'

/-- A character that ends a line. -/
def isBreak (c : Char) : Bool :=
  c = '\r' || c = '\n' || c = '\x85' || c = '\u2028' || c = '\u2029'

/-- The characters that a text may hold. -/
def isAllowed (c : Char) : Bool :=
  let n := c.toNat
  n = 0x09 || n = 0x0A || n = 0x0D || (0x20 ≤ n && n ≤ 0x7E) || n = 0x85
    || (0xA0 ≤ n && n ≤ 0xFFFD) || 0x10000 ≤ n

/-- A character of a name: a digit or a letter of ASCII, an underscore or a hyphen. -/
def isWord (c : Char) : Bool := c.isAlphanum || c = '_' || c = '-'

/-- A place in a text. -/
structure Cursor where
  /-- What follows. -/
  rest : List Char
  index : Nat := 0
  line : Nat := 0
  column : Nat := 0
  deriving Repr

namespace Cursor

/-- The character at a place. -/
def head? (c : Cursor) : Option Char := c.rest.head?

/-- The character some places further. -/
def peek? (c : Cursor) (n : Nat) : Option Char := c.rest[n]?

/-- The end of the text. -/
def atEnd (c : Cursor) : Bool := c.rest.isEmpty

/-- Whether the character at a place is `x`. -/
def at? (c : Cursor) (x : Char) : Bool := c.head? = some x

/-- Some characters further on the same line. -/
def skip (c : Cursor) (n : Nat) : Cursor :=
  { c with rest := c.rest.drop n, index := c.index + n, column := c.column + n }

/-- The number of characters of the line break at a place. -/
def breakWidth (c : Cursor) : Nat :=
  match c.rest with
  | '\r' :: '\n' :: _ => 2
  | x :: _ => if isBreak x then 1 else 0
  | [] => 0

/-- The text that the line break at a place stands for: a line feed, unless it is one of the
separators of lines and paragraphs, which stand for themselves. -/
def lineBreak (c : Cursor) : List Char :=
  match c.rest with
  | x :: _ => if x = '\u2028' || x = '\u2029' then [x] else if isBreak x then ['\n'] else []
  | [] => []

/-- The start of the next line, if there is a line break. -/
def skipLine (c : Cursor) : Cursor :=
  match c.breakWidth with
  | 0 => c
  | w => { c with
      rest := c.rest.drop w, index := c.index + w, line := c.line + 1, column := 0 }

/-- The characters from a place on that are in a class. None of them may end a line. -/
def takeWhile (c : Cursor) (p : Char → Bool) : List Char := c.rest.takeWhile p

/-- The first place that is not in a class. -/
def skipWhile (c : Cursor) (p : Char → Bool) : Cursor := c.skip (c.takeWhile p).length

/-- A space, a tab, a line break or the end of the text some places further. -/
def blankAt (c : Cursor) (n : Nat) : Bool :=
  match c.peek? n with
  | some x => isGap x || isBreak x
  | none => true

/-- A line break or the end of the text. -/
def atLineEnd (c : Cursor) : Bool := (c.head?.map isBreak).getD true

/-- A space or a tab. -/
def atGap (c : Cursor) : Bool := (c.head?.map isGap).getD false

/-- A line break. -/
def atBreak (c : Cursor) : Bool := (c.head?.map isBreak).getD false

/-- Three marks at the start of a line, with a blank after them. -/
def atMark (c : Cursor) (x : Char) : Bool :=
  c.column = 0 && [x, x, x].isPrefixOf c.rest && c.blankAt 3

/-- The marks that stand before and after a document. -/
def atDocumentMark (c : Cursor) : Bool := c.atMark '-' || c.atMark '.'

/-- Past a comment, if there is one. -/
def skipComment (c : Cursor) : Cursor :=
  if c.at? '#' then c.skipWhile (fun x => !isBreak x) else c

/-- Past the gaps, a comment and the line break that may follow on the line. Nothing else may
follow. -/
def endLine? (c : Cursor) : Option Cursor :=
  let c := (c.skipWhile isGap).skipComment
  if c.atLineEnd then some c.skipLine else none

end Cursor

end Lightshow.Yaml
