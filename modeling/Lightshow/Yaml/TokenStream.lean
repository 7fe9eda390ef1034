import Lightshow.Yaml.Token

/-!
# The tokens of a YAML text

The structure of a YAML text outside brackets is told by columns: a collection begins
where something stands further to the right than what is around it, and ends where
something stands further to the left. Within brackets columns do not matter.

A key of a mapping need not be marked. When a token is found that may turn out to be such a
key, it is held back until the colon after it is found or can no longer come: a key stands
on one line and within 1024 characters. When the colon is found, what marks the key, and
perhaps the start of the mapping, is put before the token. So tokens are handed out only
when no key may begin with them any more.

## Main definitions

* `Scan` — how far the tokens have been found.
* `Scan.next` — the search for the next token.
* `tokens` — all tokens of a text.
-/

namespace Lightshow.Yaml

/-- A token that may turn out to be a key. -/
structure PossibleKey where
  /-- It stands at the column of the mapping around it, so it can be nothing but a key. -/
  required : Bool
  /-- The number of the token. -/
  number : Nat
  index : Nat
  line : Nat
  column : Nat
  deriving DecidableEq, Repr

/-- How far the tokens of a text have been found. -/
structure Scan where
  cursor : Cursor
  /-- The column of the collection around, and those of the collections around that. Outside
  all collections it is minus one. -/
  indent : Int := -1
  outer : List Int := []
  /-- Whether a key without a mark may begin here. -/
  keyAllowed : Bool := true
  /-- What may turn out to be a key, outside brackets. -/
  blockKey : Option PossibleKey := none
  /-- The same within each pair of brackets, the innermost pair first. -/
  flowKeys : List (Option PossibleKey) := []
  /-- Tokens that are not handed out yet. -/
  queue : List Token := []
  /-- The number of tokens that have been handed out. -/
  taken : Nat := 0
  ended : Bool := false
  deriving Repr

namespace Scan

/-- Whether the place is within brackets. -/
def inFlow (s : Scan) : Bool := !s.flowKeys.isEmpty

/-- One more token. -/
def push (t : Token) (s : Scan) : Scan := { s with queue := s.queue ++ [t] }

/-- A token put before the one with a given number. -/
def insert (number : Nat) (t : Token) (s : Scan) : Scan :=
  let i := number - s.taken
  { s with queue := s.queue.take i ++ t :: s.queue.drop i }

/-- Some characters further. -/
def skip (n : Nat) (s : Scan) : Scan := { s with cursor := s.cursor.skip n }

/-- Whether a key without a mark may begin after this. -/
def allowKey (allowed : Bool) (s : Scan) : Scan := { s with keyAllowed := allowed }

/-! ### Keys -/

/-- What may turn out to be a key of the collection around. -/
def key? (s : Scan) : Option PossibleKey :=
  match s.flowKeys with
  | k :: _ => k
  | [] => s.blockKey

/-- Another token, or none, that may turn out to be a key of the collection around. -/
def setKey (k : Option PossibleKey) (s : Scan) : Scan :=
  match s.flowKeys with
  | _ :: rest => { s with flowKeys := k :: rest }
  | [] => { s with blockKey := k }

/-- No key may be there any more. A key that had to be there is missed. -/
def dropKey (s : Scan) : Option Scan :=
  match s.key? with
  | some k => if k.required then none else some (s.setKey none)
  | none => some s

/-- The next token may turn out to be a key, if one may begin here. -/
def markKey (s : Scan) : Option Scan :=
  if s.keyAllowed then do
    let s ← s.dropKey
    return s.setKey (some {
      required := !s.inFlow && s.indent = s.cursor.column
      number := s.taken + s.queue.length
      index := s.cursor.index
      line := s.cursor.line
      column := s.cursor.column })
  else some s

/-- The greatest length of a key with the blanks before its colon. -/
def keyLength : Nat := 1024

/-- Whether the colon of a key can no longer come. -/
def isStale (c : Cursor) (k : PossibleKey) : Bool :=
  k.line < c.line || k.index + keyLength < c.index

/-- What has become of a possible key. -/
def refresh (c : Cursor) : Option PossibleKey → Option (Option PossibleKey)
  | some k => if isStale c k then if k.required then none else some none else some (some k)
  | none => some none

/-- Forgets the keys whose colons can no longer come. -/
def dropStale (s : Scan) : Option Scan := do
  return { s with
    blockKey := ← refresh s.cursor s.blockKey
    flowKeys := ← s.flowKeys.mapM (refresh s.cursor) }

/-- Whether the token with a given number may turn out to be a key. -/
def mayBeKey (s : Scan) (number : Nat) : Bool :=
  (s.blockKey :: s.flowKeys).any fun k => k.any (·.number = number)

/-! ### Columns -/

/-- A collection begins at a column if that is further to the right. `place` puts the token
for its beginning. -/
def indentTo (column : Nat) (place : Scan → Scan) (s : Scan) : Scan :=
  if !s.inFlow && s.indent < column then
    place { s with indent := column, outer := s.indent :: s.outer }
  else s

/-- Ends the collections that stand further to the right than a column. -/
def endBlocks (column : Int) : List Int → Scan → Scan
  | [], s => if column < s.indent then { s.push .blockEnd with indent := -1 } else s
  | i :: outer, s =>
    if column < s.indent then
      endBlocks column outer { s.push .blockEnd with indent := i, outer := outer }
    else s

/-- Ends the collections that stand further to the right, outside brackets. -/
def unindentTo (column : Int) (s : Scan) : Scan :=
  if s.inFlow then s else endBlocks column s.outer s

/-! ### Blanks -/

/-- Past blanks, comments and line breaks. Tabs count as blanks within brackets and where no
key may begin. A mark of the byte order may stand at the start of the text. -/
def skipBlanks : (fuel : Nat) → Scan → Scan
  | 0, s => s
  | fuel + 1, s =>
    let c := s.cursor
    let c := if c.index = 0 && c.at? '\uFEFF' then c.skip 1 else c
    let tabs := s.inFlow || !s.keyAllowed
    let c := (c.skipWhile fun x => x = ' ' || (tabs && x = '\t')).skipComment
    if c.atBreak then
      let s := { s with cursor := c.skipLine }
      skipBlanks fuel (if s.inFlow then s else s.allowKey true)
    else { s with cursor := c }

/-! ### The kinds of tokens -/

/-- The end of the text. -/
def streamEnd (s : Scan) : Option Scan := do
  let s ← (s.unindentTo (-1)).dropKey
  return { (s.allowKey false).push .streamEnd with ended := true }

/-- A directive. -/
def takeDirective (s : Scan) : Option Scan := do
  let s ← (s.unindentTo (-1)).dropKey
  let (t, c) ← directive s.cursor
  return { (s.allowKey false).push t with cursor := c }

/-- A mark between documents. -/
def documentMark (t : Token) (s : Scan) : Option Scan := do
  let s ← (s.unindentTo (-1)).dropKey
  return ((s.allowKey false).skip 3).push t

/-- An opening bracket. -/
def openFlow (t : Token) (s : Scan) : Option Scan := do
  let s ← s.markKey
  return ((({ s with flowKeys := none :: s.flowKeys }).allowKey true).skip 1).push t

/-- A closing bracket. -/
def closeFlow (t : Token) (s : Scan) : Option Scan := do
  let s ← s.dropKey
  return ((({ s with flowKeys := s.flowKeys.drop 1 }).allowKey false).skip 1).push t

/-- A comma. -/
def flowEntry (s : Scan) : Option Scan := do
  let s ← s.dropKey
  return ((s.allowKey true).skip 1).push .flowEntry

/-- Opens a block collection here, where one may begin. -/
def openBlock (t : Token) (s : Scan) : Option Scan :=
  if s.inFlow then some s
  else if s.keyAllowed then some (s.indentTo s.cursor.column (push t))
  else none

/-- A hyphen. -/
def blockEntry (s : Scan) : Option Scan := do
  let s ← (← s.openBlock .blockSequenceStart).dropKey
  return ((s.allowKey true).skip 1).push .blockEntry

/-- A question mark. -/
def explicitKey (s : Scan) : Option Scan := do
  let s ← (← s.openBlock .blockMappingStart).dropKey
  return ((s.allowKey !s.inFlow).skip 1).push .key

/-- A colon. -/
def takeValue (s : Scan) : Option Scan := do
  match s.key? with
  | some k =>
    let s := s.insert k.number .key
    let s := s.indentTo k.column (insert k.number .blockMappingStart)
    return (((s.setKey none).allowKey false).skip 1).push .value
  | none =>
    let s ← s.openBlock .blockMappingStart
    return ((s.allowKey !s.inFlow).skip 1).push .value

/-- An anchor or an alias. -/
def takeAnchor (token : String → Token) (s : Scan) : Option Scan := do
  let s ← s.markKey
  let (name, c) ← anchorName s.cursor
  return { (s.allowKey false).push (token name) with cursor := c }

/-- A tag. -/
def takeTag (s : Scan) : Option Scan := do
  let s ← s.markKey
  let (handle, rest, c) ← nodeTag s.inFlow s.cursor
  return { (s.allowKey false).push (.tag handle rest) with cursor := c }

/-- A block scalar. -/
def takeBlock (style : ScalarStyle) (s : Scan) : Option Scan := do
  let s ← s.dropKey
  let (text, c) ← blockScalar (style = .folded) s.indent s.cursor
  return { (s.allowKey true).push (.scalar style text) with cursor := c }

/-- A quoted scalar. -/
def takeQuoted (quote : Char) (s : Scan) : Option Scan := do
  let s ← s.markKey
  let (text, c) ← quotedScalar quote s.cursor
  return { (s.allowKey false).push (.scalar .quoted text) with cursor := c }

/-- A plain scalar. -/
def takePlain (s : Scan) : Option Scan := do
  let s ← s.markKey
  let (text, broken, c) ← plainScalar s.inFlow (s.indent + 1).toNat s.cursor
  return { (s.allowKey broken).push (.scalar .plain text) with cursor := c }

/-- The characters with which no plain scalar begins. -/
def marks : List Char :=
  ['-', '?', ':', ',', '[', ']', '\x7b', '\x7d', '#', '&', '*', '!', '|', '>', '\'', '"', '%',
   '@', '\x60']

/-- Whether a plain scalar begins at a place. A hyphen begins one if no blank follows on its
line, and outside brackets so do a question mark and a colon. -/
def startsPlain (flow : Bool) (c : Cursor) : Bool :=
  match c.head? with
  | none => false
  | some x =>
    !(isGap x || isBreak x || marks.contains x)
      || (x = '-' && !(c.skip 1).atGap)
      || (!flow && (x = '?' || x = ':') && !c.blankAt 1)

/-- The token at a place. -/
def take (s : Scan) : Option Scan :=
  let c := s.cursor
  let flow := s.inFlow
  match c.head? with
  | none => s.streamEnd
  | some x =>
    if c.column = 0 && x = '%' then s.takeDirective
    else if c.atMark '-' then s.documentMark .documentStart
    else if c.atMark '.' then s.documentMark .documentEnd
    else if x = '[' then s.openFlow .flowSequenceStart
    else if x = '\x7b' then s.openFlow .flowMappingStart
    else if x = ']' then s.closeFlow .flowSequenceEnd
    else if x = '\x7d' then s.closeFlow .flowMappingEnd
    else if x = ',' then s.flowEntry
    else if x = '-' && c.blankAt 1 then s.blockEntry
    else if x = '?' && (flow || c.blankAt 1) then s.explicitKey
    else if x = ':' && (flow || c.blankAt 1) then s.takeValue
    else if x = '*' then s.takeAnchor .alias
    else if x = '&' then s.takeAnchor .anchor
    else if x = '!' then s.takeTag
    else if x = '|' && !flow then s.takeBlock .literal
    else if x = '>' && !flow then s.takeBlock .folded
    else if x = '\'' || x = '"' then s.takeQuoted x
    else if startsPlain flow c then s.takePlain
    else none

/-- The search for the next token: past blanks, out of the collections that end here, and on
to the token. -/
def next (s : Scan) : Option Scan := do
  let s ← (s.skipBlanks (s.cursor.rest.length + 1)).dropStale
  (s.unindentTo s.cursor.column).take

end Scan

/-- The tokens that follow, in their order. `fuel` bounds the number of steps. -/
def tokensFrom : (fuel : Nat) → Scan → List Token
  | 0, _ => [.broken]
  | fuel + 1, s =>
    match s.queue with
    | [] =>
      if s.ended then []
      else
        match s.next with
        | some s => tokensFrom fuel s
        | none => [.broken]
    | t :: queue =>
      match s.dropStale with
      | none => [.broken]
      | some s =>
        if s.mayBeKey s.taken then
          match s.next with
          | some s => tokensFrom fuel s
          | none => [.broken]
        else t :: tokensFrom fuel { s with queue := queue, taken := s.taken + 1 }

/-- The tokens of a text. A text that cannot be read on ends in `broken`. -/
def tokens (s : List Char) : List Token :=
  tokensFrom (8 * s.length + 16) { cursor := { rest := s } }

end Lightshow.Yaml
