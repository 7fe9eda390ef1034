import Lightshow.Yaml.TokenStream

/-!
# Nodes of YAML texts

The tokens of a document form a tree of scalars, sequences and mappings. A node may carry an
anchor, and an alias stands for a node with an anchor. Where the tokens do not go on as they
should, the tree ends in `broken`.

Anchors are numbered. An anchor takes as its number how many different names there were before
it; a name that is given again takes a number in the same way, so the next new name takes that
number too. An alias has the number that its name has at that place.

## Main definitions

* `Node` — the trees.
* `Anchors` — the names seen so far.
* `documentNode` — the tree of the document that some tokens begin with.
-/

namespace Lightshow.Yaml

/-- A node of a document. -/
inductive Node where
  | scalar (anchor : Option Nat) (s : Scalar)
  | sequence (anchor : Option Nat) (tag : Option String) (items : List Node)
  | mapping (anchor : Option Nat) (tag : Option String) (entries : List (Node × Node))
  | alias (number : Nat)
  /-- Nothing is written. -/
  | absent
  /-- From here on the text cannot be read. -/
  | broken
  deriving Repr

/-! ### Anchors -/

/-- The names of anchors with their numbers, the latest first. -/
abbrev Anchors := List (String × Nat)

/-- The number of different names. -/
def Anchors.size (a : Anchors) : Nat := (a.map (·.1)).eraseDups.length

/-- The number that a name has. -/
def Anchors.number? (a : Anchors) (name : String) : Option Nat :=
  (a.find? (·.1 = name)).map (·.2)

/-! ### Tags -/

/-- What handles stand for in the tags of a document. -/
abbrev Handles := List (String × String)

/-- What handles stand for unless a directive says otherwise. -/
def standardHandles : Handles := [("!", "!"), ("!!", "tag:yaml.org,2002:")]

/-- A tag written in full. A tag without a handle is complete. -/
def fullTag (handles : Handles) (handle rest : String) : Option String :=
  if handle.isEmpty then some rest
  else (handles.find? (·.1 = handle)).map fun h => h.2 ++ rest

/-! ### Reading nodes -/

/-- The tokens that follow and the anchors so far. -/
structure Source where
  tokens : List Token
  anchors : Anchors := []
  deriving Repr

/-- The token at a place. After the last one the text cannot be read on. -/
def Source.head (s : Source) : Token := s.tokens.head?.getD .broken

/-- One token further. -/
def Source.advance (s : Source) : Source := { s with tokens := s.tokens.drop 1 }

/-- What was read and what follows. Nothing follows what is broken. -/
abbrev Reading (α : Type) : Type := α × Option Source

/-- What is written before a node. -/
structure Properties where
  anchor : Option String := none
  tag : Option (String × String) := none

/-- The anchor at a place, if there is one. -/
def takeAnchorToken (p : Properties) (s : Source) : Properties × Source :=
  match s.head with
  | .anchor name => ({ p with anchor := some name }, s.advance)
  | _ => (p, s)

/-- The tag at a place, if there is one. -/
def takeTagToken (p : Properties) (s : Source) : Properties × Source :=
  match s.head with
  | .tag handle rest => ({ p with tag := some (handle, rest) }, s.advance)
  | _ => (p, s)

/-- An anchor and a tag in any order. -/
def takeProperties (s : Source) : Properties × Source :=
  match s.head with
  | .anchor _ =>
    let (p, s) := takeAnchorToken {} s
    takeTagToken p s
  | _ =>
    let (p, s) := takeTagToken {} s
    if p.tag.isSome then takeAnchorToken p s else (p, s)

/-- The anchor of a node, numbered. -/
def Source.register (name : Option String) (s : Source) : Option Nat × Source :=
  match name with
  | none => (none, s)
  | some name =>
    let number := s.anchors.size
    (some number, { s with anchors := (name, number) :: s.anchors })

/-- A scalar with the properties of its node. A tag that is only a mark says nothing. -/
def scalarNode (tag : Option String) (style : ScalarStyle) (text : String) : Scalar :=
  ⟨if tag = some "!" then none else tag, style, text⟩

/-- A scalar where nothing is written. -/
def emptyScalar : Node := .scalar none ⟨none, .plain, ""⟩

/-- Items or entries that break off. -/
def brokenItems : Reading (List Node) := ([.broken], none)

@[inherit_doc brokenItems] def brokenEntries : Reading (List (Node × Node)) :=
  ([(.broken, .broken)], none)

/-- An item before the items that follow it. -/
def consItem (n : Node) (r : Reading (List Node)) : Reading (List Node) := (n :: r.1, r.2)

/-- An entry before the entries that follow it. -/
def consEntry (k v : Node) (r : Reading (List (Node × Node))) : Reading (List (Node × Node)) :=
  ((k, v) :: r.1, r.2)

/-- Whether one of some tokens is at a place. -/
def Source.isAt (s : Source) (ts : List Token) : Bool := ts.contains s.head

/-- Where a node may stand, which decides how it may be written. -/
inductive Setting where
  /-- Within brackets. -/
  | flow
  /-- Outside brackets. -/
  | block
  /-- Outside brackets and in a mapping, where a sequence need not be indented. -/
  | entry
  deriving DecidableEq, Repr

mutual

/-- The node at a place. `fuel` bounds the number of steps. -/
def node (handles : Handles) : (fuel : Nat) → Setting → Source → Reading Node
  | 0, _, _ => (.broken, none)
  | fuel + 1, setting, s =>
    match s.head with
    | .alias name =>
      match s.anchors.number? name with
      | some number => (.alias number, some s.advance)
      | none => (.broken, none)
    | _ =>
      let (p, s) := takeProperties s
      match p.tag.map fun t => fullTag handles t.1 t.2 with
      | some none => (.broken, none)
      | tag =>
        let tag := tag.join
        match s.head with
        | .broken => (.broken, none)
        | .scalar style text =>
          let (anchor, s) := s.register p.anchor
          (.scalar anchor (scalarNode tag style text), some s.advance)
        | .flowSequenceStart =>
          let (anchor, s) := s.register p.anchor
          let (items, r) := flowItems handles fuel true s.advance
          (.sequence anchor tag items, r)
        | .flowMappingStart =>
          let (anchor, s) := s.register p.anchor
          let (entries, r) := flowEntries handles fuel true s.advance
          (.mapping anchor tag entries, r)
        | token =>
          if token = .blockEntry && setting = .entry then
            let (anchor, s) := s.register p.anchor
            let (items, r) := looseItems handles fuel s
            (.sequence anchor tag items, r)
          else if token = .blockSequenceStart && setting != .flow then
            let (anchor, s) := s.register p.anchor
            let (items, r) := blockItems handles fuel s.advance
            (.sequence anchor tag items, r)
          else if token = .blockMappingStart && setting != .flow then
            let (anchor, s) := s.register p.anchor
            let (entries, r) := blockEntries handles fuel s.advance
            (.mapping anchor tag entries, r)
          else if p.anchor.isSome || tag.isSome then
            let (anchor, s) := s.register p.anchor
            (.scalar anchor ⟨tag, .plain, ""⟩, some s)
          else (.broken, none)

/-- The node at a place, or nothing if one of some tokens is there. -/
def nodeUnless (handles : Handles) : (fuel : Nat) → List Token → Setting → Source → Reading Node
  | 0, _, _, _ => (.broken, none)
  | fuel + 1, stops, setting, s =>
    if s.isAt stops then (emptyScalar, some s) else node handles fuel setting s

/-- The items of an indented sequence. -/
def blockItems (handles : Handles) : (fuel : Nat) → Source → Reading (List Node)
  | 0, _ => brokenItems
  | fuel + 1, s =>
    match s.head with
    | .blockEntry =>
      match nodeUnless handles fuel [.blockEntry, .blockEnd] .block s.advance with
      | (n, some s) => consItem n (blockItems handles fuel s)
      | (n, none) => ([n], none)
    | .blockEnd => ([], some s.advance)
    | _ => brokenItems

/-- The items of a sequence that is not indented. -/
def looseItems (handles : Handles) : (fuel : Nat) → Source → Reading (List Node)
  | 0, _ => brokenItems
  | fuel + 1, s =>
    match s.head with
    | .blockEntry =>
      match nodeUnless handles fuel [.blockEntry, .key, .value, .blockEnd] .block s.advance with
      | (n, some s) => consItem n (looseItems handles fuel s)
      | (n, none) => ([n], none)
    | .broken => brokenItems
    | _ => ([], some s)

/-- The entries of an indented mapping. -/
def blockEntries (handles : Handles) : (fuel : Nat) → Source → Reading (List (Node × Node))
  | 0, _ => brokenEntries
  | fuel + 1, s =>
    match s.head with
    | .key =>
      match nodeUnless handles fuel [.key, .value, .blockEnd] .entry s.advance with
      | (k, none) => ([(k, .broken)], none)
      | (k, some s) =>
        match blockValue handles fuel s with
        | (v, none) => ([(k, v)], none)
        | (v, some s) => consEntry k v (blockEntries handles fuel s)
    | .blockEnd => ([], some s.advance)
    | _ => brokenEntries

/-- The value of an entry of an indented mapping. -/
def blockValue (handles : Handles) : (fuel : Nat) → Source → Reading Node
  | 0, _ => (.broken, none)
  | fuel + 1, s =>
    match s.head with
    | .value => nodeUnless handles fuel [.key, .value, .blockEnd] .entry s.advance
    | .broken => (.broken, none)
    | _ => (emptyScalar, some s)

/-- The items of a sequence within brackets. Before every item but the first stands a comma. -/
def flowItems (handles : Handles) : (fuel : Nat) → (first : Bool) → Source → Reading (List Node)
  | 0, _, _ => brokenItems
  | fuel + 1, first, s =>
    match s.head with
    | .flowSequenceEnd => ([], some s.advance)
    | .flowEntry =>
      if first then flowItem handles fuel s
      else
        let s := s.advance
        match s.head with
        | .flowSequenceEnd => ([], some s.advance)
        | _ => flowItem handles fuel s
    | _ => if first then flowItem handles fuel s else brokenItems

/-- An item of a sequence within brackets and the items after it. An item with a colon is a
mapping of one entry. -/
def flowItem (handles : Handles) : (fuel : Nat) → Source → Reading (List Node)
  | 0, _ => brokenItems
  | fuel + 1, s =>
    match s.head with
    | .key =>
      match pairKey handles fuel s.advance with
      | (k, none) => ([.mapping none none [(k, .broken)]], none)
      | (k, some s) =>
        match pairValue handles fuel s with
        | (v, none) => ([.mapping none none [(k, v)]], none)
        | (v, some s) => consItem (.mapping none none [(k, v)]) (flowItems handles fuel false s)
    | _ =>
      match node handles fuel .flow s with
      | (n, some s) => consItem n (flowItems handles fuel false s)
      | (n, none) => ([n], none)

/-- The key of an item with a colon. Where the key is left out, what stands in its place is
passed over. -/
def pairKey (handles : Handles) : (fuel : Nat) → Source → Reading Node
  | 0, _ => (.broken, none)
  | fuel + 1, s =>
    if s.isAt [.value, .flowEntry, .flowSequenceEnd] then (emptyScalar, some s.advance)
    else node handles fuel .flow s

/-- The value of an item with a colon. -/
def pairValue (handles : Handles) : (fuel : Nat) → Source → Reading Node
  | 0, _ => (.broken, none)
  | fuel + 1, s =>
    match s.head with
    | .value => nodeUnless handles fuel [.flowEntry, .flowSequenceEnd] .flow s.advance
    | .broken => (.broken, none)
    | _ => (emptyScalar, some s)

/-- The entries of a mapping within brackets. Before every entry but the first stands a
comma. -/
def flowEntries (handles : Handles) :
    (fuel : Nat) → (first : Bool) → Source → Reading (List (Node × Node))
  | 0, _, _ => brokenEntries
  | fuel + 1, first, s =>
    match s.head with
    | .flowMappingEnd => ([], some s.advance)
    | .flowEntry =>
      if first then flowPair handles fuel s
      else
        let s := s.advance
        match s.head with
        | .flowMappingEnd => ([], some s.advance)
        | _ => flowPair handles fuel s
    | _ => if first then flowPair handles fuel s else brokenEntries

/-- An entry of a mapping within brackets and the entries after it. -/
def flowPair (handles : Handles) : (fuel : Nat) → Source → Reading (List (Node × Node))
  | 0, _ => brokenEntries
  | fuel + 1, s =>
    match s.head with
    | .key =>
      match nodeUnless handles fuel [.value, .flowEntry, .flowMappingEnd] .flow s.advance with
      | (k, none) => ([(k, .broken)], none)
      | (k, some s) =>
        match flowValue handles fuel s with
        | (v, none) => ([(k, v)], none)
        | (v, some s) => consEntry k v (flowEntries handles fuel false s)
    | _ =>
      match node handles fuel .flow s with
      | (k, none) => ([(k, .broken)], none)
      | (k, some s) =>
        if s.head = .broken then ([(k, .broken)], none)
        else consEntry k emptyScalar (flowEntries handles fuel false s)

/-- The value of an entry within brackets. -/
def flowValue (handles : Handles) : (fuel : Nat) → Source → Reading Node
  | 0, _ => (.broken, none)
  | fuel + 1, s =>
    match s.head with
    | .value => nodeUnless handles fuel [.flowEntry, .flowMappingEnd] .flow s.advance
    | .broken => (.broken, none)
    | _ => (emptyScalar, some s)

end

/-! ### Documents -/

/-- The directives at a place and the tokens after them: at most one version, which is 1.1 or
1.2, and handles that differ. -/
def directives : (versioned : Bool) → Handles → List Token → Option (Handles × List Token)
  | versioned, handles, .version major minor :: rest =>
    if !versioned && major = 1 && (minor = 1 || minor = 2) then directives true handles rest
    else none
  | versioned, handles, .handle name meaning :: rest =>
    if handles.any (·.1 = name) then none
    else directives versioned (handles ++ [(name, meaning)]) rest
  | _, handles, rest => some (handles, rest)

/-- The handles of a document: those of its directives, and the standard ones. -/
def withStandard (handles : Handles) : Handles := handles ++ standardHandles

/-- The tokens that begin what is no document without a mark. -/
def startsMarked : Token → Bool
  | .version .. | .handle .. | .documentStart => true
  | _ => false

/-- The tokens with which the content of a document is over before it began. -/
def endsContent : Token → Bool
  | .version .. | .handle .. | .documentStart | .documentEnd | .streamEnd => true
  | _ => false

/-- The content of a document after its mark. -/
def markedNode (fuel : Nat) (handles : Handles) (s : Source) : Reading Node :=
  if s.head = .broken then (.broken, none)
  else if endsContent s.head then (emptyScalar, some s)
  else node handles fuel .block s

/-- The tree of the document that some tokens begin with, and what follows it. -/
def documentNode (ts : List Token) : Reading Node :=
  let fuel := 4 * ts.length + 4
  match ts with
  | .streamEnd :: _ => (.absent, some ⟨ts, []⟩)
  | t :: _ =>
    if startsMarked t then
      match directives false [] ts with
      | some (handles, .documentStart :: rest) =>
        markedNode fuel (withStandard handles) ⟨rest, []⟩
      | _ => (.broken, none)
    else node standardHandles fuel .block ⟨ts, []⟩
  | [] => (.broken, none)

/-- Whether nothing but marks for the end of a document follows. -/
def isLastDocument : List Token → Bool
  | .documentEnd :: rest => isLastDocument rest
  | .streamEnd :: _ => true
  | _ => false

end Lightshow.Yaml
