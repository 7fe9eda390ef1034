import Lightshow.Document.Basic
import Lightshow.Yaml.Node

/-!
# YAML texts

A YAML text is read into a document of the form `yaml`. Its scalars are not resolved yet,
since what they denote depends on who asks. Aliases are replaced by the nodes they stand
for; a node that contains itself goes on until it is too deep. At most 128 sequences and
mappings may stand around a value.

A text holds one document, or none. A second document is found only after the first one has
been read. A character that no text may hold is found before anything else.

## Main definitions

* `Document.ofYaml` — the document that a YAML text begins with, and what follows it.
* `readYaml` — a whole text read as a value of some kind.
-/

namespace Lightshow

namespace Yaml

/-! ### Aliases -/

mutual

/-- The nodes with anchors within a node, in the order of the text. -/
def Node.anchored : Node → List (Nat × Node)
  | .scalar anchor s => (anchor.map fun n => (n, .scalar none s)).toList
  | .sequence anchor tag items =>
    (anchor.map fun n => (n, .sequence none tag items)).toList ++ anchoredItems items
  | .mapping anchor tag entries =>
    (anchor.map fun n => (n, .mapping none tag entries)).toList ++ anchoredEntries entries
  | .alias _ | .absent | .broken => []

/-- `Node.anchored` for the items of a sequence. -/
def anchoredItems : List Node → List (Nat × Node)
  | [] => []
  | n :: rest => n.anchored ++ anchoredItems rest

/-- `Node.anchored` for the entries of a mapping. -/
def anchoredEntries : List (Node × Node) → List (Nat × Node)
  | [] => []
  | (k, v) :: rest => k.anchored ++ (v.anchored ++ anchoredEntries rest)

end

mutual

/-- The number of pieces that a node consists of: one for a scalar or an alias, and two for
the start and the end of anything else. -/
def Node.size : Node → Nat
  | .sequence _ _ items => sizeItems items + 2
  | .mapping _ _ entries => sizeEntries entries + 2
  | _ => 1

/-- `Node.size` for the items of a sequence. -/
def sizeItems : List Node → Nat
  | [] => 0
  | n :: rest => n.size + sizeItems rest

/-- `Node.size` for the entries of a mapping. -/
def sizeEntries : List (Node × Node) → Nat
  | [] => 0
  | (k, v) :: rest => k.size + (v.size + sizeEntries rest)

end

/-- The node that a number stands for: the last one that took it. -/
def anchoredNode (anchored : List (Nat × Node)) (number : Nat) : Node :=
  ((anchored.reverse.find? (·.1 = number)).map (·.2)).getD .broken

/-! ### Documents -/

/-- A document, and how many more aliases may be replaced. -/
abbrev Expanded (α : Type) : Type := α × Nat

/-- Each element in its turn. -/
def expandList {α β : Type} (expand : α → Nat → Expanded β) : List α → Nat → Expanded (List β)
  | [], budget => ([], budget)
  | x :: rest, budget =>
    let (y, budget) := expand x budget
    let (rest, budget) := expandList expand rest budget
    (y :: rest, budget)

/-- A node that is no alias as a document. `inside` reads the nodes within it, if it may have
any. -/
def expandNode (inside : Option (Node → Nat → Expanded Document)) (n : Node) (budget : Nat) :
    Expanded Document :=
  match n with
  | .scalar _ s => (.scalar s, budget)
  | .sequence _ tag items =>
    match inside with
    | none => (.broken .tooDeep, budget)
    | some inside =>
      let (ds, budget) := expandList inside items budget
      (.list (.yaml tag) ds, budget)
  | .mapping _ tag entries =>
    match inside with
    | none => (.broken .tooDeep, budget)
    | some inside =>
      let entry (e : Node × Node) (budget : Nat) : Expanded (Document × Document) :=
        let (k, budget) := inside e.1 budget
        let (v, budget) := inside e.2 budget
        ((k, v), budget)
      let (es, budget) := expandList entry entries budget
      (.record (.yaml tag) es, budget)
  | .absent => (.absent, budget)
  | .alias _ | .broken => (.broken .malformed, budget)

/-- A node as a document in which at most `levels` sequences and mappings may nest. -/
def expand (anchored : List (Nat × Node)) : (levels : Nat) → Node → Nat → Expanded Document
  | 0, n, budget => follow none n budget
  | levels + 1, n, budget => follow (some (expand anchored levels)) n budget
where
  /-- Follows an alias if the node is one. -/
  follow (inside : Option (Node → Nat → Expanded Document)) (n : Node) (budget : Nat) :
      Expanded Document :=
    match n with
    | .alias number =>
      match budget with
      | 0 => (.broken .malformed, 0)
      | budget + 1 => expandNode inside (anchoredNode anchored number) budget
    | n => expandNode inside n budget

/-- The number of sequences and mappings that may stand around a value. -/
def maxLevels : Nat := 128

/-- How often aliases may be replaced for each piece of a document. -/
def aliasesPerPiece : Nat := 100

/-- A node as a document. -/
def Node.document (n : Node) : Document :=
  (expand n.anchored maxLevels n (aliasesPerPiece * n.size)).1

end Yaml

/-- The document that a YAML text begins with, and the tokens that follow it. -/
def Document.ofYaml (s : String) : Document × Option (List Yaml.Token) :=
  let cs := s.toList
  if cs.all Yaml.isAllowed then
    let (n, rest) := Yaml.documentNode (Yaml.tokens cs)
    (n.document, rest.map Yaml.Source.tokens)
  else (.broken .malformed, none)

/-- A YAML text read as a value of some kind. No other document may follow. -/
def readYaml {α : Type} (read : Document → Except ReadError α) (s : String) :
    Except ReadError α := do
  let (d, rest) := Document.ofYaml s
  let x ← read d
  match rest with
  | some tokens => if Yaml.isLastDocument tokens then return x else .error .malformed
  | none => .error .malformed

end Lightshow
