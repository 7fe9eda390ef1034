/-!
# Blank characters

The characters of the Unicode property White_Space, and the removal of blanks at
the two ends of a text. Names, references, numbers and addresses are all read
after their outer blanks are dropped, so the set is fixed once, here.

* `isBlank` — the property, by code point.
* `trim` — a text without its outer blanks; `trimmed` is the same on `String`.
* `splitBlank` — a text cut at its first blank.
-/

namespace Lightshow.Text

/-- Unicode White_Space. Beyond ASCII these are the next-line control, the
no-break space and the spaces and separators of the punctuation blocks. -/
def isBlank (c : Char) : Bool :=
  let n := c.toNat
  (9 ≤ n && n ≤ 13) || n == 0x20 || n == 0x85 || n == 0xA0 || n == 0x1680
    || (0x2000 ≤ n && n ≤ 0x200A) || n == 0x2028 || n == 0x2029 || n == 0x202F
    || n == 0x205F || n == 0x3000

/-- A text without the blanks it starts with. -/
def trimStart (s : List Char) : List Char := s.dropWhile isBlank

/-- A text without the blanks it ends with. -/
def trimEnd (s : List Char) : List Char := (s.reverse.dropWhile isBlank).reverse

/-- A text without its outer blanks. -/
def trim (s : List Char) : List Char := trimEnd (trimStart s)

/-- `trim` on strings. -/
def trimmed (s : String) : String := String.ofList (trim s.toList)

/-- What stands before the first blank and what stands after it, if there is a blank. -/
def splitBlank (s : List Char) : Option (List Char × List Char) :=
  match s.dropWhile (fun c => !isBlank c) with
  | [] => none
  | _ :: rest => some (s.takeWhile (fun c => !isBlank c), rest)

/-- What stands before the first `sep` and what stands after it, if there is one. -/
def splitFirst (sep : Char) (s : List Char) : Option (List Char × List Char) :=
  match s.dropWhile (· != sep) with
  | [] => none
  | _ :: rest => some (s.takeWhile (· != sep), rest)

/-- The rest of a text that begins with `head`. -/
def after? (head : List Char) (s : List Char) : Option (List Char) :=
  if head.isPrefixOf s then some (s.drop head.length) else none

end Lightshow.Text
