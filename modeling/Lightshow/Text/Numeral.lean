/-!
# Decimal numerals

Reading whole numbers written in ASCII digits. A numeral has at least one digit
and any number of leading zeros; it is read as an unbounded number, and a reader
that has only so many bits compares the value afterwards. So a numeral of any
length is either read exactly or refused, and never wraps.

* `digitValue?`, `digits?`, `natural?` — digits and unsigned numerals.
* `unsigned?` — an unsigned numeral that may have a plus sign.
* `signed?` — a numeral that may have either sign.
* `radix?` — a numeral in a base up to sixteen.
* `word?`, `fitsSigned`, `integer?` — numbers of so many bits.
-/

namespace Lightshow.Text

/-- The value of an ASCII decimal digit. -/
def digitValue? (c : Char) : Option Nat :=
  if '0' ≤ c ∧ c ≤ '9' then some (c.toNat - '0'.toNat) else none

/-- The value of an ASCII digit in a base up to sixteen; letters count in either case. -/
def digitIn? (base : Nat) (c : Char) : Option Nat :=
  let value :=
    if '0' ≤ c ∧ c ≤ '9' then some (c.toNat - '0'.toNat)
    else if 'a' ≤ c ∧ c ≤ 'f' then some (c.toNat - 'a'.toNat + 10)
    else if 'A' ≤ c ∧ c ≤ 'F' then some (c.toNat - 'A'.toNat + 10)
    else none
  value.filter (· < base)

/-- The number that a list of digits stands for in a base, the leading digit first. -/
def ofDigits (base : Nat) (ds : List Nat) : Nat :=
  ds.foldl (fun n d => base * n + d) 0

/-- The values of digits, if the text holds nothing else. -/
def digits? (s : List Char) : Option (List Nat) := s.mapM digitValue?

/-- An unsigned decimal numeral: one digit or more, and nothing else. -/
def natural? (s : List Char) : Option Nat :=
  if s.isEmpty then none else (digits? s).map (ofDigits 10)

/-- An unsigned decimal numeral that a plus sign may precede. -/
def unsigned? : List Char → Option Nat
  | '+' :: s => natural? s
  | s => natural? s

/-- A decimal numeral that a plus or a minus sign may precede. -/
def signed? : List Char → Option Int
  | '-' :: s => (natural? s).map fun n => -(n : Int)
  | s => (unsigned? s).map Int.ofNat

/-- An unsigned numeral in a base up to sixteen: one digit or more, and nothing else. -/
def radix? (base : Nat) (s : List Char) : Option Nat :=
  if s.isEmpty then none else (s.mapM (digitIn? base)).map (ofDigits base)

/-- A decimal numeral below `2 ^ bits` that a plus sign may precede. -/
def word? (bits : Nat) (s : List Char) : Option Nat :=
  (unsigned? s).filter (· < 1 <<< bits)

/-- Whether a whole number is at least `-2 ^ (bits - 1)` and below `2 ^ (bits - 1)`. -/
def fitsSigned (bits : Nat) : Int → Bool
  | .ofNat n => n < 1 <<< (bits - 1)
  | .negSucc n => n < 1 <<< (bits - 1)

/-- A decimal numeral of a signed number of so many bits, which either sign may precede. -/
def integer? (bits : Nat) (s : List Char) : Option Int := (signed? s).filter (fitsSigned bits)

end Lightshow.Text
