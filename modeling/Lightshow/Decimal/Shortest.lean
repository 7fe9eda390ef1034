/-!
# The shortest decimal of a float

A finite float is `m * 2 ^ e`. Every real number nearer to it than to any other
float reads back as it, and the two halfway points do so when `m` is even. Among
the decimals in that interval the ones with the fewest digits are the shortest,
and of those the nearest to the float is taken.

For a given number of digits the decimals form a grid, and if the interval meets
the grid at all then it contains one of the two grid points next to the float. So
trying one digit, two digits, and so on up to seventeen always ends, and ends at
the shortest decimal. All arithmetic is on natural numbers.

## Main definitions

* `Scaled` — a float's magnitude and the ends of its interval over one denominator.
* `shortest` — the digits and the power of ten.
* `plainText` — the shortest decimal written without an exponent.
-/

namespace Lightshow.Decimal

open Float.Model (UnpackedFloat)

/-! ### The interval of a float -/

/-- A positive float and the ends of the interval that reads back as it, all
three as numerators over `den`. -/
structure Scaled where
  value : Nat
  low : Nat
  high : Nat
  den : Nat
  /-- The ends themselves read back as the float. -/
  closed : Bool

/-- The interval of `m * 2 ^ e`. The unit is a quarter of the last place, because
below a power of two the next float is only half as far away. -/
def Scaled.ofParts (m : Nat) (e : Int) : Scaled :=
  let gap := if m = 1 <<< 52 ∧ -1074 < e then 1 else 2
  let up := 1 <<< (e - 2).toNat
  { value := 4 * m * up
    low := (4 * m - gap) * up
    high := (4 * m + 2) * up
    den := 1 <<< (2 - e).toNat
    closed := m % 2 = 0 }

/-- The power `10 ^ n`. -/
def tenPow (n : Nat) : Nat := Nat.pow 10 n

/-- Whether `n * 10 ^ p` lies in the interval. -/
def Scaled.contains (s : Scaled) (n : Nat) (p : Int) : Bool :=
  let x := n * tenPow p.toNat * s.den
  let shift := tenPow (-p).toNat
  if s.closed then s.low * shift ≤ x && x ≤ s.high * shift
  else s.low * shift < x && x < s.high * shift

/-! ### Trying grids -/

/-- The number of decimal digits of a positive number. -/
def digitCount (n : Nat) : Nat := (Nat.toDigits 10 n).length

/-- How many zeros follow the point of `num / den < 1` before its first digit. -/
def leadingZeros (num den : Nat) : Nat → Nat
  | 0 => 0
  | fuel + 1 => if den ≤ 10 * num then 0 else leadingZeros (10 * num) den fuel + 1

/-- The place of the leading digit: `10 ^ (k - 1) ≤ value < 10 ^ k`. -/
def Scaled.magnitude (s : Scaled) : Int :=
  if s.den ≤ s.value then digitCount (s.value / s.den)
  else -(leadingZeros s.value s.den 400 : Int)

/-- The better of the two points of the grid `10 ^ p` next to the float, if one of
them lies in the interval. A float halfway between the two takes the upper one. -/
def Scaled.onGrid (s : Scaled) (p : Int) : Option Nat :=
  let num := s.value * tenPow (-p).toNat
  let den := s.den * tenPow p.toNat
  let below := num / den
  let rest := num % den
  match s.contains below p, s.contains (below + 1) p with
  | true, true => if 2 * rest < den then some below else some (below + 1)
  | true, false => some below
  | false, true => some (below + 1)
  | false, false => none

/-- The first grid with a hit, starting at `digits` digits. -/
def Scaled.search (s : Scaled) (top : Int) (digits : Nat) : Nat → Nat × Int
  | 0 => ((s.onGrid (top - digits)).getD 0, top - digits)
  | fuel + 1 =>
    match s.onGrid (top - digits) with
    | some n => (n, top - digits)
    | none => s.search top (digits + 1) fuel

/-- A positive number without its trailing zeros, which move to the power of ten. -/
def dropZeros (n : Nat) (p : Int) : Nat × Int :=
  if h : n ≠ 0 ∧ n % 10 = 0 then dropZeros (n / 10) (p + 1) else (n, p)
termination_by n
decreasing_by omega

/-- The shortest decimal `n * 10 ^ p` that reads back as `m * 2 ^ e`. -/
def shortest (m : Nat) (e : Int) : Nat × Int :=
  let s := Scaled.ofParts m e
  let (n, p) := s.search s.magnitude 1 16
  dropZeros n p

/-! ### Writing it down -/

/-- The digits of `n * 10 ^ p` with a point where one is needed. -/
def positional (n : Nat) (p : Int) : List Char :=
  let ds := Nat.toDigits 10 n
  if 0 ≤ p then ds ++ List.replicate p.toNat '0'
  else
    let places := (-p).toNat
    if places < ds.length then
      ds.take (ds.length - places) ++ '.' :: ds.drop (ds.length - places)
    else
      '0' :: '.' :: List.replicate (places - ds.length) '0' ++ ds

/-- How a float is written inside a message: its shortest decimal, never with an
exponent and never with a point that nothing follows. -/
def plainText (x : Float) : String :=
  match x.toModel.unpack with
  | .notANumber => "NaN"
  | .infinity .positive => "inf"
  | .infinity .negative => "-inf"
  | .zero .positive => "0"
  | .zero .negative => "-0"
  | .finite s m e _ =>
    let (n, p) := shortest m e
    let text := positional n p
    String.ofList (match s with
      | .negative => '-' :: text
      | .positive => text)

end Lightshow.Decimal
