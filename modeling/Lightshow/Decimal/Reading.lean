import Lightshow.Decimal.Shortest
import Lightshow.Text.Numeral

/-!
# Decimal fractions as floats

A decimal fraction is a sign, a whole number and a power of ten, and denotes the
float nearest to it, an even mantissa deciding ties. Exponents beyond the reach
of floats give infinity or zero at once, however long their numerals are.

* `Fraction` — what a decimal text denotes exactly.
* `Fraction.toFloat` — the float it is read as.
* `fraction?` — decimal texts with an optional point and an optional exponent.
-/

namespace Lightshow.Decimal

open Lightshow.Text

/-- The number `± digits * 10 ^ power`. -/
structure Fraction where
  negative : Bool
  digits : Nat
  power : Int
  deriving DecidableEq, Repr

/-- The magnitude of the nearest float. Past `10 ^ 400` every number is infinite
and below `10 ^ -400` every number is zero. -/
def magnitude (digits : Nat) (power : Int) : Float :=
  if digits = 0 then Float.ofScientific 0 false 0
  else
    let top := digitCount digits + power
    if 400 < top then Float.ofScientific 1 false 400
    else if top < -400 then Float.ofScientific 0 false 0
    else Float.ofScientific digits (decide (power < 0)) power.natAbs

/-- The nearest float, with the sign of the text even on zero. -/
def Fraction.toFloat (f : Fraction) : Float :=
  if f.negative then -(magnitude f.digits f.power) else magnitude f.digits f.power

/-- The digits a text begins with, and the rest. -/
def takeDigits (s : List Char) : List Char × List Char :=
  (s.takeWhile Char.isDigit, s.dropWhile Char.isDigit)

/-- An exponent mark, a sign and digits, up to the end of the text; nothing at all is
the exponent zero. -/
def exponent? : List Char → Option Int
  | [] => some 0
  | c :: s => if c = 'e' ∨ c = 'E' then signed? s else none

/-- An unsigned decimal text: digits on at least one side of an optional point, then
an optional exponent. -/
def unsignedFraction? (negative : Bool) (s : List Char) : Option Fraction :=
  let (whole, rest) := takeDigits s
  let (part, rest) :=
    match rest with
    | '.' :: r => takeDigits r
    | r => ([], r)
  if whole.isEmpty && part.isEmpty then none
  else do
    let digits ← digits? (whole ++ part)
    let exponent ← exponent? rest
    return ⟨negative, ofDigits 10 digits, exponent - part.length⟩

/-- A decimal text that either sign may precede. -/
def fraction? : List Char → Option Fraction
  | '-' :: s => unsignedFraction? true s
  | '+' :: s => unsignedFraction? false s
  | s => unsignedFraction? false s

end Lightshow.Decimal
