import MarkupQuery.Number.Shortest
import MarkupQuery.Text.Utf16

/-!
# Numbers

A child index may be given as a number of any kind, of which only integers within a bound are
accepted. Any other is quoted in the refusal, in the fewest digits that tell it from its
neighbours: positionally while the decimal point stays near the digits, and with an exponent
otherwise.

## Main definitions

* `Number`: a double, taken apart
* `Number.ofFloat`: the number that a double holds
* `Number.index?`: the child index that a number is, if it is one
* `Number.toText`: the text of a number
-/

namespace MarkupQuery

/-- A double taken apart. -/
inductive Number where
  | nan
  | infinite (negative : Bool)
  /-- The number `significand * 2 ^ exponent`, or its negative. -/
  | finite (negative : Bool) (significand : Nat) (exponent : Int)
  deriving DecidableEq, Repr

namespace Number

/-- The number that an integer is. -/
def ofInt (n : Int) : Number := .finite (decide (n < 0)) n.natAbs 0

/-- The number that a double holds. Its 64 bits are a sign, eleven bits of exponent and 52 of
significand; the least exponent marks numbers without the leading one, and the greatest what is
not finite. -/
def ofFloat (x : Float) : Number :=
  let bits := x.toBits.toNat
  let negative := decide (Nat.pow 2 63 ≤ bits)
  let exponent : Nat := bits / Nat.pow 2 52 % Nat.pow 2 11
  let fraction : Nat := bits % Nat.pow 2 52
  if exponent = 0x7FF then
    if fraction = 0 then .infinite negative else .nan
  else if exponent = 0 then .finite negative fraction (-1074)
  else .finite negative (Nat.pow 2 52 + fraction) ((exponent : Int) - 1075)

/-- The integer that a number is; none when it has a fraction or is not finite. Both zeros are the
integer zero. -/
def integer? : Number → Option Int
  | .finite negative significand exponent =>
    let divisor := Nat.pow 2 (-exponent).toNat
    if significand % divisor = 0 then
      let magnitude := significand / divisor * Nat.pow 2 exponent.toNat
      some (if negative then -(magnitude : Int) else magnitude)
    else none
  | _ => none

/-- The child index that a number is. -/
def index? (x : Number) : Option Int := x.integer?.filter Decimal.isIndex

/-! ## The text of a number -/

/-- A run of zeros. -/
def zeros (n : Int) : Text := List.replicate n.toNat CodeUnit.zero

/-- Up to this many digits before the decimal point are written positionally. -/
def pointLimit : Int := 21

/-- Fewer than this many zeros after the decimal point are written out. -/
def zeroLimit : Int := 6

/-- The text of the digits with the decimal point after the first `point` of them. A point
beyond the limits on either side is written as a power of ten after the first digit. -/
def positional (digits : Text) (point : Int) : Text :=
  if digits.length ≤ point ∧ point ≤ pointLimit then digits ++ zeros (point - digits.length)
  else if 0 < point ∧ point ≤ pointLimit then
    digits.take point.toNat ++ "." ++ digits.drop point.toNat
  else if -zeroLimit < point ∧ point ≤ 0 then "0." ++ zeros (-point) ++ digits
  else
    let exponent := point - 1
    let fraction : Text := if digits.length ≤ 1 then "" else "." ++ digits.drop 1
    digits.take 1 ++ fraction ++ (if exponent < 0 then "e-" else "e+") ++
      Decimal.ofNat exponent.natAbs

/-- The text of a decimal: its digits without the zeros at their end, and the point where the
exponent puts it. -/
def scientific (d : Scientific) : Text :=
  let digits := Decimal.ofNat d.digits
  let kept := (digits.reverse.dropWhile (· == CodeUnit.zero)).reverse
  positional kept (digits.length + d.exponent)

/-- The text of a number: the shortest decimal that is read as the number itself. -/
def toText : Number → Text
  | .nan => "NaN"
  | .infinite negative => if negative then "-Infinity" else "Infinity"
  | .finite negative significand exponent =>
    if significand = 0 then "0"
    else
      (if negative then "-" else "") ++
        scientific (Rounding.ofDouble significand exponent).shortest

end Number

end MarkupQuery
