import MarkupQuery.Number.Decimal

/-!
# Shortest decimals

A double stands for all the reals that are nearer to it than to any other double. Among the
decimals in that interval the one with the fewest digits is chosen, and of those the nearest to
the double itself. All arithmetic is exact, on numerators over a common denominator.

## Main definitions

* `Rounding`: the interval of the reals that round to one double
* `Rounding.ofDouble`: the interval of `significand * 2 ^ exponent`
* `Rounding.shortest`: the shortest decimal in the interval
-/

namespace MarkupQuery

/-- The positive reals that round to one double, as numerators over the denominator `unit`. -/
structure Rounding where
  low : Nat
  value : Nat
  high : Nat
  /-- The common denominator. -/
  unit : Nat
  /-- Whether the two ends round to the double as well. -/
  closed : Bool

/-- The decimal `digits * 10 ^ exponent`. -/
structure Scientific where
  /-- The digits, read as one integer. -/
  digits : Nat
  /-- The power of ten that scales them. -/
  exponent : Int

namespace Rounding

/-- The interval of the double `significand * 2 ^ exponent`: half a step of the last place to
either side, and a quarter of one downwards where the steps below are half as wide. The ends
belong to it when the significand is even. -/
def ofDouble (significand : Nat) (exponent : Int) : Rounding :=
  let below := if significand = Nat.pow 2 52 ∧ -1074 < exponent then 1 else 2
  let scale := Nat.pow 2 (exponent - 2).toNat
  { low := (4 * significand - below) * scale
    value := 4 * significand * scale
    high := (4 * significand + 2) * scale
    unit := Nat.pow 2 (2 - exponent).toNat
    closed := significand % 2 == 0 }

/-- The interval measured in units of `10 ^ e`. -/
def measure (r : Rounding) (e : Int) : Rounding :=
  let scale := Nat.pow 10 (-e).toNat
  { r with
    low := r.low * scale
    value := r.value * scale
    high := r.high * scale
    unit := r.unit * Nat.pow 10 e.toNat }

/-- Whether the integer `x` lies in the interval. -/
def contains (r : Rounding) (x : Nat) : Bool :=
  if r.closed then r.low ≤ x * r.unit && x * r.unit ≤ r.high
  else r.low < x * r.unit && x * r.unit < r.high

/-- The integer of the interval next to the double; of two equally near, the even one. -/
def nearest? (r : Rounding) : Option Nat :=
  let below := r.value / r.unit
  let short := r.value - below * r.unit
  let excess := (below + 1) * r.unit - r.value
  match r.contains below, r.contains (below + 1) with
  | false, false => none
  | true, false => some below
  | false, true => some (below + 1)
  | true, true =>
    some (if short < excess then below
      else if excess < short then below + 1
      else if below % 2 = 0 then below else below + 1)

/-- How many times ten fits between `value` and `unit`: the least `j` with
`unit ≤ value * 10 ^ j`, for a positive `value`. -/
def tensBelow (value unit : Nat) : Nat :=
  if 0 < value ∧ value < unit then tensBelow (10 * value) unit + 1 else 0
termination_by unit - value

/-- The number of digits of the double before the decimal point; zero or less when the first
digit other than zero comes after it. -/
def point (r : Rounding) : Int :=
  if r.unit ≤ r.value then (Decimal.ofNat (r.value / r.unit)).length
  else 1 - tensBelow r.value r.unit

/-- The decimal of the interval with the given number of digits that is next to the double. -/
def withDigits? (r : Rounding) (count : Nat) : Option Scientific :=
  let exponent := r.point - count
  (r.measure exponent).nearest?.map (⟨·, exponent⟩)

/-- The shortest decimal of the interval, and of several the nearest to the double. Seventeen
digits always reach it. -/
def shortest (r : Rounding) : Scientific :=
  ((List.range' 1 17).findSome? r.withDigits?).getD ⟨0, 0⟩

end Rounding

end MarkupQuery
