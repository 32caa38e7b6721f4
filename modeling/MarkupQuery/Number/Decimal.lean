import MarkupQuery.Text.Basic

/-!
# Decimal integers

Integers are written in decimal without leading zeros, and read from any run of digits after an
optional minus sign. Reading is exact however long the run is; a child index must in addition keep
within the bound up to which a double tells every integer from its neighbours.

## Main definitions

* `Decimal.ofNat`, `Decimal.ofInt`: the digits that write a number
* `Decimal.value`: the number that a run of digits writes in a base
* `Decimal.readInt?`: the integer that a text writes
* `Decimal.readIndex?`: the child index that a text writes

## Main results

* `Decimal.value_append`: what one more digit adds to a number
-/

namespace MarkupQuery

namespace Decimal

/-! ## Writing -/

/-- The decimal digits of a natural number, without leading zeros. -/
def ofNat (n : Nat) : Text :=
  if n < 10 then [CodeUnit.ofDigit n]
  else ofNat (n / 10) ++ [CodeUnit.ofDigit (n % 10)]

/-- The decimal digits of an integer, after a minus sign when it is negative. -/
def ofInt (n : Int) : Text :=
  if n < 0 then CodeUnit.minus :: ofNat n.natAbs else ofNat n.natAbs

/-! ## Reading -/

/-- The number that a run of digits writes in the given base. -/
def value (base : Nat) (digits : Text) : Nat :=
  digits.foldl (fun n c => base * n + c.digitValue) 0

/-- The natural number that a non-empty run of digits writes. -/
def readNat? (t : Text) : Option Nat :=
  if t.isRunOf CodeUnit.isDigit then some (value 10 t) else none

/-- The integer that a run of digits writes, after an optional minus sign. -/
def readInt? : Text → Option Int
  | [] => none
  | c :: rest =>
    if c == CodeUnit.minus then (readNat? rest).map fun n => -(n : Int)
    else (readNat? (c :: rest)).map Int.ofNat

/-- The largest magnitude of a child index. -/
def indexBound : Nat := Nat.pow 2 53 - 1

/-- Whether an integer is a child index. -/
def isIndex (n : Int) : Bool := n.natAbs ≤ indexBound

/-- The child index that a text writes. -/
def readIndex? (t : Text) : Option Int :=
  (readInt? t).filter isIndex

/-! ## Laws -/

theorem value_append (base : Nat) (s : Text) (c : CodeUnit) :
    value base (s ++ [c]) = base * value base s + c.digitValue := by
  simp [value]

theorem digitValue_ofDigit {d : Nat} (h : d < 10) : (CodeUnit.ofDigit d).digitValue = d := by
  have : ∀ d : Fin 10, (CodeUnit.ofDigit d).digitValue = d := by decide
  exact this ⟨d, h⟩

theorem isDigit_ofDigit {d : Nat} (h : d < 10) : (CodeUnit.ofDigit d).isDigit = true := by
  have : ∀ d : Fin 10, (CodeUnit.ofDigit d).isDigit = true := by decide
  exact this ⟨d, h⟩

end Decimal

end MarkupQuery
