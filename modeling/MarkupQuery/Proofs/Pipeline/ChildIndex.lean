import MarkupQuery.Pipeline.Format
import MarkupQuery.Proofs.Number.Double
import MarkupQuery.Proofs.Text.Alphabet

/-!
# Child indices

A child index is written in a query as a numeral, and in a stage it is an integer within a bound. A
numeral may be of any length, with any number of zeros at its front; it is an index when the integer
that it denotes is one, and no other numeral is taken for a nearby index. What is written for a
stage is such a numeral, and stays one when zeros are put between its sign and its digits.

## Main results

* `Decimal.Numeral.zeros`: zeros at the front of a numeral
* `Decimal.exists_ofInt_eq`: the sign and the digits of the decimal of an integer
* `Decimal.readIndex_iff_signedNumeral`: what is read as a child index, and how one is written
-/

namespace MarkupQuery

namespace Decimal

open CodeUnit

variable {t : Text}

/-- A zero in front of a numeral does not change what it denotes. -/
theorem Numeral.zero_cons {m : Nat} (h : Numeral t m) : Numeral (zero :: t) m := by
  have hvalue : value 10 (zero :: t) = m := h.value_eq
  rw [← hvalue]
  refine numeral_value (List.cons_ne_nil _ _) ?_
  rw [List.all_cons, h.all_isDigit]
  rfl

/-- Neither do several zeros. -/
theorem Numeral.zeros {m : Nat} (h : Numeral t m) (count : Nat) :
    Numeral (List.replicate count zero ++ t) m := by
  induction count with
  | zero => exact h
  | succ count ih => exact ih.zero_cons

/-- The decimal of an integer is a sign, which may be missing, and digits. With zeros between the
two it still denotes the integer. -/
theorem exists_ofInt_eq (n : Int) : ∃ sign digits : Text, (sign = [] ∨ sign = "-") ∧
    digits.IsMadeOf CodeUnit.digits ∧ ofInt n = sign ++ digits ∧
      ∀ count, SignedNumeral (sign ++ List.replicate count ('0' : CodeUnit) ++ digits) n := by
  have hdigits := numeral_ofNat n.natAbs
  have hrun : (ofNat n.natAbs).IsMadeOf CodeUnit.digits :=
    ⟨hdigits.ne_nil, fun _ hc => isDigit_iff.mp (List.all_eq_true.mp hdigits.all_isDigit _ hc)⟩
  by_cases hn : n < 0
  · refine ⟨[minus], ofNat n.natAbs, Or.inr rfl, hrun, if_pos hn, fun count => ?_⟩
    have := SignedNumeral.negated (hdigits.zeros count)
    rwa [show -(n.natAbs : Int) = n by omega] at this
  · refine ⟨[], ofNat n.natAbs, Or.inl rfl, hrun, if_neg hn, fun count => ?_⟩
    have := SignedNumeral.plain (hdigits.zeros count)
    rwa [show (n.natAbs : Int) = n by omega] at this

/-- **Exactly the numerals within the bound are child indices**, each as the integer that it
denotes, with as many digits as there may be; from any other text no index is read. Rounding the
numeral to a double first gives the same. The index of a stage is written as a sign, which may be
missing, and digits, and is read back with any number of zeros between the two. -/
theorem readIndex_iff_signedNumeral (t : Text) :
    (∀ n, readIndex? t = some n ↔ SignedNumeral t n ∧ n.natAbs ≤ 2 ^ 53 - 1) ∧
      (readIndex? t = none ↔ ∀ n, SignedNumeral t n → 2 ^ 53 - 1 < n.natAbs) ∧
      (Number.read? t).bind Number.index? = readIndex? t ∧
      ∀ n : Int, n.natAbs ≤ 2 ^ 53 - 1 → ∃ sign digits : Text, (sign = [] ∨ sign = "-") ∧
        digits.IsMadeOf CodeUnit.digits ∧
        (Stage.select (.child n)).toText = "@child(" ++ sign ++ digits ++ ")" ∧
        ∀ count, readIndex? (sign ++ List.replicate count ('0' : CodeUnit) ++ digits) = some n := by
  refine ⟨fun n => readIndex?_eq_some_iff, ?_, Number.bind_index?_read? t, fun n hn => ?_⟩
  · rw [Option.eq_none_iff_forall_ne_some]
    refine forall_congr' fun n => ?_
    rw [ne_eq, readIndex?_eq_some_iff, not_and, not_le]
  · obtain ⟨sign, digits, hsign, hrun, htext, hread⟩ := exists_ofInt_eq n
    refine ⟨sign, digits, hsign, hrun, ?_, fun count => ?_⟩
    · have hname : Operator.child.name ++ "(" = ("@child(" : Text) := by decide
      rw [Stage.toText, Selection.toText, Operator.applied, hname, htext]
      simp
    · exact readIndex?_eq_some_iff.mpr ⟨hread count, hn⟩

end Decimal

end MarkupQuery
