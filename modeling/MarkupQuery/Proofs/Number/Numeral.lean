import Mathlib.Algebra.Group.Nat.Defs
import MarkupQuery.Number.Decimal
import MarkupQuery.Proofs.Text.Alphabet

/-!
# Decimal numerals

A numeral is a digit, or a numeral with one more digit behind it, and the number it denotes is
worth ten times what stands before its last digit, plus that digit. This says what reading is to
give without reading anything; leading zeros are allowed, and minus zero is zero.

## Main definitions

* `Decimal.Numeral`: a run of digits and the natural number that it denotes
* `Decimal.SignedNumeral`: a numeral with an optional minus sign and the integer that it denotes

## Main results

* `Decimal.readInt?_eq_some_iff`: exactly the signed numerals are read, each as what it denotes
* `Decimal.readIndex?_eq_some_iff`: of these, the ones within the bound are child indices
* `Decimal.signedNumeral_ofInt`: an integer is written as a numeral that denotes it
-/

namespace MarkupQuery

namespace Decimal

/-- A run of digits and the natural number that it denotes. -/
inductive Numeral : Text → Nat → Prop
  /-- A digit denotes its place among the digits. -/
  | digit {c : CodeUnit} (hc : c ∈ CodeUnit.digits) : Numeral [c] (CodeUnit.digits.idxOf c)
  /-- One more digit multiplies by ten and adds the digit. -/
  | snoc {t : Text} {n : Nat} {c : CodeUnit} (ht : Numeral t n) (hc : c ∈ CodeUnit.digits) :
      Numeral (t ++ [c]) (10 * n + CodeUnit.digits.idxOf c)

/-- A numeral with an optional minus sign, and the integer that it denotes. -/
inductive SignedNumeral : Text → Int → Prop
  | plain {t : Text} {n : Nat} (ht : Numeral t n) : SignedNumeral t n
  | negated {t : Text} {n : Nat} (ht : Numeral t n) :
      SignedNumeral ('-' :: t) (-(n : Int))

/-! ## Digits -/

/-- A digit has the value that it denotes. -/
theorem digitValue_eq_idxOf {c : CodeUnit} (h : c ∈ CodeUnit.digits) :
    c.digitValue = CodeUnit.digits.idxOf c := by
  have hall : CodeUnit.digits.map CodeUnit.digitValue =
      CodeUnit.digits.map CodeUnit.digits.idxOf := by decide
  exact List.map_inj_left.mp hall c h

/-- The digit that writes a number is the one at its place. -/
theorem idxOf_ofDigit {d : Nat} (h : d < 10) :
    CodeUnit.ofDigit d ∈ CodeUnit.digits ∧ CodeUnit.digits.idxOf (CodeUnit.ofDigit d) = d := by
  have hmem := CodeUnit.isDigit_iff.mp (isDigit_ofDigit h)
  exact ⟨hmem, (digitValue_eq_idxOf hmem).symm.trans (digitValue_ofDigit h)⟩

/-! ## Natural numbers -/

namespace Numeral

variable {t : Text} {n : Nat}

theorem ne_nil (h : Numeral t n) : t ≠ [] := by
  cases h <;> simp

theorem all_isDigit (h : Numeral t n) : t.all CodeUnit.isDigit = true := by
  induction h with
  | digit hc => simp [CodeUnit.isDigit_iff.mpr hc]
  | snoc _ hc ih => simp [ih, CodeUnit.isDigit_iff.mpr hc]

theorem value_eq (h : Numeral t n) : value 10 t = n := by
  induction h with
  | digit hc => simp [value, digitValue_eq_idxOf hc]
  | snoc _ hc ih => rw [value_append, ih, digitValue_eq_idxOf hc]

end Numeral

/-- A non-empty run of digits denotes its value. -/
theorem numeral_value {t : Text} (hne : t ≠ []) (hall : t.all CodeUnit.isDigit = true) :
    Numeral t (value 10 t) := by
  -- Digits are taken off the end, where the place value is one.
  induction ht : t.length generalizing t with
  | zero => exact absurd (List.length_eq_zero_iff.mp ht) hne
  | succ k ih =>
    obtain ⟨s, c, rfl⟩ : ∃ s c, t = s ++ [c] :=
      ⟨t.dropLast, t.getLast hne, (List.dropLast_concat_getLast hne).symm⟩
    simp only [List.all_append, List.all_cons, List.all_nil, Bool.and_true,
      Bool.and_eq_true] at hall
    obtain ⟨hs, hc⟩ := hall
    rw [CodeUnit.isDigit_iff] at hc
    rw [value_append, digitValue_eq_idxOf hc]
    by_cases hsne : s = []
    · subst hsne
      have hvalue : 10 * value 10 [] + CodeUnit.digits.idxOf c = CodeUnit.digits.idxOf c :=
        Nat.zero_add _
      rw [hvalue]
      exact .digit hc
    · exact .snoc (ih hsne hs (by simpa using ht)) hc

/-- Exactly the numerals are read, each as what it denotes. -/
theorem readNat?_eq_some_iff {t : Text} {n : Nat} : readNat? t = some n ↔ Numeral t n := by
  simp only [readNat?, Text.isRunOf, Option.ite_none_right_eq_some, Option.some.injEq,
    Bool.and_eq_true, Bool.not_eq_true', List.isEmpty_eq_false_iff]
  constructor
  · rintro ⟨⟨hne, hall⟩, rfl⟩
    exact numeral_value hne hall
  · intro h
    exact ⟨⟨h.ne_nil, h.all_isDigit⟩, h.value_eq⟩

/-- A natural number is written as a numeral that denotes it. -/
theorem numeral_ofNat (n : Nat) : Numeral (ofNat n) n := by
  induction n using Nat.strongRecOn with
  | ind n ih =>
    rw [ofNat]
    split
    · next h =>
      obtain ⟨hmem, hplace⟩ := idxOf_ofDigit h
      have hdigit := Numeral.digit hmem
      rwa [hplace] at hdigit
    · next h =>
      obtain ⟨hmem, hplace⟩ := idxOf_ofDigit (Nat.mod_lt n (show 0 < 10 by decide))
      have hlast := Numeral.snoc (ih (n / 10) (by omega)) hmem
      rwa [hplace, Nat.div_add_mod] at hlast

/-! ## Integers -/

/-- A numeral does not begin with a minus sign. -/
theorem Numeral.head_ne_minus {c : CodeUnit} {t : Text} {n : Nat} (h : Numeral (c :: t) n) :
    c ≠ CodeUnit.minus := by
  rintro rfl
  have := List.all_eq_true.mp h.all_isDigit _ List.mem_cons_self
  exact absurd this (by decide)

theorem readInt?_minus (t : Text) :
    readInt? (CodeUnit.minus :: t) = (readNat? t).map fun n : Nat => -(n : Int) := by
  cases h : readNat? t <;> simp [readInt?, h]

/-- Exactly the signed numerals are read, each as what it denotes. -/
theorem readInt?_eq_some_iff {t : Text} {n : Int} : readInt? t = some n ↔ SignedNumeral t n := by
  cases t with
  | nil =>
    refine ⟨fun h => by simp [readInt?] at h, fun h => ?_⟩
    cases h with
    | plain h => exact absurd rfl h.ne_nil
  | cons c t =>
    by_cases hc : c = CodeUnit.minus
    · subst hc
      rw [readInt?_minus, Option.map_eq_some_iff]
      constructor
      · rintro ⟨m, hm, rfl⟩
        exact .negated (readNat?_eq_some_iff.mp hm)
      · intro h
        cases h with
        | plain h => exact absurd rfl h.head_ne_minus
        | negated h => exact ⟨_, readNat?_eq_some_iff.mpr h, rfl⟩
    · simp only [readInt?, beq_iff_eq, hc, if_false, Option.map_eq_some_iff]
      constructor
      · rintro ⟨m, hm, rfl⟩
        exact .plain (readNat?_eq_some_iff.mp hm)
      · intro h
        cases h with
        | plain h => exact ⟨_, readNat?_eq_some_iff.mpr h, rfl⟩
        | negated h => exact absurd rfl hc

/-- Of the signed numerals, those within the bound are child indices. -/
theorem readIndex?_eq_some_iff {t : Text} {n : Int} :
    readIndex? t = some n ↔ SignedNumeral t n ∧ n.natAbs ≤ 2 ^ 53 - 1 := by
  rw [readIndex?, Option.filter_eq_some_iff, readInt?_eq_some_iff, isIndex, decide_eq_true_iff]
  rfl

/-- An integer is written as a numeral that denotes it. -/
theorem signedNumeral_ofInt (n : Int) : SignedNumeral (ofInt n) n := by
  rw [ofInt]
  split
  · next h =>
    have := SignedNumeral.negated (numeral_ofNat n.natAbs)
    rwa [show -(n.natAbs : Int) = n by omega] at this
  · next h =>
    have := SignedNumeral.plain (numeral_ofNat n.natAbs)
    rwa [show (n.natAbs : Int) = n by omega] at this

end Decimal

end MarkupQuery
