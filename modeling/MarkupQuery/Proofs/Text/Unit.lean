import MarkupQuery.Text.Basic

/-!
# Units of names

The units of names are letters, digits and a few marks, and lie between the ASCII blanks and all
other blanks. Most of what is said of them here tells them from the units that end a name.

## Main definitions

* `Text.IsLowerCase`: a text has no letter from `A` to `Z`

## Main results

* `CodeUnit.isWhitespace_of_isAttributeUnit`: the units of names are no blanks
* `CodeUnit.lower_of_class`: a class that has the letters `a` to `z` is kept by lower case
* `Text.lower_of_isLowerCase`: a text without letters from `A` to `Z` is its own lower case
* `Text.isLowerCase_lower`: lower case has no letters from `A` to `Z`
-/

namespace MarkupQuery

namespace CodeUnit

variable {c d : CodeUnit}

/-- Units of which only one is in a class are different. -/
theorem ne_of_class {p : CodeUnit → Bool} (hc : p c = true) (hd : p d = false) : c ≠ d := by
  rintro rfl
  rw [hc] at hd
  contradiction

theorem isAttributeUnit_of_isNameUnit (h : c.isNameUnit = true) : c.isAttributeUnit = true := by
  rw [isAttributeUnit, h]
  rfl

theorem isNameUnit_of_isAlpha (h : c.isAlpha = true) : c.isNameUnit = true := by
  rw [isNameUnit, isFieldUnit, isTagUnit, h]
  rfl

theorem isWhitespace_of_isLayout (h : c.isLayout = true) : c.isWhitespace = true := by
  simp only [isLayout, Bool.or_eq_true, beq_iff_eq] at h
  rcases h with ((rfl | rfl) | rfl) | rfl <;> decide

/-- The blanks lie below `!` or beyond ASCII. -/
theorem toNat_of_isWhitespace (h : c.isWhitespace = true) : c.toNat ≤ 0x20 ∨ 0xA0 ≤ c.toNat := by
  simp [isWhitespace, space, noBreakSpace, UInt16.le_iff_toNat_le, ← UInt16.toNat_inj] at h
  omega

/-- The units of names lie between `-` and `z`. -/
theorem toNat_of_isAttributeUnit (h : c.isAttributeUnit = true) :
    0x2D ≤ c.toNat ∧ c.toNat ≤ 0x7A := by
  simp [isAttributeUnit, isNameUnit, isFieldUnit, isTagUnit, isAlpha, isUpper, isLower, isDigit,
    underscore, minus, colon, atSign, dot, UInt16.le_iff_toNat_le, ← UInt16.toNat_inj] at h
  omega

theorem isWhitespace_of_isAttributeUnit (h : c.isAttributeUnit = true) :
    c.isWhitespace = false := by
  cases hblank : c.isWhitespace with
  | false => rfl
  | true =>
    have hname := toNat_of_isAttributeUnit h
    have := toNat_of_isWhitespace hblank
    omega

theorem isWhitespace_of_isNameUnit (h : c.isNameUnit = true) : c.isWhitespace = false :=
  isWhitespace_of_isAttributeUnit (isAttributeUnit_of_isNameUnit h)

/-- No blank is a unit of names. -/
theorem isAttributeUnit_of_isWhitespace (h : c.isWhitespace = true) :
    c.isAttributeUnit = false := by
  rw [Bool.eq_false_iff]
  intro hname
  rw [isWhitespace_of_isAttributeUnit hname] at h
  contradiction

theorem isNameUnit_of_isAttributeUnit_eq_false (h : c.isAttributeUnit = false) :
    c.isNameUnit = false := by
  rw [isAttributeUnit, Bool.or_eq_false_iff, Bool.or_eq_false_iff] at h
  exact h.1.1

/-! ## Lower case -/

theorem isAlpha_of_isLower (h : c.isLower = true) : c.isAlpha = true := by
  rw [isAlpha, h, Bool.or_true]

/-- The lower case of a letter from `A` to `Z` is one from `a` to `z`. -/
theorem isLower_lower (h : c.isUpper = true) : c.lower.isLower = true := by
  rw [lower, if_pos h]
  simp only [isUpper, isLower, Bool.and_eq_true, decide_eq_true_eq, UInt16.le_iff_toNat_le,
    UInt16.toNat_add, UInt16.reduceToNat] at h ⊢
  omega

theorem isUpper_lower (c : CodeUnit) : c.lower.isUpper = false := by
  cases h : c.isUpper with
  | false => rw [lower, h, if_neg Bool.false_ne_true, h]
  | true =>
    have hlower := isLower_lower h
    simp only [isLower, isUpper, Bool.and_eq_true, Bool.and_eq_false_iff, decide_eq_true_eq,
      decide_eq_false_iff_not, UInt16.le_iff_toNat_le, UInt16.reduceToNat] at hlower ⊢
    omega

/-- A class that has the letters `a` to `z` has the lower case of its units. -/
theorem lower_of_class {p : CodeUnit → Bool} (hp : ∀ d, d.isLower = true → p d = true)
    (h : p c = true) : p c.lower = true := by
  cases hc : c.isUpper with
  | false => rwa [lower, hc, if_neg Bool.false_ne_true]
  | true => exact hp _ (isLower_lower hc)

theorem isAlpha_lower (h : c.isAlpha = true) : c.lower.isAlpha = true :=
  lower_of_class (fun _ hd => isAlpha_of_isLower hd) h

theorem isNameUnit_lower (h : c.isNameUnit = true) : c.lower.isNameUnit = true :=
  lower_of_class (fun _ hd => isNameUnit_of_isAlpha (isAlpha_of_isLower hd)) h

theorem isAttributeUnit_lower (h : c.isAttributeUnit = true) : c.lower.isAttributeUnit = true :=
  lower_of_class
    (fun _ hd => isAttributeUnit_of_isNameUnit (isNameUnit_of_isAlpha (isAlpha_of_isLower hd))) h

/-- A blank is its own lower case. -/
theorem isWhitespace_lower (h : c.isWhitespace = true) : c.lower.isWhitespace = true := by
  have hc : c.isUpper = false := by
    cases hupper : c.isUpper with
    | false => rfl
    | true =>
      have hblank := toNat_of_isWhitespace h
      simp only [isUpper, Bool.and_eq_true, decide_eq_true_eq, UInt16.le_iff_toNat_le,
        UInt16.reduceToNat] at hupper
      omega
  rwa [lower, hc, if_neg Bool.false_ne_true]

end CodeUnit

namespace Text

/-- The text has no letter from `A` to `Z`. -/
def IsLowerCase (t : Text) : Prop := ∀ c ∈ t, c.isUpper = false

theorem isLowerCase_iff {t : Text} : t.IsLowerCase ↔ (t.all (! ·.isUpper)) = true := by
  simp [IsLowerCase]

instance (t : Text) : Decidable t.IsLowerCase := decidable_of_iff _ isLowerCase_iff.symm

theorem lower_of_isLowerCase {t : Text} (h : t.IsLowerCase) : t.lower = t := by
  refine (List.map_congr_left fun c hc => ?_).trans (List.map_id t)
  rw [CodeUnit.lower, h c hc]
  rfl

theorem isLowerCase_lower (t : Text) : t.lower.IsLowerCase := by
  intro c hc
  obtain ⟨d, -, rfl⟩ := List.mem_map.mp hc
  exact d.isUpper_lower

end Text

end MarkupQuery
