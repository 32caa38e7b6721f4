import MarkupQuery.Proofs.Text.Run
import MarkupQuery.Text.Utf16

/-!
# Alphabets

The units of which names, numbers and blanks are made can be listed, and so they are here. Reading
decides by ranges of units and by classes built on other classes; what is said of names elsewhere
says it with the lists, so that it does not depend on how reading decides. A single unit is written
as its character there.

## Main definitions

* `CodeUnit.upperLetters`, `CodeUnit.lowerLetters`, `CodeUnit.letters`, `CodeUnit.digits`,
  `CodeUnit.hexDigits`: letters and digits
* `CodeUnit.tagUnits`, `CodeUnit.fieldUnits`, `CodeUnit.nameUnits`, `CodeUnit.attributeUnits`: the
  units of names
* `CodeUnit.lowerNameUnits`, `CodeUnit.lowerAttributeUnits`: those of names in lower case
* `CodeUnit.layout`, `CodeUnit.separators`, `CodeUnit.whitespace`: three sets of blanks
* `Text.IsMadeOf`, `Text.IsNameOf`: texts of one unit or more from an alphabet, all alike or with
  another alphabet for the first

## Main results

* `CodeUnit.isAlpha_iff` and its like: the classes have the units of the alphabets
* `Text.isMadeOf_iff`: a text from an alphabet is a run of the class
-/

namespace MarkupQuery

namespace CodeUnit

/-- A character of the basic plane stands for its code unit. -/
instance : Coe Char CodeUnit := ⟨fun c => UInt16.ofNat c.toNat⟩

/-! ## Letters and digits -/

def upperLetters : Text := "ABCDEFGHIJKLMNOPQRSTUVWXYZ"

def lowerLetters : Text := "abcdefghijklmnopqrstuvwxyz"

def letters : Text := upperLetters ++ lowerLetters

def digits : Text := "0123456789"

def upperHexDigits : Text := digits ++ "ABCDEF"

def lowerHexDigits : Text := digits ++ "abcdef"

/-- The digits of base sixteen, in either case. -/
def hexDigits : Text := upperHexDigits ++ lowerHexDigits

/-- What a digit of base sixteen counts, which is its place among the digits of its case. -/
def place (c : CodeUnit) : Nat :=
  if c ∈ upperHexDigits then upperHexDigits.idxOf c else lowerHexDigits.idxOf c

/-! ## The units of names -/

/-- The units of a tag in a path. -/
def tagUnits : Text := letters ++ "_-"

/-- The units of a field, an attribute value, an identifier or a class in a query. -/
def fieldUnits : Text := letters ++ digits ++ "_-"

/-- The units after the first of a tag name in markup. -/
def nameUnits : Text := letters ++ digits ++ "_-:"

/-- The units of an attribute name in markup. -/
def attributeUnits : Text := letters ++ digits ++ "_-:@."

/-- The units after the first of a tag name in lower case. -/
def lowerNameUnits : Text := lowerLetters ++ digits ++ "_-:"

/-- The units of an attribute name in lower case. -/
def lowerAttributeUnits : Text := lowerLetters ++ digits ++ "_-:@."

/-! ## Blanks -/

/-- The blanks that lay out a query. -/
def layout : Text := " \t\r\n"

/-- The blanks that separate class names. -/
def separators : Text := layout ++ [0x0C]

/-- The blanks of markup. -/
def whitespace : Text :=
  [0x09, 0x0A, 0x0B, 0x0C, 0x0D] ++ [0x20, 0xA0, 0x1680] ++
    [0x2000, 0x2001, 0x2002, 0x2003, 0x2004, 0x2005, 0x2006, 0x2007, 0x2008, 0x2009, 0x200A] ++
    [0x2028, 0x2029, 0x202F, 0x205F, 0x3000, 0xFEFF]

/-! ## Classes -/

variable {c : CodeUnit}

/-- An alphabet of consecutive units has the units between its first and its last. -/
theorem mem_iff_of_eq_range {alphabet : Text} {first last : CodeUnit}
    (h : alphabet = (List.range (last.toNat + 1 - first.toNat)).map fun i =>
      UInt16.ofNat (first.toNat + i)) :
    (decide (first ≤ c) && decide (c ≤ last)) = true ↔ c ∈ alphabet := by
  have hlast : last.toNat < 0x10000 := last.toNat_lt
  rw [h, Bool.and_eq_true, decide_eq_true_eq, decide_eq_true_eq, UInt16.le_iff_toNat_le,
    UInt16.le_iff_toNat_le, List.mem_map]
  constructor
  · rintro ⟨hc, hc'⟩
    refine ⟨c.toNat - first.toNat, List.mem_range.mpr (by omega), ?_⟩
    rw [Nat.add_sub_cancel' hc, UInt16.ofNat_toNat]
  · rintro ⟨i, hi, rfl⟩
    rw [List.mem_range] at hi
    rw [UInt16.toNat_ofNat_of_lt' (show first.toNat + i < 0x10000 by omega)]
    omega

theorem isUpper_iff : c.isUpper = true ↔ c ∈ upperLetters := mem_iff_of_eq_range (by decide)

theorem isLower_iff : c.isLower = true ↔ c ∈ lowerLetters := mem_iff_of_eq_range (by decide)

theorem isAlpha_iff : c.isAlpha = true ↔ c ∈ letters := by
  rw [isAlpha, Bool.or_eq_true, isUpper_iff, isLower_iff, letters, List.mem_append]

theorem isDigit_iff : c.isDigit = true ↔ c ∈ digits := mem_iff_of_eq_range (by decide)

theorem isHexDigit_iff : c.isHexDigit = true ↔ c ∈ hexDigits := by
  have hupper : (decide (0x41 ≤ c) && decide (c ≤ 0x46)) = true ↔ c ∈ ("ABCDEF" : Text) :=
    mem_iff_of_eq_range (by decide)
  have hlower : (decide (0x61 ≤ c) && decide (c ≤ 0x66)) = true ↔ c ∈ ("abcdef" : Text) :=
    mem_iff_of_eq_range (by decide)
  rw [isHexDigit, Bool.or_eq_true, Bool.or_eq_true, isDigit_iff, hupper, hlower]
  simp only [hexDigits, upperHexDigits, lowerHexDigits, List.mem_append, or_left_comm, or_assoc,
    or_self_left]

/-- A digit of base sixteen has the value that it counts. -/
theorem digitValue_eq_place (h : c ∈ hexDigits) : c.digitValue = c.place := by
  have hall : hexDigits.map digitValue = hexDigits.map place := by decide
  exact List.map_inj_left.mp hall c h

theorem isTagUnit_iff : c.isTagUnit = true ↔ c ∈ tagUnits := by
  have hmarks : ("_-" : Text) = [underscore, minus] := by decide
  simp only [isTagUnit, tagUnits, hmarks, Bool.or_eq_true, beq_iff_eq, isAlpha_iff,
    List.mem_append, List.mem_cons, List.not_mem_nil, or_false, or_assoc]

theorem isFieldUnit_iff : c.isFieldUnit = true ↔ c ∈ fieldUnits := by
  simp only [isFieldUnit, fieldUnits, Bool.or_eq_true, isTagUnit_iff, tagUnits, isDigit_iff,
    List.mem_append]
  exact or_right_comm

theorem isNameUnit_iff : c.isNameUnit = true ↔ c ∈ nameUnits := by
  have hmarks : ("_-:" : Text) = "_-" ++ [colon] := by decide
  simp only [isNameUnit, nameUnits, hmarks, Bool.or_eq_true, beq_iff_eq, isFieldUnit_iff,
    fieldUnits, List.mem_append, List.mem_singleton, or_assoc]

theorem isAttributeUnit_iff : c.isAttributeUnit = true ↔ c ∈ attributeUnits := by
  have hmarks : ("_-:@." : Text) = "_-:" ++ [atSign, dot] := by decide
  simp only [isAttributeUnit, attributeUnits, hmarks, Bool.or_eq_true, beq_iff_eq, isNameUnit_iff,
    nameUnits, List.mem_append, List.mem_cons, List.not_mem_nil, or_false, or_assoc]

/-- Without the letters `A` to `Z` an alphabet has the units that are not among them. -/
theorem mem_iff_of_eq_append {alphabet lower : Text} (h : alphabet = upperLetters ++ lower)
    (hlower : (lower.all fun c => !c.isUpper) = true) :
    c ∈ lower ↔ c ∈ alphabet ∧ c.isUpper = false := by
  rw [h, List.mem_append]
  constructor
  · exact fun hc => ⟨.inr hc, by simpa using List.all_eq_true.mp hlower c hc⟩
  · rintro ⟨hc, hupper⟩
    exact hc.resolve_left fun hc => Bool.eq_false_iff.mp hupper (isUpper_iff.mpr hc)

theorem mem_lowerLetters_iff : c ∈ lowerLetters ↔ c.isAlpha = true ∧ c.isUpper = false := by
  rw [isAlpha_iff]
  exact mem_iff_of_eq_append rfl (by decide)

theorem mem_lowerNameUnits_iff : c ∈ lowerNameUnits ↔ c.isNameUnit = true ∧ c.isUpper = false := by
  rw [isNameUnit_iff]
  exact mem_iff_of_eq_append rfl (by decide)

theorem mem_lowerAttributeUnits_iff :
    c ∈ lowerAttributeUnits ↔ c.isAttributeUnit = true ∧ c.isUpper = false := by
  rw [isAttributeUnit_iff]
  exact mem_iff_of_eq_append rfl (by decide)

theorem isLayout_iff : c.isLayout = true ↔ c ∈ layout := by
  have hlayout : layout = [space, tab, carriageReturn, lineFeed] := by decide
  simp [isLayout, hlayout, or_assoc]

theorem isLayout_eq_false_iff : c.isLayout = false ↔ c ∉ layout := by
  rw [← isLayout_iff, Bool.not_eq_true]

theorem isSeparator_iff : c.isSeparator = true ↔ c ∈ separators := by
  simp [isSeparator, separators, isLayout_iff]

theorem isWhitespace_iff : c.isWhitespace = true ↔ c ∈ whitespace := by
  have hcontrols : (decide (0x09 ≤ c) && decide (c ≤ 0x0D)) = true ↔
      c ∈ [0x09, 0x0A, 0x0B, 0x0C, 0x0D] := mem_iff_of_eq_range (by decide)
  have hspaces : (decide (0x2000 ≤ c) && decide (c ≤ 0x200A)) = true ↔
      c ∈ [0x2000, 0x2001, 0x2002, 0x2003, 0x2004, 0x2005, 0x2006, 0x2007, 0x2008, 0x2009,
        0x200A] := mem_iff_of_eq_range (by decide)
  rw [isWhitespace, whitespace, List.mem_append, List.mem_append, List.mem_append, ← hcontrols,
    ← hspaces]
  simp only [Bool.or_eq_true, beq_iff_eq, List.mem_cons, List.not_mem_nil, or_false, or_assoc]

end CodeUnit

namespace Text

/-- A text of one unit or more, all of them from an alphabet. -/
def IsMadeOf (t alphabet : Text) : Prop := t ≠ [] ∧ ∀ c ∈ t, c ∈ alphabet

instance (t alphabet : Text) : Decidable (t.IsMadeOf alphabet) :=
  inferInstanceAs (Decidable (t ≠ [] ∧ t ⊆ alphabet))

/-- A unit from the alphabet `first`, and units from the alphabet `more` after it. -/
def IsNameOf (t first more : Text) : Prop :=
  ∃ c rest, t = c :: rest ∧ c ∈ first ∧ ∀ d ∈ rest, d ∈ more

theorem not_isNameOf_nil {first more : Text} : ¬ IsNameOf [] first more := by
  rintro ⟨c, rest, h, -⟩
  contradiction

theorem isNameOf_cons_iff {c : CodeUnit} {rest first more : Text} :
    IsNameOf (c :: rest) first more ↔ c ∈ first ∧ ∀ d ∈ rest, d ∈ more := by
  constructor
  · rintro ⟨_, _, h, hname⟩
    obtain ⟨rfl, rfl⟩ := List.cons.inj h
    exact hname
  · exact fun h => ⟨c, rest, rfl, h⟩

/-- A text is blank when it has no other units than blanks. -/
theorem isBlank_iff {t : Text} : t.isBlank = true ↔ t ⊆ CodeUnit.whitespace := by
  rw [isBlank, List.all_eq_true]
  exact forall₂_congr fun _ _ => CodeUnit.isWhitespace_iff

/-- A text from an alphabet is a run of the class that has the units of the alphabet. -/
theorem isMadeOf_iff {p : CodeUnit → Bool} {alphabet t : Text}
    (h : ∀ {c}, p c = true ↔ c ∈ alphabet) : t.IsMadeOf alphabet ↔ t.isRunOf p = true := by
  rw [isRunOf_iff, IsMadeOf]
  simp only [h]

end Text

end MarkupQuery
