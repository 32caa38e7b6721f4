import MarkupQuery.Proofs.Markup.Escape
import MarkupQuery.Proofs.Markup.Render
import MarkupQuery.Proofs.Markup.Spelling
import MarkupQuery.Proofs.Number.Numeral

/-!
# Start tags that are read back

The start tag of an element has its attributes in double quotes, each after a blank. This is one of
the ways to write a tag. An escaped value has no double quote in it, so that it ends where it
should, and the names of an element are in lower case and in their order, so that they are read as
they are.

## Main definitions

* `Attribute.AreArranged`: attributes as an element has them
* `AttributeSpelling.ofAttribute`: an attribute as it stands in the tag of an element

## Main results

* `Attribute.scan_written`: written attributes are read back
* `StartTag.read?_written`: a written start tag is read back
-/

namespace MarkupQuery

open CodeUnit

/-! ## Attributes -/

namespace Attribute

/-- The name is the decimal of a number by which an array may be indexed. -/
def IsIndex (name : Text) (n : Nat) : Prop := n < 2 ^ 32 - 1 ∧ name = Decimal.ofNat n

/-- The attributes as an element has them: their names are in lower case, no two have the same
name, and they are in the order of a record, which has the names that are numbers first, and the
smaller of them before the greater. -/
structure AreArranged (attributes : List Attribute) : Prop where
  isMadeOf_name : ∀ a ∈ attributes, a.name.IsMadeOf lowerAttributeUnits
  nodup_names : (attributes.map Attribute.name).Nodup
  inOrder : attributes.Pairwise fun a b => ∀ n, IsIndex b.name n → ∃ m ≤ n, IsIndex a.name m

variable {attributes : List Attribute} {a b : Text} {n : Nat}

theorem isRunOf_and_isLowerCase_iff {name : Text} :
    name.isRunOf isAttributeUnit = true ∧ name.IsLowerCase ↔
      name.IsMadeOf lowerAttributeUnits := by
  rw [Text.isRunOf_iff, Text.IsLowerCase, Text.IsMadeOf]
  simp only [mem_lowerAttributeUnits_iff, forall_and, and_assoc]

theorem AreArranged.isRunOf_name (h : AreArranged attributes) :
    ∀ a ∈ attributes, a.name.isRunOf isAttributeUnit = true :=
  fun a ha => (isRunOf_and_isLowerCase_iff.mpr (h.isMadeOf_name a ha)).1

theorem AreArranged.isLowerCase_name (h : AreArranged attributes) :
    ∀ a ∈ attributes, a.name.IsLowerCase :=
  fun a ha => (isRunOf_and_isLowerCase_iff.mpr (h.isMadeOf_name a ha)).2

/-! ### The order of names -/

/-- A name that is a number has the number as its rank. -/
theorem rank_of_isIndex (h : IsIndex a n) : rank a = n := by
  obtain ⟨hn, rfl⟩ := h
  have hread := Decimal.readNat?_eq_some_iff.mpr (Decimal.numeral_ofNat n)
  rw [rank, hread]
  exact if_pos ⟨hn, rfl⟩

/-- Any other name has the greatest rank. -/
theorem isIndex_rank_or_rank_eq (a : Text) : IsIndex a (rank a) ∨ rank a = indexBound := by
  rw [rank]
  split
  · split
    · next hn => exact .inl ⟨hn.1, hn.2.symm⟩
    · exact .inr rfl
  · exact .inr rfl

/-- Names are ranked as a record lists them. -/
theorem rank_le_rank_iff : rank a ≤ rank b ↔ ∀ n, IsIndex b n → ∃ m ≤ n, IsIndex a m := by
  constructor
  · intro h n hb
    rw [rank_of_isIndex hb] at h
    refine ⟨rank a, h, (isIndex_rank_or_rank_eq a).resolve_right fun ha => ?_⟩
    rw [ha] at h
    exact absurd hb.1 (Nat.not_lt.mpr h)
  · intro h
    rcases isIndex_rank_or_rank_eq b with hb | hb
    · obtain ⟨m, hm, ha⟩ := h _ hb
      rwa [rank_of_isIndex ha]
    · rcases isIndex_rank_or_rank_eq a with ha | ha
      · rw [hb]
        exact Nat.le_of_lt ha.1
      · exact Nat.le_of_eq (ha.trans hb.symm)

/-- The attributes of an element as they stand in its tag, each after a blank. -/
def written (attributes : List Attribute) : Text :=
  attributes.flatMap fun a => space :: Node.attributeText a

theorem attributeText_eq (a : Attribute) :
    Node.attributeText a = a.name ++ (equals :: (quote :: a.value.escaped ++ [quote])) := by
  rw [Node.attributeText, List.append_assoc, List.append_assoc]
  rfl

end Attribute

namespace AttributeSpelling

variable {a : Attribute}

/-- An attribute as it stands in the tag of an element. -/
def ofAttribute (a : Attribute) (hname : a.name.isRunOf isAttributeUnit = true) :
    AttributeSpelling where
  lead := [space]
  name := a.name
  value := .quoted [] [] quote a.value.escaped (by decide) (by decide) (.inl rfl)
    (Text.notMem_escaped (.inr (.inr rfl)) a.value)
  isMadeOf_lead := by decide
  isMadeOf_name := (Text.isMadeOf_iff isAttributeUnit_iff).mpr hname

theorem text_ofAttribute (hname : a.name.isRunOf isAttributeUnit = true) :
    (ofAttribute a hname).text = space :: Node.attributeText a := by
  rw [Attribute.attributeText_eq]
  rfl

theorem toAttribute_ofAttribute (hname : a.name.isRunOf isAttributeUnit = true)
    (hlower : a.name.IsLowerCase) : (ofAttribute a hname).toAttribute = a := by
  show (⟨a.name.lower, a.value.escaped.decoded⟩ : Attribute) = a
  rw [Text.lower_of_isLowerCase hlower, Text.decoded_escaped]

end AttributeSpelling

namespace Attribute

theorem passes_written {attributes : List Attribute}
    (h : ∀ a ∈ attributes, a.name.isRunOf isAttributeUnit = true) :
    Tag.Passes (written attributes) := by
  refine Tag.passes_flatMap fun a ha => ?_
  rw [← AttributeSpelling.text_ofAttribute (h a ha)]
  exact AttributeSpelling.passes_text _

/-- An attribute is read back in front of any text. -/
theorem scan_attributeText {a : Attribute} (hname : a.name.isRunOf isAttributeUnit = true)
    (hlower : a.name.IsLowerCase) (t : Text) :
    scan (space :: Node.attributeText a ++ t) = a :: scan t := by
  have hread : scan ((AttributeSpelling.ofAttribute a hname).text ++ t) = _ := scan_text trivial
  rwa [AttributeSpelling.text_ofAttribute, AttributeSpelling.toAttribute_ofAttribute hname hlower]
    at hread

/-- **Written attributes are read back.** -/
theorem scan_written {attributes : List Attribute}
    (hname : ∀ a ∈ attributes, a.name.isRunOf isAttributeUnit = true)
    (hlower : ∀ a ∈ attributes, a.name.IsLowerCase) : scan (written attributes) = attributes := by
  induction attributes with
  | nil => rw [written, List.flatMap_nil, scan]
  | cons a attributes ih =>
    rw [List.forall_mem_cons] at hname hlower
    rw [written, List.flatMap_cons, scan_attributeText hname.1 hlower.1]
    exact congrArg (a :: ·) (ih hname.2 hlower.2)

theorem keepFirst_of_nodup {attributes : List Attribute}
    (h : (attributes.map Attribute.name).Nodup) : keepFirst attributes = attributes := by
  induction attributes with
  | nil => rfl
  | cons a attributes ih =>
    rw [List.map_cons, List.nodup_cons] at h
    rw [keepFirst, ih h.2, List.filter_eq_self.mpr]
    intro b hb
    rw [bne_iff_ne]
    intro hab
    exact h.1 (hab ▸ List.mem_map_of_mem hb)

/-- Arranged attributes stay as they are. -/
theorem AreArranged.arrange_keepFirst {attributes : List Attribute} (h : AreArranged attributes) :
    arrange (keepFirst attributes) = attributes := by
  rw [keepFirst_of_nodup h.nodup_names, arrange]
  -- Sorting leaves a list alone that is sorted.
  refine List.mergeSort_of_pairwise (h.inOrder.imp ?_)
  intro a b hab
  exact decide_eq_true (rank_le_rank_iff.mpr hab)

end Attribute

/-! ## Start tags -/

namespace StartTag

/-- What is written after the name of a tag does not end with a slash. -/
theorem endsWithSlash_written (attributes : List Attribute) :
    endsWithSlash (Attribute.written attributes) = false := by
  rcases List.eq_nil_or_concat attributes with rfl | ⟨before, a, rfl⟩
  · rfl
  · rw [List.concat_eq_append]
    -- Whatever comes before, the last unit is the closing quote of the last value.
    have hlast : ∃ t, Attribute.written (before ++ [a]) = t ++ [quote] := by
      refine ⟨Attribute.written before ++
        (space :: (a.name ++ (equals :: quote :: a.value.escaped))), ?_⟩
      rw [Attribute.written, Attribute.written, List.flatMap_append, List.flatMap_singleton,
        Attribute.attributeText_eq]
      simp
    obtain ⟨t, ht⟩ := hlast
    rw [endsWithSlash, ht, List.reverse_append, List.reverse_singleton, List.singleton_append,
      List.dropWhile_cons_of_neg (by decide)]
    rfl

/-- **A written start tag is read back.** -/
theorem read?_written {tag : Text} {attributes : List Attribute} (hname : Tag.isName tag = true)
    (hlower : tag.IsLowerCase) (hattributes : Attribute.AreArranged attributes) :
    read? (tag ++ Attribute.written attributes) = some ⟨tag, attributes, false⟩ := by
  -- The name ends where the tag does, or at the blank before the first attribute.
  have hstop : Text.StopsAt isNameUnit (Attribute.written attributes) := by
    cases attributes with
    | nil => exact Text.stopsAt_nil
    | cons a attributes =>
      rw [Attribute.written, List.flatMap_cons, List.cons_append, Text.stopsAt_cons]
      decide
  rw [read?_append hname hstop, Text.lower_of_isLowerCase hlower, endsWithSlash_written,
    Attribute.scan_written hattributes.isRunOf_name hattributes.isLowerCase_name,
    hattributes.arrange_keepFirst]

end StartTag

end MarkupQuery
