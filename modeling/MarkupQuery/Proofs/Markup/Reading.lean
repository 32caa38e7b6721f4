import MarkupQuery.Proofs.Markup.Decoding
import MarkupQuery.Proofs.Markup.Scanning

/-!
# What reading gives

Any text at all is read as markup, but what is read is never ill-formed. The name of a start tag is
a letter with name units after it and its attributes are arranged, no text is empty, and the body of
a raw element ends before the first end tag of its own. All this is seen from the text in front of
the reader alone: no event depends on the events before it.

## Main definitions

* `StartTag.IsProper`: the start tags that reading gives
* `Event.IsProper`: the events that reading gives

## Main results

* `Text.decoded_ne_nil`: decoding never empties a text
* `Attribute.areArranged_read`: the attributes of a text, each name once, are arranged
* `StartTag.isProper_of_read?`: a start tag that is read is proper
* `Event.isProper_of_mem_scan`: so are all events of a text
-/

namespace MarkupQuery

open CodeUnit

/-! ## Texts -/

theorem Text.ofCodePoint_ne_nil (n : Nat) : ofCodePoint n ≠ [] := by
  unfold ofCodePoint
  split <;> exact List.cons_ne_nil _ _

/-- A reference stands for a unit at least. -/
theorem Reference.replacement_ne_nil (r : Reference) : r.replacement ≠ [] := by
  have hcharacter (n : Nat) : ∀ value ∈ character? n, value ≠ [] := by
    intro value hvalue
    simp only [character?, Option.mem_def, Option.ite_none_right_eq_some] at hvalue
    rw [← Option.some.inj hvalue.2]
    exact Text.ofCodePoint_ne_nil n
  have hknown : ∀ value ∈ r.value?, value ≠ [] := by
    intro value hvalue
    cases r with
    | decimal digits => exact hcharacter _ value hvalue
    | hexadecimal letter digits => exact hcharacter _ value hvalue
    | named name =>
      obtain ⟨_, -, rfl⟩ := Option.map_eq_some_iff.mp hvalue
      exact List.cons_ne_nil _ _
  -- What is not known stays as it is written, with its ampersand.
  rw [replacement]
  cases hvalue : r.value? with
  | none => exact List.cons_ne_nil _ _
  | some value => exact hknown value hvalue

/-- Decoding never empties a text. -/
theorem Text.decoded_ne_nil {t : Text} (h : t ≠ []) : t.decoded ≠ [] := by
  obtain ⟨c, rest, rfl⟩ := List.exists_cons_of_ne_nil h
  by_cases hc : c = ampersand
  · subst hc
    cases hread : Reference.read? rest with
    | some found =>
      rw [decoded_of_read? hread]
      exact List.append_ne_nil_of_left_ne_nil found.1.replacement_ne_nil _
    | none =>
      rw [decoded_of_read?_eq_none hread]
      exact List.cons_ne_nil _ _
  · rw [decoded_cons_of_ne hc]
    exact List.cons_ne_nil _ _

/-! ## Attributes -/

namespace Attribute

/-- The names of the attributes in a text are made of attribute units in lower case. -/
theorem isMadeOf_of_mem_scan (t : Text) :
    ∀ a ∈ scan t, a.name.IsMadeOf lowerAttributeUnits := by
  fun_induction scan t with
  | case1 => exact nofun
  | case2 c rest hc name found ih =>
    refine List.forall_mem_cons.mpr ⟨isRunOf_and_isLowerCase_iff.mp
      ⟨?_, Text.isLowerCase_lower name⟩, ih⟩
    have hrun : ∀ d ∈ name, d.isAttributeUnit = true :=
      List.forall_mem_cons.mpr ⟨hc, List.all_eq_true.mp List.all_takeWhile⟩
    refine Text.isRunOf_iff.mpr ⟨List.cons_ne_nil _ _, ?_⟩
    intro d hd
    obtain ⟨e, he, rfl⟩ := List.mem_map.mp hd
    exact isAttributeUnit_lower (hrun e he)
  | case3 c rest hc ih => exact ih

theorem sublist_keepFirst (attributes : List Attribute) :
    (keepFirst attributes).Sublist attributes := by
  induction attributes with
  | nil => exact List.Sublist.refl []
  | cons a attributes ih => exact (List.filter_sublist.trans ih).cons_cons a

/-- Of the attributes with one name the first is kept. -/
theorem nodup_keepFirst (attributes : List Attribute) :
    ((keepFirst attributes).map name).Nodup := by
  induction attributes with
  | nil => exact List.nodup_nil
  | cons a attributes ih =>
    rw [keepFirst, List.map_cons, List.nodup_cons]
    refine ⟨?_, ih.sublist (List.filter_sublist.map name)⟩
    rw [List.mem_map]
    rintro ⟨b, hb, hname⟩
    exact bne_iff_ne.mp (List.mem_filter.mp hb).2 hname

/-- **The attributes of a text, each name once, are arranged.** -/
theorem areArranged_read (t : Text) : AreArranged (arrange (keepFirst (scan t))) := by
  have hperm : (arrange (keepFirst (scan t))).Perm (keepFirst (scan t)) := List.mergeSort_perm _ _
  have hscan : ∀ a ∈ arrange (keepFirst (scan t)), a ∈ scan t :=
    fun a ha => (sublist_keepFirst _).subset (hperm.mem_iff.mp ha)
  refine ⟨fun a ha => isMadeOf_of_mem_scan t a (hscan a ha),
    (hperm.map name).nodup_iff.mpr (nodup_keepFirst _), ?_⟩
  -- Ranks are numbers, by which any list is sorted.
  have htrans (a b c : Attribute) (hab : decide (rank a.name ≤ rank b.name) = true)
      (hbc : decide (rank b.name ≤ rank c.name) = true) :
      decide (rank a.name ≤ rank c.name) = true :=
    decide_eq_true (Nat.le_trans (of_decide_eq_true hab) (of_decide_eq_true hbc))
  have htotal (a b : Attribute) :
      (decide (rank a.name ≤ rank b.name) || decide (rank b.name ≤ rank a.name)) = true := by
    rw [Bool.or_eq_true, decide_eq_true_iff, decide_eq_true_iff]
    exact Nat.le_total _ _
  have hsorted := List.pairwise_mergeSort htrans htotal (keepFirst (scan t))
  exact hsorted.imp fun h => rank_le_rank_iff.mp (of_decide_eq_true h)

end Attribute

/-! ## Start tags -/

namespace StartTag

/-- The tag has a name in lower case, and attributes as an element has them. -/
structure IsProper (tag : StartTag) : Prop where
  isNameOf_name : tag.name.IsNameOf lowerLetters lowerNameUnits
  areArranged : Attribute.AreArranged tag.attributes

theorem IsProper.isName_name {tag : StartTag} (h : tag.IsProper) : Tag.isName tag.name = true :=
  (Tag.isNameOf_lower_iff.mp h.isNameOf_name).1

theorem IsProper.isLowerCase_name {tag : StartTag} (h : tag.IsProper) : tag.name.IsLowerCase :=
  (Tag.isNameOf_lower_iff.mp h.isNameOf_name).2

/-- A start tag that is read is proper. -/
theorem isProper_of_read? {inside : Text} {tag : StartTag} (h : read? inside = some tag) :
    tag.IsProper := by
  unfold read? at h
  split at h
  · next hhead =>
    obtain rfl := Option.some.inj h
    refine ⟨Tag.isNameOf_lower_iff.mpr ⟨?_, Text.isLowerCase_lower _⟩,
      Attribute.areArranged_read _⟩
    cases inside with
    | nil => contradiction
    | cons c rest =>
      have hc : c.isAlpha = true := hhead
      have hrun : ∀ d ∈ rest.takeWhile isNameUnit, d.isNameUnit = true :=
        List.all_eq_true.mp List.all_takeWhile
      show Tag.isName (Text.lower ((c :: rest).takeWhile isNameUnit)) = true
      rw [List.takeWhile_cons_of_pos (isNameUnit_of_isAlpha hc), Text.lower, List.map_cons,
        Tag.isName, isAlpha_lower hc, Bool.true_and, List.all_eq_true]
      intro d hd
      obtain ⟨e, he, rfl⟩ := List.mem_map.mp hd
      exact isNameUnit_lower (hrun e he)
  · contradiction

end StartTag

/-! ## Events -/

namespace Event

/-- The event is one that reading gives: a text has a unit at least, a start tag is proper, and the
body of a raw element has no end tag for the element. -/
def IsProper : Event → Prop
  | ignored _ => True
  | text written => written ≠ []
  | endTag _ _ => True
  | startTag _ tag => tag.IsProper ∧ tag.opensRaw = false
  | raw _ tag body _ =>
    tag.IsProper ∧ tag.opensRaw = true ∧ ∀ t, EndTag.IsWritten tag.name t → ¬ t <:+: body

theorem isProper_ofStartTag {tag : StartTag} (htag : tag.IsProper) (written after : Text) :
    (ofStartTag written tag after).1.IsProper := by
  unfold ofStartTag
  split
  · next hraw =>
    refine ⟨htag, hraw, fun t ht => ?_⟩
    exact not_isInfix_rawBody htag.isName_name htag.isLowerCase_name ht after
  · next hraw => exact ⟨htag, Bool.eq_false_iff.mpr hraw⟩

theorem isProper_ofTag (inside after : Text) : (ofTag inside after).1.IsProper := by
  unfold ofTag
  split
  · exact List.cons_ne_nil _ _
  · split
    · trivial
    · split
      · trivial
      · split
        · next hread => exact isProper_ofStartTag (StartTag.isProper_of_read? hread) _ _
        · exact List.cons_ne_nil _ _

/-- The event at the start of a text is proper, whatever the text. -/
theorem isProper_read (c : CodeUnit) (rest : Text) : (read c rest).1.IsProper := by
  unfold read
  split
  · split
    · trivial
    · split
      · exact isProper_ofTag _ _
      · exact List.cons_ne_nil _ _
  · exact List.cons_ne_nil _ _

/-- **All events of a text are proper.** -/
theorem isProper_of_mem_scan (t : Text) : ∀ e ∈ scan t, e.IsProper := by
  fun_induction scan t with
  | case1 => exact List.forall_mem_nil _
  | case2 c rest ih => exact List.forall_mem_cons.mpr ⟨isProper_read c rest, ih⟩

end Event

end MarkupQuery
