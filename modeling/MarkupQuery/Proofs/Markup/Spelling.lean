import MarkupQuery.Markup.Tag
import MarkupQuery.Proofs.Text.Alphabet
import MarkupQuery.Proofs.Text.Unit

/-!
# Ways to write a tag

Two scanners have to agree on a tag. The first looks for its end and only knows of quotes and angle
brackets; the second looks for attributes in what the first has cut off. An attribute may be written
in many ways: without a value, or with one that stands in quotes of either kind or in none, and with
blanks around the equals sign. Whichever way is taken, the first scanner is outside quotes after it,
and the second reads one attribute, provided that what follows does not go on with it.

## Main definitions

* `Tag.Passes`: a text that the search for the end of a tag goes through
* `ValueSpelling`, `AttributeSpelling`: an attribute as it is written
* `ValueSpelling.EndsBefore`: a value that does not go on into a text

## Main results

* `Tag.inside?_of_passes`: a tag ends after what the search goes through
* `AttributeSpelling.scan_flatMap`: written attributes are read
* `StartTag.read?_append`: the name of a start tag is read, and then what follows it
-/

namespace MarkupQuery

open CodeUnit

namespace Tag

/-! ## Names -/

theorem isName_iff {name : Text} : isName name = true ↔ name.IsNameOf letters nameUnits := by
  cases name with
  | nil => exact iff_of_false Bool.false_ne_true Text.not_isNameOf_nil
  | cons c rest => simp [isName, Text.isNameOf_cons_iff, isAlpha_iff, isNameUnit_iff]

theorem isNameOf_lower_iff {name : Text} :
    name.IsNameOf lowerLetters lowerNameUnits ↔ isName name = true ∧ name.IsLowerCase := by
  cases name with
  | nil => exact iff_of_false Text.not_isNameOf_nil fun h => Bool.false_ne_true h.1
  | cons c rest =>
    rw [Text.isNameOf_cons_iff, Text.IsLowerCase, isName, Bool.and_eq_true, List.all_eq_true,
      List.forall_mem_cons, mem_lowerLetters_iff]
    simp only [mem_lowerNameUnits_iff, forall_and]
    exact and_and_and_comm

/-- A name is a letter with name units after it. -/
theorem exists_cons_of_isName {name : Text} (h : isName name = true) :
    ∃ c rest, name = c :: rest ∧ c.isAlpha = true ∧ ∀ d ∈ rest, d.isNameUnit = true := by
  cases name with
  | nil => contradiction
  | cons c rest =>
    rw [isName, Bool.and_eq_true, List.all_eq_true] at h
    exact ⟨c, rest, rfl, h⟩

theorem isNameUnit_of_isName {name : Text} (h : isName name = true) :
    ∀ c ∈ name, c.isNameUnit = true := by
  obtain ⟨c, rest, rfl, hc, hrest⟩ := exists_cons_of_isName h
  exact List.forall_mem_cons.mpr ⟨isNameUnit_of_isAlpha hc, hrest⟩

/-- A name has no blanks. -/
theorem isWhitespace_of_isName {name : Text} (h : isName name = true) :
    ∀ c ∈ name, c.isWhitespace = false :=
  fun c hc => isWhitespace_of_isNameUnit (isNameUnit_of_isName h c hc)

theorem lessThan_notMem_of_isName {name : Text} (h : isName name = true) : lessThan ∉ name := by
  intro hmem
  exact absurd (isNameUnit_of_isName h lessThan hmem) (by decide)

/-! ## The end of a tag -/

/-- The search for the end of a tag goes through the text, and is outside quotes after it. -/
def Passes (s : Text) : Prop :=
  ∀ t, upToEnd? none (s ++ t) = (upToEnd? none t).map fun found => (s ++ found.1, found.2)

theorem passes_nil : Passes [] := by
  intro t
  cases h : upToEnd? none t <;> simp [h]

theorem Passes.append {s t : Text} (hs : Passes s) (ht : Passes t) : Passes (s ++ t) := by
  intro u
  rw [List.append_assoc, hs, ht, Option.map_map]
  simp only [Function.comp_def, List.append_assoc]

theorem passes_flatMap {α : Type} {f : α → Text} {xs : List α} (h : ∀ x ∈ xs, Passes (f x)) :
    Passes (xs.flatMap f) := by
  induction xs with
  | nil => exact passes_nil
  | cons x xs ih =>
    rw [List.flatMap_cons]
    exact (h x List.mem_cons_self).append (ih fun y hy => h y (List.mem_cons_of_mem _ hy))

/-- A unit that is no quote and no angle bracket is gone through. -/
theorem passes_unit {c : CodeUnit} (hgreater : c ≠ greaterThan) (hless : c ≠ lessThan)
    (hquote : ¬ (c = quote ∨ c = apostrophe)) : Passes [c] := by
  intro t
  rw [List.singleton_append, upToEnd?, if_neg hgreater, if_neg hless, if_neg hquote]
  rfl

/-- Units of a class that has no quote and no angle bracket are gone through. -/
theorem passes_of_class {p : CodeUnit → Bool} (hgreater : p greaterThan = false)
    (hless : p lessThan = false) (hquote : p quote = false) (hapostrophe : p apostrophe = false)
    {s : Text} (h : ∀ c ∈ s, p c = true) : Passes s := by
  induction s with
  | nil => exact passes_nil
  | cons c s ih =>
    rw [List.forall_mem_cons] at h
    have hunit : Passes [c] :=
      passes_unit (ne_of_class h.1 hgreater) (ne_of_class h.1 hless)
        (not_or.mpr ⟨ne_of_class h.1 hquote, ne_of_class h.1 hapostrophe⟩)
    exact hunit.append (ih h.2)

theorem passes_of_isAttributeUnit {s : Text} (h : ∀ c ∈ s, c.isAttributeUnit = true) :
    Passes s :=
  passes_of_class rfl rfl rfl rfl h

theorem passes_of_subset_whitespace {s : Text} (h : s ⊆ whitespace) : Passes s :=
  passes_of_class rfl rfl rfl rfl fun _ hc => isWhitespace_iff.mpr (h hc)

/-- Within quotes the search goes on to the closing quote. -/
theorem upToEnd?_some {mark : CodeUnit} {value : Text} (h : mark ∉ value) (t : Text) :
    upToEnd? (some mark) (value ++ mark :: t) =
      (upToEnd? none t).map fun found => (value ++ mark :: found.1, found.2) := by
  induction value with
  | nil =>
    rw [List.nil_append, upToEnd?, if_pos rfl]
    rfl
  | cons c value ih =>
    rw [List.mem_cons, not_or] at h
    -- A unit other than the mark leaves the search within the quotes.
    rw [List.cons_append, upToEnd?, if_neg (Ne.symm h.1), ih h.2, Option.map_map]
    rfl

/-- A value in quotes is gone through, whatever else is in it. -/
theorem passes_quoted {mark : CodeUnit} (hmark : mark = quote ∨ mark = apostrophe) {value : Text}
    (h : mark ∉ value) : Passes (mark :: value ++ [mark]) := by
  have hgreater : mark ≠ greaterThan := by
    rcases hmark with rfl | rfl <;> decide
  have hless : mark ≠ lessThan := by
    rcases hmark with rfl | rfl <;> decide
  intro t
  rw [List.append_assoc, List.cons_append, List.singleton_append, upToEnd?, if_neg hgreater,
    if_neg hless, if_pos hmark, upToEnd?_some h, Option.map_map]
  simp only [Function.comp_def, List.cons_append, List.append_assoc, List.nil_append]

/-- **A tag ends at the bracket after what the search goes through.** -/
theorem inside?_of_passes {s : Text} (hs : Passes s) (hne : s ≠ []) (rest : Text) :
    inside? (s ++ greaterThan :: rest) = some (s, rest) := by
  have hend : upToEnd? none (greaterThan :: rest) = some ([], rest) := by
    rw [upToEnd?, if_pos rfl]
  rw [inside?, hs, hend, Option.map_some, Option.filter_some]
  simp [hne]

end Tag

/-! ## Values -/

/-- A value that needs no quotes: it is not empty, and has no blanks, quotes, backticks, equals
signs or angle brackets in it. -/
def Attribute.IsPlain (value : Text) : Prop :=
  value ≠ [] ∧ ∀ c ∈ value, c ∉ whitespace ∧ c ∉ ("\"'`=<>" : Text)

theorem Attribute.isPlain_iff {value : Text} :
    IsPlain value ↔ value ≠ [] ∧ ∀ c ∈ value, isPlainUnit c = true := by
  have hmarks : ("\"'`=<>" : Text) =
      [quote, apostrophe, backtick, equals, lessThan, greaterThan] := by decide
  simp [IsPlain, isPlainUnit, hmarks, and_assoc, ← isWhitespace_iff]

/-- The value of an attribute as it is written after the name. -/
inductive ValueSpelling where
  /-- No value. -/
  | bare
  /-- A value without quotes, after an equals sign with blanks before and after it. -/
  | plain (before after value : Text) (hbefore : before ⊆ whitespace)
      (hafter : after ⊆ whitespace) (hvalue : Attribute.IsPlain value)
  /-- A value in quotes, which has no such quote in it. -/
  | quoted (before after : Text) (mark : CodeUnit) (value : Text) (hbefore : before ⊆ whitespace)
      (hafter : after ⊆ whitespace) (hmark : mark = '"' ∨ mark = '\'')
      (hvalue : mark ∉ value)

namespace ValueSpelling

/-- What is written. -/
def text : ValueSpelling → Text
  | bare => []
  | plain before after value _ _ _ => before ++ ("=" ++ (after ++ value))
  | quoted before after mark value _ _ _ _ =>
    before ++ ("=" ++ (after ++ (mark :: value ++ [mark])))

/-- The value. -/
def value : ValueSpelling → Text
  | bare => []
  | plain _ _ value _ _ _ => value
  | quoted _ _ _ value _ _ _ _ => value

/-- Whether the value ends with a quote. -/
def IsQuoted : ValueSpelling → Prop
  | quoted .. => True
  | _ => False

/-- What follows does not go on with the value, nor with the name when there is no value. -/
def EndsBefore (rest : Text) : ValueSpelling → Prop
  | bare => Text.StopsAt isAttributeUnit rest ∧
      Text.StopsAt (· == equals) (rest.dropWhile isWhitespace)
  | plain .. => Text.StopsAt Attribute.isPlainUnit rest
  | quoted .. => True

theorem text_plain {before after value : Text} (hbefore : before ⊆ whitespace)
    (hafter : after ⊆ whitespace) (hvalue : Attribute.IsPlain value) :
    (plain before after value hbefore hafter hvalue).text = before ++ equals :: (after ++ value) :=
  rfl

theorem text_quoted {before after value : Text} {mark : CodeUnit} (hbefore : before ⊆ whitespace)
    (hafter : after ⊆ whitespace) (hmark : mark = quote ∨ mark = apostrophe)
    (hvalue : mark ∉ value) :
    (quoted before after mark value hbefore hafter hmark hvalue).text =
      before ++ equals :: (after ++ (mark :: value ++ [mark])) := rfl

theorem passes_text (v : ValueSpelling) : Tag.Passes v.text := by
  have hequals : Tag.Passes [equals] := Tag.passes_unit (by decide) (by decide) (by decide)
  cases v with
  | bare => exact Tag.passes_nil
  | plain before after value hbefore hafter hvalue =>
    have hplain : Tag.Passes value :=
      Tag.passes_of_class (by decide) (by decide) (by decide) (by decide)
        (Attribute.isPlain_iff.mp hvalue).2
    exact (Tag.passes_of_subset_whitespace hbefore).append
      (hequals.append ((Tag.passes_of_subset_whitespace hafter).append hplain))
  | quoted before after mark value hbefore hafter hmark hvalue =>
    exact (Tag.passes_of_subset_whitespace hbefore).append
      (hequals.append ((Tag.passes_of_subset_whitespace hafter).append
        (Tag.passes_quoted hmark hvalue)))

/-- The name before the value ends where the value begins. -/
theorem stopsAt_text_append {v : ValueSpelling} {rest : Text} (h : v.EndsBefore rest) :
    Text.StopsAt isAttributeUnit (v.text ++ rest) := by
  -- A name is followed by a blank or by the equals sign, unless there is no value.
  have hblanks {before t : Text} (hbefore : before ⊆ whitespace) :
      Text.StopsAt isAttributeUnit (before ++ equals :: t) := by
    cases before with
    | nil => exact Text.stopsAt_cons.mpr (by decide)
    | cons c before =>
      have hc : c.isWhitespace = true := isWhitespace_iff.mpr (hbefore List.mem_cons_self)
      exact Text.stopsAt_cons.mpr (isAttributeUnit_of_isWhitespace hc)
  cases v with
  | bare => exact h.1
  | plain before after value hbefore hafter hvalue =>
    rw [text_plain, List.append_assoc, List.cons_append]
    exact hblanks hbefore
  | quoted before after mark value hbefore hafter hmark hvalue =>
    rw [text_quoted, List.append_assoc, List.cons_append]
    exact hblanks hbefore

/-- A value in quotes ends with a quote. -/
theorem IsQuoted.exists_text_eq_append {v : ValueSpelling} (h : v.IsQuoted) :
    ∃ t mark, v.text = t ++ [mark] ∧ (mark = quote ∨ mark = apostrophe) := by
  cases v with
  | bare => exact h.elim
  | plain => exact h.elim
  | quoted before after mark value hbefore hafter hmark hvalue =>
    refine ⟨before ++ equals :: (after ++ mark :: value), mark, ?_, hmark⟩
    simp [text_quoted]

end ValueSpelling

namespace Attribute

theorem isWhitespace_of_isPlainUnit {c : CodeUnit} (h : isPlainUnit c = true) :
    c.isWhitespace = false := by
  cases hblank : c.isWhitespace with
  | false => rfl
  | true =>
    rw [isPlainUnit, hblank] at h
    contradiction

theorem isPlainUnit_of_isWhitespace {c : CodeUnit} (h : c.isWhitespace = true) :
    isPlainUnit c = false := by
  rw [isPlainUnit, h]
  rfl

/-- The value after an equals sign is read behind any blanks. -/
theorem value?_equals {before after t : Text} (hbefore : before ⊆ whitespace)
    (hafter : after ⊆ whitespace) (ht : Text.StopsAt isWhitespace t) :
    value? (before ++ equals :: (after ++ t)) = valueText? t := by
  have hstop : Text.StopsAt isWhitespace (equals :: (after ++ t)) :=
    Text.stopsAt_cons.mpr (by decide)
  rw [value?, Text.dropWhile_run (fun c hc => isWhitespace_iff.mpr (hbefore hc)) hstop]
  simp only [if_true]
  rw [Text.dropWhile_run (fun c hc => isWhitespace_iff.mpr (hafter hc)) ht]

/-- A value in quotes is read up to the closing quote. -/
theorem valueText?_quoted {mark : CodeUnit} (hmark : mark = quote ∨ mark = apostrophe)
    {value : Text} (h : mark ∉ value) (t : Text) :
    valueText? (mark :: value ++ mark :: t) = some (value, t) := by
  have hrun : ∀ c ∈ value, (c != mark) = true := Text.bne_of_notMem h
  have hstop : Text.StopsAt (· != mark) (mark :: t) := Text.stopsAt_bne mark t
  rw [List.cons_append, valueText?, if_pos hmark, quoted?, Text.dropWhile_run hrun hstop,
    Text.takeWhile_run hrun hstop]

/-- A value without quotes is read up to the first unit that it cannot have. -/
theorem valueText?_plain {value rest : Text} (h : IsPlain value)
    (hrest : Text.StopsAt isPlainUnit rest) :
    valueText? (value ++ rest) = some (value, rest) := by
  obtain ⟨hne, hrun⟩ := isPlain_iff.mp h
  obtain ⟨c, value, rfl⟩ := List.exists_cons_of_ne_nil hne
  rw [List.forall_mem_cons] at hrun
  have hquote : ¬ (c = quote ∨ c = apostrophe) :=
    not_or.mpr ⟨ne_of_class hrun.1 (by decide), ne_of_class hrun.1 (by decide)⟩
  rw [List.cons_append, valueText?, if_neg hquote, if_pos hrun.1,
    Text.takeWhile_run hrun.2 hrest, Text.dropWhile_run hrun.2 hrest]

/-- **A written value is read**, and what follows it is left. -/
theorem valueOrEmpty_text {v : ValueSpelling} {rest : Text} (h : v.EndsBefore rest) :
    valueOrEmpty (v.text ++ rest) = (v.value, rest) := by
  cases v with
  | bare =>
    -- Behind the blanks there is no equals sign.
    have hnone : value? rest = none := by
      rw [value?]
      split
      · rfl
      · next c more hdrop =>
        have hc := h.2 c (by rw [hdrop]; rfl)
        rw [if_neg (beq_eq_false_iff_ne.mp hc)]
    rw [valueOrEmpty, ValueSpelling.text, List.nil_append, hnone]
    rfl
  | plain before after value hbefore hafter hvalue =>
    obtain ⟨hne, hrun⟩ := isPlain_iff.mp hvalue
    have hstop : Text.StopsAt isWhitespace (value ++ rest) := by
      obtain ⟨c, value, rfl⟩ := List.exists_cons_of_ne_nil hne
      exact Text.stopsAt_cons.mpr (isWhitespace_of_isPlainUnit (hrun c List.mem_cons_self))
    rw [valueOrEmpty, ValueSpelling.text_plain, List.append_assoc, List.cons_append,
      List.append_assoc, value?_equals hbefore hafter hstop, valueText?_plain hvalue h]
    rfl
  | quoted before after mark value hbefore hafter hmark hvalue =>
    have hstop : Text.StopsAt isWhitespace (mark :: value ++ mark :: rest) := by
      rw [List.cons_append, Text.stopsAt_cons]
      rcases hmark with rfl | rfl <;> decide
    rw [valueOrEmpty, ValueSpelling.text_quoted, List.append_assoc, List.cons_append,
      List.append_assoc, List.append_assoc, List.singleton_append,
      value?_equals hbefore hafter hstop, valueText?_quoted hmark hvalue]
    rfl

end Attribute

/-! ## Attributes -/

/-- An attribute as it is written in a tag: blanks, a name and perhaps a value. -/
structure AttributeSpelling where
  lead : Text
  name : Text
  value : ValueSpelling
  isMadeOf_lead : lead.IsMadeOf whitespace
  isMadeOf_name : name.IsMadeOf attributeUnits

namespace AttributeSpelling

theorem isRunOf_lead (a : AttributeSpelling) : a.lead.isRunOf isWhitespace = true :=
  (Text.isMadeOf_iff isWhitespace_iff).mp a.isMadeOf_lead

theorem isRunOf_name (a : AttributeSpelling) : a.name.isRunOf isAttributeUnit = true :=
  (Text.isMadeOf_iff isAttributeUnit_iff).mp a.isMadeOf_name

/-- What is written. -/
def text (a : AttributeSpelling) : Text := a.lead ++ (a.name ++ a.value.text)

/-- The attribute: its name in lower case, and its value with the references decoded. -/
def toAttribute (a : AttributeSpelling) : Attribute := ⟨a.name.lower, a.value.value.decoded⟩

theorem passes_text (a : AttributeSpelling) : Tag.Passes a.text := by
  have hlead : Tag.Passes a.lead :=
    Tag.passes_of_subset_whitespace fun c hc => a.isMadeOf_lead.2 c hc
  have hname : Tag.Passes a.name :=
    Tag.passes_of_isAttributeUnit (Text.isRunOf_iff.mp a.isRunOf_name).2
  exact hlead.append (hname.append a.value.passes_text)

/-- An attribute begins with a blank. -/
theorem exists_text_eq_cons (a : AttributeSpelling) :
    ∃ c more, a.text = c :: more ∧ c.isWhitespace = true := by
  obtain ⟨hlead, hblanks⟩ := Text.isRunOf_iff.mp a.isRunOf_lead
  obtain ⟨c, more, hcons⟩ := List.exists_cons_of_ne_nil hlead
  refine ⟨c, more ++ (a.name ++ a.value.text), ?_, hblanks c ?_⟩
  · rw [text, hcons, List.cons_append]
  · rw [hcons]
    exact List.mem_cons_self

/-- No value goes on into another attribute. -/
theorem endsBefore_text_append (v : ValueSpelling) (a : AttributeSpelling) (rest : Text) :
    v.EndsBefore (a.text ++ rest) := by
  obtain ⟨c, more, htext, hc⟩ := a.exists_text_eq_cons
  cases v with
  | bare =>
    refine ⟨?_, ?_⟩
    · rw [htext]
      exact Text.stopsAt_cons.mpr (isAttributeUnit_of_isWhitespace hc)
    · -- Behind the blanks there is the name.
      have hblanks := (Text.isRunOf_iff.mp a.isRunOf_lead).2
      obtain ⟨hname, hunits⟩ := Text.isRunOf_iff.mp a.isRunOf_name
      obtain ⟨d, name, hd⟩ := List.exists_cons_of_ne_nil hname
      have hunit : d.isAttributeUnit = true := hunits d (by rw [hd]; exact List.mem_cons_self)
      have hstop : Text.StopsAt isWhitespace (a.name ++ (a.value.text ++ rest)) := by
        rw [hd]
        exact Text.stopsAt_cons.mpr (isWhitespace_of_isAttributeUnit hunit)
      rw [text, List.append_assoc, List.append_assoc, Text.dropWhile_run hblanks hstop, hd]
      exact Text.stopsAt_cons.mpr (beq_eq_false_iff_ne.mpr (ne_of_class hunit rfl))
  | plain before after value hbefore hafter hvalue =>
    rw [htext]
    exact Text.stopsAt_cons.mpr (Attribute.isPlainUnit_of_isWhitespace hc)
  | quoted => trivial

end AttributeSpelling

namespace Attribute

/-- What is no name is passed over. -/
theorem scan_append_of_forall {s : Text} (h : ∀ c ∈ s, c.isAttributeUnit = false) (rest : Text) :
    scan (s ++ rest) = scan rest := by
  induction s with
  | nil => rfl
  | cons c s ih =>
    rw [List.forall_mem_cons] at h
    rw [List.cons_append, scan, h.1, if_neg Bool.false_ne_true, ih h.2]

/-- A written attribute is read, and the scan goes on behind it. -/
theorem scan_text {a : AttributeSpelling} {rest : Text} (h : a.value.EndsBefore rest) :
    scan (a.text ++ rest) = a.toAttribute :: scan rest := by
  have hlead : ∀ c ∈ a.lead, c.isAttributeUnit = false := fun c hc =>
    isAttributeUnit_of_isWhitespace ((Text.isRunOf_iff.mp a.isRunOf_lead).2 c hc)
  obtain ⟨hne, hunits⟩ := Text.isRunOf_iff.mp a.isRunOf_name
  have hstop := ValueSpelling.stopsAt_text_append h
  -- The scan decides by the first unit of the name and goes on along the others.
  obtain ⟨c, name, hcons⟩ := List.exists_cons_of_ne_nil hne
  rw [hcons, List.forall_mem_cons] at hunits
  rw [AttributeSpelling.text, List.append_assoc, scan_append_of_forall hlead, List.append_assoc,
    hcons, List.cons_append, scan, if_pos hunits.1]
  simp only [Text.takeWhile_run hunits.2 hstop, Text.dropWhile_run hunits.2 hstop]
  rw [valueOrEmpty_text h, ← hcons]
  rfl

/-- **Written attributes are read**, one after the other. -/
theorem scan_flatMap_text {attributes : List AttributeSpelling} {rest : Text}
    (h : ∀ a ∈ attributes.getLast?, a.value.EndsBefore rest) :
    scan (attributes.flatMap AttributeSpelling.text ++ rest) =
      attributes.map AttributeSpelling.toAttribute ++ scan rest := by
  induction attributes with
  | nil => rfl
  | cons a attributes ih =>
    cases attributes with
    | nil =>
      rw [List.flatMap_singleton, scan_text (h a rfl)]
      rfl
    | cons b attributes =>
      -- What follows an attribute is the next one, and only the last is in front of the rest.
      have hnext : a.value.EndsBefore
          ((b :: attributes).flatMap AttributeSpelling.text ++ rest) := by
        rw [List.flatMap_cons, List.append_assoc]
        exact AttributeSpelling.endsBefore_text_append a.value b _
      rw [List.flatMap_cons, List.append_assoc, scan_text hnext, ih h]
      rfl

end Attribute

/-! ## Start tags -/

/-- A slash behind a blank or a quote, or behind nothing, ends a tag. -/
theorem StartTag.endsWithSlash_append {t blanks : Text} (hblanks : blanks ⊆ whitespace)
    (ht : ∀ c ∈ t.getLast?, c.isWhitespace = true ∨ c = quote ∨ c = apostrophe) :
    endsWithSlash (t ++ slash :: blanks) = true := by
  have hrun : ∀ c ∈ blanks.reverse, c.isWhitespace = true := fun c hc =>
    isWhitespace_iff.mpr (hblanks (List.mem_reverse.mp hc))
  have hstop : Text.StopsAt isWhitespace (slash :: t.reverse) := Text.stopsAt_cons.mpr (by decide)
  rw [endsWithSlash, List.reverse_append, List.reverse_cons, List.append_assoc,
    List.singleton_append, Text.dropWhile_run hrun hstop]
  simp only [beq_self_eq_true, Bool.true_and, List.head?_reverse, Option.all_eq_true,
    Bool.or_eq_true, beq_iff_eq, or_assoc]
  exact ht

/-- A start tag begins with a letter. -/
theorem StartTag.exists_cons_of_read? {inside : Text} {tag : StartTag}
    (h : read? inside = some tag) : ∃ c rest, inside = c :: rest ∧ c.isAlpha = true := by
  rw [read?, Option.ite_none_right_eq_some] at h
  cases inside with
  | nil => exact absurd h.1 Bool.false_ne_true
  | cons c rest => exact ⟨c, rest, rfl, h.1⟩

/-- The name of a start tag is read, and what follows it is looked at for attributes and a
slash. -/
theorem StartTag.read?_append {name rest : Text} (hname : Tag.isName name = true)
    (hrest : Text.StopsAt isNameUnit rest) :
    read? (name ++ rest) =
      some ⟨name.lower, Attribute.arrange (Attribute.keepFirst (Attribute.scan rest)),
        endsWithSlash rest⟩ := by
  have hrun := Tag.isNameUnit_of_isName hname
  obtain ⟨c, more, rfl, hc, -⟩ := Tag.exists_cons_of_isName hname
  have hhead : ((c :: more) ++ rest).head?.any isAlpha = true := hc
  rw [read?, if_pos hhead, Text.takeWhile_run hrun hrest, Text.dropWhile_run hrun hrest]

end MarkupQuery
