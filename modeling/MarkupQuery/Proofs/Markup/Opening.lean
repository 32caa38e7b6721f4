import MarkupQuery.Proofs.Markup.Front
import MarkupQuery.Proofs.Markup.Reading

/-!
# Start tags in all ways to write them

However a start tag is written, it is read as one element. Its name is in lower case, and of the
attributes with one name, in whatever case, it has the first. A slash at the end of the tag closes
the element at once, provided that it is no part of a value; what follows is then read as if the tag
were not there.

## Main definitions

* `TagSpelling`: a start tag as it is written

## Main results

* `Attribute.mem_keepFirst_iff`: the attributes of an element are the first of each name
* `TagSpelling.exists_read?`: a written start tag is read
* `Node.parse_tagSpelling`: it is one element, in front of what follows when it is closed
-/

namespace MarkupQuery

open CodeUnit

/-- An attribute is kept if it is the first one of its name. -/
theorem Attribute.mem_keepFirst_iff {attributes : List Attribute} {a : Attribute} :
    a ∈ keepFirst attributes ↔ attributes.find? (·.name == a.name) = some a := by
  induction attributes with
  | nil => simp [keepFirst]
  | cons b attributes ih =>
    rw [keepFirst, List.mem_cons, List.mem_filter, ih]
    by_cases hname : b.name = a.name
    · rw [List.find?_cons_of_pos (by rw [hname]; exact beq_self_eq_true _), Option.some.injEq]
      refine ⟨fun h => h.elim Eq.symm fun h => ?_, fun h => .inl h.symm⟩
      rw [hname, bne_self_eq_false] at h
      exact absurd h.2 Bool.false_ne_true
    · rw [List.find?_cons_of_neg (by simpa using hname)]
      refine ⟨fun h => h.elim (fun h => absurd (h ▸ rfl) hname) And.left, fun h => .inr ⟨h, ?_⟩⟩
      exact bne_iff_ne.mpr (Ne.symm hname)

/-! ## Written start tags -/

/-- A start tag as it is written: a name, attributes, blanks, and perhaps a slash with blanks behind
it. The slash stands behind the name, a blank or a closing quote. -/
structure TagSpelling where
  name : Text
  attributes : List AttributeSpelling
  /-- The blanks behind the name and the attributes. -/
  trail : Text
  /-- The blanks behind the slash, if there is one. -/
  slash : Option Text
  isNameOf_name : name.IsNameOf letters nameUnits
  trail_subset : trail ⊆ whitespace
  slash_subset : ∀ blanks ∈ slash, blanks ⊆ whitespace
  apart_slash : slash.isSome = true →
    trail ≠ [] ∨ ∀ a ∈ attributes.getLast?, a.value.IsQuoted

namespace TagSpelling

variable (w : TagSpelling)

theorem isName_name : Tag.isName w.name = true := Tag.isName_iff.mpr w.isNameOf_name

/-- What is written behind the attributes. -/
def ending : Text := w.trail ++ w.slash.elim [] (("/" : Text) ++ ·)

/-- What is written behind the name. -/
def rest : Text := w.attributes.flatMap AttributeSpelling.text ++ w.ending

/-- The whole tag. -/
def text : Text := "<" ++ (w.name ++ w.rest) ++ ">"

/-- The attributes as they are written. -/
def written : List Attribute := w.attributes.map AttributeSpelling.toAttribute

/-! ### The end of the tag -/

variable {w}

theorem isWhitespace_or_eq_slash {c : CodeUnit} (hc : c ∈ w.ending) :
    c.isWhitespace = true ∨ c = CodeUnit.slash := by
  rcases List.mem_append.mp hc with hc | hc
  · exact .inl (isWhitespace_iff.mpr (w.trail_subset hc))
  · cases hslash : w.slash with
    | none =>
      rw [hslash] at hc
      exact absurd hc List.not_mem_nil
    | some blanks =>
      rw [hslash] at hc
      rcases List.mem_cons.mp hc with hc | hc
      · exact .inr hc
      · exact .inl (isWhitespace_iff.mpr (w.slash_subset blanks hslash hc))

theorem isAttributeUnit_of_mem_ending {c : CodeUnit} (hc : c ∈ w.ending) :
    c.isAttributeUnit = false := by
  rcases isWhitespace_or_eq_slash hc with hblank | rfl
  · exact isAttributeUnit_of_isWhitespace hblank
  · decide

/-- Behind a value without quotes the ending does not begin with the slash. -/
theorem isWhitespace_of_head? {a : AttributeSpelling} (ha : a ∈ w.attributes.getLast?)
    (hquoted : ¬ a.value.IsQuoted) : ∀ c ∈ w.ending.head?, c.isWhitespace = true := by
  intro c hc
  cases htrail : w.trail with
  | nil =>
    cases hslash : w.slash with
    | none =>
      rw [ending, htrail, hslash] at hc
      contradiction
    | some blanks =>
      -- The slash would stand right behind the value.
      rcases w.apart_slash (by rw [hslash]; rfl) with hne | hlast
      · exact absurd htrail hne
      · exact absurd (hlast a ha) hquoted
  | cons d trail =>
    rw [ending, htrail] at hc
    obtain rfl : d = c := Option.some.inj hc
    exact isWhitespace_iff.mpr (w.trail_subset (by rw [htrail]; exact List.mem_cons_self))

/-- The last value does not go on into the ending. -/
theorem endsBefore_ending : ∀ a ∈ w.attributes.getLast?, a.value.EndsBefore w.ending := by
  intro a ha
  cases hvalue : a.value with
  | bare =>
    refine ⟨fun c hc => isAttributeUnit_of_mem_ending (List.mem_of_mem_head? hc), fun c hc => ?_⟩
    -- There is no equals sign in the ending, behind its blanks or anywhere else.
    have hmem := (List.dropWhile_suffix isWhitespace).subset (List.mem_of_mem_head? hc)
    rw [beq_eq_false_iff_ne]
    rintro rfl
    rcases isWhitespace_or_eq_slash hmem with h | h <;> exact absurd h (by decide)
  | plain before after value hbefore hafter hplain =>
    have hquoted : ¬ a.value.IsQuoted := by
      rw [hvalue]
      exact not_false
    exact fun c hc => Attribute.isPlainUnit_of_isWhitespace (isWhitespace_of_head? ha hquoted c hc)
  | quoted => trivial

/-! ### Reading -/

theorem scan_rest (w : TagSpelling) : Attribute.scan w.rest = w.written := by
  have hending : Attribute.scan (w.ending ++ []) = Attribute.scan [] :=
    Attribute.scan_append_of_forall (fun _ hc => isAttributeUnit_of_mem_ending hc) []
  rw [List.append_nil, Attribute.scan] at hending
  rw [rest, Attribute.scan_flatMap_text endsBefore_ending, hending, List.append_nil, written]

theorem passes_inside (w : TagSpelling) : Tag.Passes (w.name ++ w.rest) := by
  have hname : Tag.Passes w.name :=
    Tag.passes_of_isAttributeUnit fun c hc =>
      isAttributeUnit_of_isNameUnit (Tag.isNameUnit_of_isName w.isName_name c hc)
  have hattributes : Tag.Passes (w.attributes.flatMap AttributeSpelling.text) :=
    Tag.passes_flatMap fun a _ => a.passes_text
  have hending : Tag.Passes w.ending := by
    refine Tag.passes_of_class (p := fun c => c.isWhitespace || c == CodeUnit.slash)
      rfl rfl rfl rfl fun c hc => ?_
    rw [Bool.or_eq_true, beq_iff_eq]
    exact isWhitespace_or_eq_slash hc
  exact hname.append (hattributes.append hending)

/-- The name ends where the tag does, or at a blank, or at the slash. -/
theorem stopsAt_rest (w : TagSpelling) : Text.StopsAt isNameUnit w.rest := by
  rw [rest]
  cases w.attributes with
  | nil =>
    exact Text.stopsAt_of_forall fun c hc =>
      isNameUnit_of_isAttributeUnit_eq_false (isAttributeUnit_of_mem_ending hc)
  | cons a attributes =>
    obtain ⟨c, more, htext, hc⟩ := a.exists_text_eq_cons
    rw [List.flatMap_cons, htext]
    exact Text.stopsAt_cons.mpr
      (isNameUnit_of_isAttributeUnit_eq_false (isAttributeUnit_of_isWhitespace hc))

/-- In front of the slash there is a blank or a closing quote, or nothing but the name. -/
theorem endsWithSlash_rest (h : w.slash.isSome = true) : StartTag.endsWithSlash w.rest = true := by
  obtain ⟨blanks, hslash⟩ := Option.isSome_iff_exists.mp h
  have htext : w.rest = w.attributes.flatMap AttributeSpelling.text ++ w.trail ++
      CodeUnit.slash :: blanks := by
    rw [rest, ending, hslash, List.append_assoc]
    rfl
  rw [htext]
  refine StartTag.endsWithSlash_append (w.slash_subset blanks hslash) fun c hc => ?_
  by_cases htrail : w.trail = []
  · -- What stands right in front of the slash is the last attribute, if there is one.
    rw [htrail, List.append_nil] at hc
    have hlast := (w.apart_slash h).resolve_left fun hne => hne htrail
    rcases List.eq_nil_or_concat w.attributes with hnil | ⟨before, a, hconcat⟩
    · rw [hnil] at hc
      contradiction
    · rw [List.concat_eq_append] at hconcat
      obtain ⟨t, mark, hvalue, hmark⟩ := (hlast a (by rw [hconcat]; simp)).exists_text_eq_append
      have hend : w.attributes.flatMap AttributeSpelling.text =
          before.flatMap AttributeSpelling.text ++ (a.lead ++ (a.name ++ t)) ++ [mark] := by
        rw [hconcat, List.flatMap_append, List.flatMap_singleton, AttributeSpelling.text, hvalue]
        simp
      rw [hend, List.getLast?_concat] at hc
      exact .inr (Option.some.inj hc ▸ hmark)
  · rw [List.getLast?_append_of_ne_nil _ htrail] at hc
    exact .inl (isWhitespace_iff.mpr (w.trail_subset (List.mem_of_getLast? hc)))

/-- **A written start tag is read**, with the first attribute of each name. -/
theorem exists_read? (w : TagSpelling) :
    ∃ tag, StartTag.read? (w.name ++ w.rest) = some tag ∧ tag.name = w.name.lower ∧
      tag.attributes = Attribute.arrange (Attribute.keepFirst w.written) ∧
      (w.slash.isSome = true → tag.selfClosing = true) := by
  refine ⟨_, StartTag.read?_append w.isName_name w.stopsAt_rest, rfl, ?_, endsWithSlash_rest⟩
  rw [scan_rest]

/-! ### One element -/

variable {tag : StartTag} {keepWhitespace : Bool} {b : Builder}

/-- A written start tag that is closed adds its element, and what follows is read. -/
theorem read_text_append (hread : StartTag.read? (w.name ++ w.rest) = some tag)
    (hclosed : tag.isClosed = true) (rest : Text) :
    b.read keepWhitespace (w.text ++ rest) = (b.addElement tag []).read keepWhitespace rest := by
  have hopens : ¬ tag.opensRaw = true := by
    rw [StartTag.opensRaw, hclosed]
    exact Bool.false_ne_true
  have hscan := Event.scan_of_read? w.passes_inside hread rest
  rw [Event.ofStartTag, if_neg hopens] at hscan
  have htext : w.text ++ rest = lessThan :: (w.name ++ w.rest) ++ greaterThan :: rest :=
    List.append_assoc (lessThan :: (w.name ++ w.rest)) [greaterThan] rest
  rw [htext, Builder.read_of_scan hscan, Builder.add, if_pos hclosed]

/-- A written start tag alone is one element without children. It is closed, or opened and closed at
the end, or has an empty body that is not markup. -/
theorem parseAll_text (hread : StartTag.read? (w.name ++ w.rest) = some tag) :
    Node.parseAll false w.text = [.element tag.name tag.attributes []] := by
  have hscan := Event.scan_of_read? w.passes_inside hread []
  have htext : lessThan :: (w.name ++ w.rest) ++ [greaterThan] = w.text := rfl
  rw [htext] at hscan
  rw [Node.parseAll, hscan, Event.ofStartTag]
  split
  · -- A body of no units is dropped like one of blanks.
    have hbody : Event.rawBody tag.name [] = ([], [], []) := rfl
    rw [hbody, Event.scan]
    rfl
  · rw [Event.scan, List.foldl_cons, List.foldl_nil, Builder.add]
    split <;> rfl

end TagSpelling

/-- **A start tag is read as one element, in whatever way it is written.** The attributes are the
first of each name. When a slash closes the tag, or its name does, it stands in front of what is
read after it. -/
theorem Node.parse_tagSpelling (w : TagSpelling) :
    ∃ attributes, Attribute.AreArranged attributes ∧
      (∀ a, a ∈ attributes ↔ w.written.find? (·.name == a.name) = some a) ∧
      parse false w.text = document [element w.name.lower attributes []] ∧
      ((w.slash.isSome = true ∨ Tag.IsVoidName w.name.lower) →
        ∀ (keepWhitespace : Bool) (rest : Text),
          (parse keepWhitespace (w.text ++ rest)).children =
            element w.name.lower attributes [] :: (parse keepWhitespace rest).children) := by
  obtain ⟨tag, hread, hname, hattributes, hslash⟩ := w.exists_read?
  have harranged := Attribute.areArranged_read w.rest
  rw [w.scan_rest, ← hattributes] at harranged
  refine ⟨tag.attributes, harranged, fun a => ?_, ?_, fun hcloses keepWhitespace rest => ?_⟩
  · rw [← Attribute.mem_keepFirst_iff, hattributes]
    exact (List.mergeSort_perm _ _).mem_iff
  · rw [parse, TagSpelling.parseAll_text hread, hname]
  · have hclosed : tag.isClosed = true := by
      rw [StartTag.isClosed, hname, Bool.or_eq_true]
      exact hcloses.imp hslash Tag.isVoid_iff.mpr
    have hadded : Builder.empty.addElement tag [] =
        ⟨[.element tag.name tag.attributes []], []⟩ := rfl
    have hfront : ∀ n ∈ [Node.element tag.name tag.attributes []].head?, ¬ n.IsText := by
      rintro n ⟨⟩
      exact not_false
    have hfinish : ((⟨[.element tag.name tag.attributes []], []⟩ : Builder).read keepWhitespace
        rest).finish = _ := Builder.finish_read hfront rest
    rw [← hadded, ← TagSpelling.read_text_append hread hclosed, hname] at hfinish
    exact hfinish

/-- A bracket in quotes, a slash as a value and a slash at the end: the tag is closed, and of two
attributes with one name the first counts. -/
theorem Node.parse_tagSpelling_slashes :
    ∃ w : TagSpelling, w.text = "<P X = '>' x=/ DISABLED / >" ∧
      ∃ attributes, (⟨"x", ">"⟩ : Attribute) ∈ attributes ∧ (⟨"x", "/"⟩ : Attribute) ∉ attributes ∧
        (⟨"disabled", []⟩ : Attribute) ∈ attributes ∧
        (parse true (w.text ++ " ")).children =
          element "p" attributes [] :: (parse true " ").children := by
  let w : TagSpelling :=
    { name := "P"
      attributes :=
        [⟨" ", "X", .quoted " " " " apostrophe ">" (by decide) (by decide) (.inr rfl) (by decide),
            by decide, by decide⟩,
          ⟨" ", "x", .plain [] [] "/" (by decide) (by decide) (Attribute.isPlain_iff.mpr
            ⟨by decide, List.forall_mem_singleton.mpr rfl⟩), by decide, by decide⟩,
          ⟨" ", "DISABLED", .bare, by decide, by decide⟩]
      trail := " "
      slash := some " "
      isNameOf_name := Tag.isName_iff.mp rfl
      trail_subset := by decide
      slash_subset := by
        rintro _ ⟨⟩
        decide
      apart_slash := fun _ => .inl (by decide) }
  obtain ⟨attributes, -, hmem, -, hrest⟩ := parse_tagSpelling w
  have hwritten : w.written = [⟨"x", ">"⟩, ⟨"x", "/"⟩, ⟨"disabled", []⟩] := by
    have hgreater : Text.decoded ">" = ">" := Text.decoded_of_notMem (by decide)
    have hslash : Text.decoded "/" = "/" := Text.decoded_of_notMem (by decide)
    have hnone : Text.decoded [] = [] := Text.decoded_of_notMem (by decide)
    have htext : w.written = [⟨Text.lower "X", Text.decoded ">"⟩,
        ⟨Text.lower "x", Text.decoded "/"⟩, ⟨Text.lower "DISABLED", Text.decoded []⟩] := rfl
    rw [htext, hgreater, hslash, hnone]
    decide
  rw [hwritten] at hmem
  refine ⟨w, by decide, attributes, (hmem _).mpr (by decide), fun h => ?_, (hmem _).mpr (by decide),
    hrest (.inl rfl) true " "⟩
  exact absurd ((hmem _).mp h) (by decide)

end MarkupQuery
