import MarkupQuery.Markup.Event
import MarkupQuery.Proofs.Markup.EndTag

/-!
# Written markup, event by event

What is written for a text, a start tag, a raw body or an end tag is cut off as one event. A text
must not go on into what follows it; the other events end with a bracket, and may be followed by
anything.

## Main results

* `Event.scan_text`: an escaped text is one event in front of a bracket or the end
* `Event.scan_startTag`, `Event.scan_raw`: a start tag is one event, with the body of a raw element
* `Event.scan_endTag`: an end tag is one event
-/

namespace MarkupQuery

open CodeUnit

/-- The void and the raw tags are names in lower case. -/
theorem Tag.isName_of_known {tag : Text} (h : isVoid tag = true ∨ isRaw tag = true) :
    isName tag = true ∧ tag.IsLowerCase := by
  have hknown : ((voids ++ raws).all fun t => isName t && t.all (! ·.isUpper)) = true := by
    decide
  -- There are so few of them that each is looked at.
  have hmem : tag ∈ voids ++ raws := by
    rw [List.mem_append]
    exact h.imp List.contains_iff_mem.mp List.contains_iff_mem.mp
  have htag := List.all_eq_true.mp hknown tag hmem
  rw [Bool.and_eq_true, List.all_eq_true] at htag
  exact ⟨htag.1, fun c hc => by simpa using htag.2 c hc⟩

namespace Event

variable {tag : Text} {attributes : List Attribute}

/-- A text without an opening bracket is one event when no other unit of text follows. -/
theorem scan_text {written rest : Text} (hne : written ≠ []) (hless : lessThan ∉ written)
    (hrest : Text.StopsAt (· != lessThan) rest) :
    scan (written ++ rest) = text written :: scan rest := by
  obtain ⟨c, more, rfl⟩ := List.exists_cons_of_ne_nil hne
  rw [List.mem_cons, not_or] at hless
  have hrun : ∀ d ∈ more, (d != lessThan) = true := Text.bne_of_notMem hless.2
  rw [List.cons_append, scan, read, if_neg (Ne.symm hless.1), Text.takeWhile_run hrun hrest,
    Text.dropWhile_run hrun hrest]

/-- A tag that is no declaration is read from its inside. -/
theorem scan_tag {inside : Text} {c : CodeUnit} {more : Text} (hpasses : Tag.Passes inside)
    (hcons : inside = c :: more) (hc : c ≠ bang) (rest : Text) :
    scan (lessThan :: inside ++ greaterThan :: rest) =
      (ofTag inside rest).1 :: scan (ofTag inside rest).2 := by
  have hinside : Tag.inside? (inside ++ greaterThan :: rest) = some (inside, rest) :=
    Tag.inside?_of_passes hpasses (by rw [hcons]; exact List.cons_ne_nil c more) rest
  -- Only a bang after the bracket opens a comment.
  have hcomment : comment? (inside ++ greaterThan :: rest) = none := by
    have hbang : List.isPrefixOf? ("!--" : Text) (inside ++ greaterThan :: rest) = none := by
      have hne : ¬ (bang == c) = true := by simpa using Ne.symm hc
      rw [hcons, List.cons_append]
      exact if_neg hne
    rw [comment?, hbang]
    rfl
  rw [List.cons_append, scan, read, if_pos rfl, hcomment]
  simp only [hinside]

/-- A start tag is read from its inside, which begins with a letter. -/
theorem ofTag_of_read? {inside : Text} {tag : StartTag} (h : StartTag.read? inside = some tag)
    (rest : Text) :
    ofTag inside rest = ofStartTag (lessThan :: inside ++ [greaterThan]) tag rest := by
  obtain ⟨c, more, rfl, hc⟩ := StartTag.exists_cons_of_read? h
  -- A letter is neither a bang nor a question mark nor a slash.
  rw [ofTag, if_neg, if_neg (ne_of_class hc rfl), h]
  exact not_or.mpr ⟨ne_of_class hc rfl, ne_of_class hc rfl⟩

/-- A start tag is cut off, with its body when it has one. -/
theorem scan_of_read? {inside : Text} {tag : StartTag} (hpasses : Tag.Passes inside)
    (h : StartTag.read? inside = some tag) (rest : Text) :
    scan (lessThan :: inside ++ greaterThan :: rest) =
      (ofStartTag (lessThan :: inside ++ [greaterThan]) tag rest).1 ::
        scan (ofStartTag (lessThan :: inside ++ [greaterThan]) tag rest).2 := by
  obtain ⟨c, more, hcons, hc⟩ := StartTag.exists_cons_of_read? h
  rw [scan_tag hpasses hcons (ne_of_class hc rfl), ofTag_of_read? h]

/-- A written start tag is cut off, with its body when it has one. -/
theorem scan_openTag (hname : Tag.isName tag = true) (hlower : tag.IsLowerCase)
    (hattributes : Attribute.AreArranged attributes) (rest : Text) :
    scan (Node.openTag tag attributes ++ rest) =
      (ofStartTag (Node.openTag tag attributes) ⟨tag, attributes, false⟩ rest).1 ::
        scan (ofStartTag (Node.openTag tag attributes) ⟨tag, attributes, false⟩ rest).2 := by
  have hpasses : Tag.Passes (tag ++ Attribute.written attributes) := by
    refine Tag.Passes.append (Tag.passes_of_isAttributeUnit ?_)
      (Attribute.passes_written hattributes.isRunOf_name)
    exact fun c hc => isAttributeUnit_of_isNameUnit (Tag.isNameUnit_of_isName hname c hc)
  have htext : Node.openTag tag attributes =
      lessThan :: (tag ++ Attribute.written attributes) ++ [greaterThan] := Node.openTag_eq ..
  have hscan := scan_of_read? hpasses (StartTag.read?_written hname hlower hattributes) rest
  rw [htext, ← hscan]
  simp

theorem scan_startTag (hname : Tag.isName tag = true) (hlower : tag.IsLowerCase)
    (hattributes : Attribute.AreArranged attributes)
    (hraw : StartTag.opensRaw ⟨tag, attributes, false⟩ = false) (rest : Text) :
    scan (Node.openTag tag attributes ++ rest) =
      startTag (Node.openTag tag attributes) ⟨tag, attributes, false⟩ :: scan rest := by
  rw [scan_openTag hname hlower hattributes, ofStartTag, if_neg (by rw [hraw]; decide)]

/-- A raw element is one event from its start tag to its end tag. -/
theorem scan_raw {body : Text} (hraw : StartTag.opensRaw ⟨tag, attributes, false⟩ = true)
    (hattributes : Attribute.AreArranged attributes)
    (hbody : ∀ t, EndTag.IsWritten tag t → ¬ t <:+: body) (rest : Text) :
    scan (Node.openTag tag attributes ++ (body ++ (Node.closeTag tag ++ rest))) =
      raw (Node.openTag tag attributes) ⟨tag, attributes, false⟩ body (Node.closeTag tag) ::
        scan rest := by
  have hknown : Tag.isRaw tag = true := by
    rw [StartTag.opensRaw, Bool.and_eq_true] at hraw
    exact hraw.2
  obtain ⟨hname, hlower⟩ := Tag.isName_of_known (Or.inr hknown)
  have hfound := EndTag.search_closeTag hname hlower hbody rest
  rw [scan_openTag hname hlower hattributes, ofStartTag, if_pos hraw, rawBody, hfound]
  rfl

/-- An end tag is cut off. -/
theorem scan_endTag (hname : Tag.isName tag = true) (hlower : tag.IsLowerCase) (rest : Text) :
    scan (Node.closeTag tag ++ rest) =
      endTag (Node.closeTag tag) (some tag) :: scan rest := by
  have hslash : Tag.Passes [slash] := Tag.passes_unit (by decide) (by decide) (by decide)
  have hpasses : Tag.Passes (slash :: tag) :=
    hslash.append (Tag.passes_of_isAttributeUnit fun c hc =>
      isAttributeUnit_of_isNameUnit (Tag.isNameUnit_of_isName hname c hc))
  have htext : Node.closeTag tag ++ rest = lessThan :: (slash :: tag) ++ greaterThan :: rest := by
    rw [Node.closeTag_eq, List.append_assoc]
    rfl
  rw [htext, scan_tag hpasses rfl (by decide), ofTag, if_neg (by decide), if_pos rfl,
    EndTag.name?_of_isName hname (Text.lower_of_isLowerCase hlower), Node.closeTag_eq]

end Event

end MarkupQuery
