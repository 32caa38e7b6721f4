import MarkupQuery.Proofs.Markup.Numbering
import MarkupQuery.Proofs.Markup.Reading
import MarkupQuery.Proofs.Markup.RoundTrip

/-!
# Trees that reading gives

Whatever a markup looks like, the tree that is read from it is tidy: names and attributes are as an
element has them, void elements have no children, raw elements at most one text without an end tag
for the element, and no text is empty or follows another. The tree is built around a stack of open
elements, and it is tidy at every moment: below the innermost open element, and before each of the
open elements.

## Main definitions

* `Node.IsTidy`: the nodes that reading gives, with blanks kept or not
* `Node.AreTidy`: siblings that reading gives
* `Builder.IsTidy`: a tree under construction that is tidy so far

## Main results

* `Builder.isTidy_add`: a proper event keeps the tree tidy
* `Node.exists_areTidy_parse`: any markup is read as a tidy tree
-/

namespace MarkupQuery

open CodeUnit

namespace Node

/-- The nodes that reading gives. A document is none of them, so that no document is below another.
An element has no children, or it is raw and has a text without an end tag for the element, or it is
neither void nor raw. The text of a raw element is empty only when blanks are kept, and any other
text never. -/
inductive IsTidy (keepWhitespace : Bool) : Node → Prop
  | text {value : Text} (hvalue : value ≠ []) : IsTidy keepWhitespace (text value)
  | childless {tag : Text} {attributes : List Attribute}
      (hname : tag.IsNameOf lowerLetters lowerNameUnits)
      (hattributes : Attribute.AreArranged attributes) :
      IsTidy keepWhitespace (element tag attributes [])
  | raw {tag : Text} {attributes : List Attribute} {body : Text} (htag : Tag.IsRawName tag)
      (hattributes : Attribute.AreArranged attributes)
      (hbody : ∀ t, EndTag.IsWritten tag t → ¬ t <:+: body)
      (hkept : keepWhitespace = false → body ≠ []) :
      IsTidy keepWhitespace (element tag attributes [.text body])
  | element {tag : Text} {attributes : List Attribute} {children : List Node}
      (hname : tag.IsNameOf lowerLetters lowerNameUnits) (hvoid : ¬ Tag.IsVoidName tag)
      (hraw : ¬ Tag.IsRawName tag) (hattributes : Attribute.AreArranged attributes)
      (hchildren : ∀ n ∈ children, IsTidy keepWhitespace n) (hapart : TextsApart children) :
      IsTidy keepWhitespace (element tag attributes children)

/-- The nodes are siblings that reading gives. -/
structure AreTidy (keepWhitespace : Bool) (nodes : List Node) : Prop where
  isTidy : ∀ n ∈ nodes, n.IsTidy keepWhitespace
  textsApart : TextsApart nodes

variable {keepWhitespace : Bool} {nodes : List Node} {n : Node}

theorem areTidy_nil : AreTidy keepWhitespace [] := ⟨nofun, List.isChain_nil⟩

/-- Another node than a text may stand next to any. -/
theorem AreTidy.cons (hnodes : AreTidy keepWhitespace nodes) (hn : n.IsTidy keepWhitespace)
    (htext : ¬ n.IsText) : AreTidy keepWhitespace (n :: nodes) where
  isTidy := List.forall_mem_cons.mpr ⟨hn, hnodes.isTidy⟩
  textsApart := List.isChain_cons.mpr ⟨fun _ _ h => htext h.1, hnodes.textsApart⟩

/-- Whether texts are apart does not depend on the end from which the nodes are listed. -/
theorem AreTidy.reverse (hnodes : AreTidy keepWhitespace nodes) :
    AreTidy keepWhitespace nodes.reverse where
  isTidy n hn := hnodes.isTidy n (List.mem_reverse.mp hn)
  textsApart := by
    rw [TextsApart, List.isChain_reverse]
    exact hnodes.textsApart.imp fun _ _ h hpair => h hpair.symm

end Node

/-! ## The tree under construction -/

/-- The element can have children other than a raw body, and the nodes before it are tidy. -/
structure OpenElement.IsTidy (keepWhitespace : Bool) (e : OpenElement) : Prop where
  isNameOf_tag : e.tag.IsNameOf lowerLetters lowerNameUnits
  not_isVoidName_tag : ¬ Tag.IsVoidName e.tag
  not_isRawName_tag : ¬ Tag.IsRawName e.tag
  areArranged : Attribute.AreArranged e.attributes
  areTidy_before : Node.AreTidy keepWhitespace e.before

namespace Builder

/-- The tree is tidy so far: the nodes below the innermost open element are, and so is every open
element with the nodes before it. -/
structure IsTidy (keepWhitespace : Bool) (b : Builder) : Prop where
  areTidy_nodes : Node.AreTidy keepWhitespace b.nodes
  isTidy_outer : ∀ e ∈ b.outer, e.IsTidy keepWhitespace

variable {keepWhitespace : Bool} {b : Builder}

theorem isTidy_empty : empty.IsTidy keepWhitespace := ⟨Node.areTidy_nil, nofun⟩

/-! ## Single steps -/

/-- An element that is closed goes below the element around it, after the nodes before it. -/
theorem areTidy_closed {e : OpenElement} {nodes : List Node} (he : e.IsTidy keepWhitespace)
    (hnodes : Node.AreTidy keepWhitespace nodes) :
    Node.AreTidy keepWhitespace (closed e nodes) := by
  apply he.areTidy_before.cons _ id
  have hchildren := hnodes.reverse
  exact .element he.isNameOf_tag he.not_isVoidName_tag he.not_isRawName_tag he.areArranged
    hchildren.isTidy hchildren.textsApart

/-- However many elements are closed, the tree stays tidy. -/
theorem isTidy_closeThrough (isLast : OpenElement → Bool) {nodes : List Node}
    {outer : List OpenElement} (hnodes : Node.AreTidy keepWhitespace nodes)
    (houter : ∀ e ∈ outer, e.IsTidy keepWhitespace) :
    (closeThrough isLast nodes outer).IsTidy keepWhitespace := by
  induction outer generalizing nodes with
  | nil => exact ⟨hnodes, nofun⟩
  | cons e outer ih =>
    rw [List.forall_mem_cons] at houter
    have hclosed := areTidy_closed houter.1 hnodes
    unfold closeThrough
    split
    · exact ⟨hclosed, houter.2⟩
    · exact ih hclosed houter.2

theorem isTidy_close (hb : b.IsTidy keepWhitespace) (name : Text) :
    (b.close name).IsTidy keepWhitespace := by
  unfold close
  split
  · exact isTidy_closeThrough _ hb.areTidy_nodes hb.isTidy_outer
  · exact hb

/-- A text that follows another is joined to it, so that no two texts come together. -/
theorem isTidy_addText (hb : b.IsTidy keepWhitespace) {value : Text} (hvalue : value ≠ []) :
    (b.addText value).IsTidy keepWhitespace := by
  obtain ⟨nodes, outer⟩ := b
  have hnodes : Node.AreTidy keepWhitespace nodes := hb.areTidy_nodes
  refine ⟨?_, by unfold addText; split <;> exact hb.isTidy_outer⟩
  unfold addText
  split
  · next before rest heq =>
    obtain rfl : nodes = .text before :: rest := heq
    have hchain := List.isChain_cons.mp hnodes.textsApart
    refine ⟨List.forall_mem_cons.mpr ⟨.text (List.append_ne_nil_of_right_ne_nil _ hvalue), ?_⟩, ?_⟩
    · exact (List.forall_mem_cons.mp hnodes.isTidy).2
    · exact List.isChain_cons.mpr hchain
  · next htext =>
    refine ⟨List.forall_mem_cons.mpr ⟨.text hvalue, hnodes.isTidy⟩, ?_⟩
    -- The node before the new text is none itself.
    refine List.isChain_cons.mpr ⟨?_, hnodes.textsApart⟩
    rintro m hm ⟨-, hm'⟩
    cases m with
    | text before =>
      obtain ⟨rest, hrest⟩ := List.head?_eq_some_iff.mp hm
      exact htext before rest hrest
    | document _ => exact hm'
    | element _ _ _ => exact hm'

theorem isTidy_addElement (hb : b.IsTidy keepWhitespace) {tag : StartTag} {children : List Node}
    (h : (Node.element tag.name tag.attributes children).IsTidy keepWhitespace) :
    (b.addElement tag children).IsTidy keepWhitespace :=
  ⟨hb.areTidy_nodes.cons h id, hb.isTidy_outer⟩

theorem isTidy_openElement (hb : b.IsTidy keepWhitespace) {tag : StartTag} (htag : tag.IsProper)
    (hvoid : ¬ Tag.IsVoidName tag.name) (hraw : ¬ Tag.IsRawName tag.name) :
    (b.openElement tag).IsTidy keepWhitespace where
  areTidy_nodes := Node.areTidy_nil
  isTidy_outer := List.forall_mem_cons.mpr ⟨⟨htag.isNameOf_name, hvoid, hraw,
    htag.areArranged, hb.areTidy_nodes⟩, hb.isTidy_outer⟩

/-! ## Events -/

/-- **A proper event keeps the tree tidy.** -/
theorem isTidy_add (hb : b.IsTidy keepWhitespace) {e : Event} (he : e.IsProper) :
    (b.add keepWhitespace e).IsTidy keepWhitespace := by
  cases e with
  | ignored written => exact hb
  | text written =>
    rw [add]
    split
    · exact hb
    · exact isTidy_addText hb (Text.decoded_ne_nil he)
  | endTag written name =>
    cases name with
    | none => exact hb
    | some name => exact isTidy_close hb name
  | startTag written tag =>
    obtain ⟨htag, hopens⟩ := he
    rw [add]
    split
    · exact isTidy_addElement hb (.childless htag.isNameOf_name htag.areArranged)
    · next hclosed =>
      -- An element that stays open is neither void nor raw.
      rw [StartTag.opensRaw, Bool.eq_false_iff.mpr hclosed, Bool.not_false, Bool.true_and] at hopens
      rw [StartTag.isClosed, Bool.or_eq_true, not_or, Tag.isVoid_iff] at hclosed
      exact isTidy_openElement hb htag hclosed.2 (Tag.isRaw_eq_false_iff.mp hopens)
  | raw written tag body closing =>
    obtain ⟨htag, hopens, hbody⟩ := he
    rw [StartTag.opensRaw, Bool.and_eq_true] at hopens
    apply isTidy_addElement hb
    split
    · exact .childless htag.isNameOf_name htag.areArranged
    · next hdrops =>
      refine .raw (Tag.isRaw_iff.mp hopens.2) htag.areArranged hbody ?_
      -- When blanks are not kept, an empty body is dropped like any other of blanks.
      rintro hkeep rfl
      exact hdrops (by rw [drops, hkeep]; rfl)

/-- The tree stays tidy along proper events. -/
theorem isTidy_foldl (hb : b.IsTidy keepWhitespace) {events : List Event}
    (hevents : ∀ e ∈ events, e.IsProper) :
    (events.foldl (add keepWhitespace) b).IsTidy keepWhitespace := by
  induction events generalizing b with
  | nil => exact hb
  | cons e events ih =>
    rw [List.forall_mem_cons] at hevents
    exact ih (isTidy_add hb hevents.1) hevents.2

theorem areTidy_finish (hb : b.IsTidy keepWhitespace) : Node.AreTidy keepWhitespace b.finish :=
  (isTidy_closeThrough _ hb.areTidy_nodes hb.isTidy_outer).areTidy_nodes.reverse

end Builder

namespace Node

/-- The nodes that a markup describes are tidy, whatever the markup. -/
theorem areTidy_parseAll (keepWhitespace : Bool) (markup : Text) :
    AreTidy keepWhitespace (parseAll keepWhitespace markup) :=
  Builder.areTidy_finish
    (Builder.isTidy_foldl Builder.isTidy_empty (Event.isProper_of_mem_scan markup))

/-- **Any markup is read as a tidy tree**: a document with tidy nodes, in which every node below the
document is a child of its parent, once, and of no other node. -/
theorem exists_areTidy_parse (keepWhitespace : Bool) (markup : Text) :
    ∃ nodes, parse keepWhitespace markup = document nodes ∧ AreTidy keepWhitespace nodes ∧
      (Index.ofDocuments [parse keepWhitespace markup]).IsTreeOf (parse keepWhitespace markup) := by
  refine ⟨parseAll keepWhitespace markup, rfl, areTidy_parseAll keepWhitespace markup, ?_⟩
  exact Index.isTreeOf_ofDocuments (parse keepWhitespace markup)

end Node

end MarkupQuery
