import MarkupQuery.Proofs.Markup.Tidy

/-!
# Markup and its blanks

Whether blanks are kept decides about blanks only. As a markup is read with blanks kept and with
blanks dropped, the two trees under construction differ: one may have a text where the other has
none, and what is one text in the one may be longer than in the other. But the rest of both is the
same, and it can be built without looking at a blank at all: every event adds what it has besides
blanks, and a tree under construction without its blanks is what these steps make of the events,
whether or not blanks are kept in the tree.

## Main definitions

* `Text.ink`, `Text.ink?`: a text without its blanks
* `Builder.editTexts`: a tree under construction with all its texts edited
* `Builder.addInkOf`: what an event does to a tree without blanks

## Main results

* `Builder.editTexts_closeThrough`: elements are closed alike when texts are edited
* `Builder.editTexts_addText`: a text adds what it has besides blanks
* `Builder.editTexts_add`: so does every event, with blanks kept or dropped
* `Node.exists_editTexts_parse`: the two trees of a markup are the same but for blanks
-/

namespace MarkupQuery

open CodeUnit

/-! ## Texts without blanks -/

namespace Text

variable {t : Text}

/-- The text without its blanks. -/
def ink (t : Text) : Text := t.filter (· ∉ whitespace)

/-- The text without its blanks; nothing, when no unit is left. -/
def ink? (t : Text) : Option Text := if t.ink = [] then none else some t.ink

theorem ink_append (s t : Text) : (s ++ t).ink = s.ink ++ t.ink := List.filter_append _ _

/-- Nothing is left of a text that is nothing but blanks. -/
theorem ink_of_isBlank (h : t.isBlank = true) : t.ink = [] := by
  apply List.filter_eq_nil_iff.mpr
  intro c hc
  rw [decide_eq_true_eq, not_not]
  exact isBlank_iff.mp h hc

/-- An ampersand is no blank, so that there is nothing to decode among blanks. -/
theorem decoded_of_isBlank (h : t.isBlank = true) : t.decoded = t := by
  apply decoded_of_notMem
  intro hmem
  exact Bool.false_ne_true (List.all_eq_true.mp h _ hmem)

end Text

/-! ## Trees under construction with their texts edited -/

/-- An open element with all texts before it edited. -/
def OpenElement.editTexts (edit : Text → Option Text) (e : OpenElement) : OpenElement :=
  { e with before := e.before.filterMap (Node.editTexts edit) }

theorem Node.IsText.exists_eq_text {n : Node} (h : n.IsText) : ∃ value, n = .text value := by
  cases n with
  | document _ => contradiction
  | element _ _ _ => contradiction
  | text value => exact ⟨value, rfl⟩

namespace Builder

variable {edit : Text → Option Text} {keepWhitespace : Bool} {b : Builder}

/-- A tree under construction with all its texts edited. -/
def editTexts (edit : Text → Option Text) (b : Builder) : Builder :=
  ⟨b.nodes.filterMap (Node.editTexts edit), b.outer.map (OpenElement.editTexts edit)⟩

theorem editTexts_addElement (edit : Text → Option Text) (b : Builder) (tag : StartTag)
    (children : List Node) :
    (b.addElement tag children).editTexts edit =
      (b.editTexts edit).addElement tag (children.filterMap (Node.editTexts edit)) := by
  rw [addElement, editTexts, List.filterMap_cons_some (Node.editTexts_element _ _ _ _)]
  rfl

theorem editTexts_openElement (edit : Text → Option Text) (b : Builder) (tag : StartTag) :
    (b.openElement tag).editTexts edit = (b.editTexts edit).openElement tag := rfl

/-- An element is closed alike when texts are edited. -/
theorem filterMap_closed (edit : Text → Option Text) (e : OpenElement) (nodes : List Node) :
    (closed e nodes).filterMap (Node.editTexts edit) =
      closed (e.editTexts edit) (nodes.filterMap (Node.editTexts edit)) := by
  rw [closed, List.filterMap_cons_some (Node.editTexts_element _ _ _ _), List.filterMap_reverse]
  rfl

/-- **However many elements are closed, they are closed alike when texts are edited**, for which
one is the last depends on no text. -/
theorem editTexts_closeThrough {isLast : OpenElement → Bool}
    (hlast : ∀ e : OpenElement, isLast (e.editTexts edit) = isLast e) (nodes : List Node)
    (outer : List OpenElement) :
    (closeThrough isLast nodes outer).editTexts edit =
      closeThrough isLast (nodes.filterMap (Node.editTexts edit))
        (outer.map (OpenElement.editTexts edit)) := by
  induction outer generalizing nodes with
  | nil => rfl
  | cons e outer ih =>
    rw [List.map_cons, closeThrough, closeThrough, hlast, ← filterMap_closed]
    split
    · rfl
    · exact ih _

theorem editTexts_close (edit : Text → Option Text) (b : Builder) (name : Text) :
    (b.close name).editTexts edit = (b.editTexts edit).close name := by
  have hany : (b.editTexts edit).outer.any (·.tag == name) = b.outer.any (·.tag == name) :=
    List.any_map
  rw [close, close, hany]
  split
  · exact editTexts_closeThrough (fun _ => rfl) b.nodes b.outer
  · rfl

theorem filterMap_finish (edit : Text → Option Text) (b : Builder) :
    b.finish.filterMap (Node.editTexts edit) = (b.editTexts edit).finish := by
  have hclosed : (closeThrough (fun _ => false) b.nodes b.outer).editTexts edit = _ :=
    editTexts_closeThrough (fun _ => rfl) _ _
  rw [finish, finish, List.filterMap_reverse]
  exact congrArg (fun b => b.nodes.reverse) hclosed

/-! ## Texts that are added -/

/-- The tree with what a text has besides blanks at its end. -/
def addInk (b : Builder) (value : Text) : Builder :=
  match value.ink? with
  | none => b
  | some ink => b.addText ink

theorem addInk_of_ink_eq_nil {value : Text} (h : value.ink = []) : b.addInk value = b := by
  rw [addInk, Text.ink?, if_pos h]

theorem addInk_of_ink_ne_nil {value : Text} (h : value.ink ≠ []) :
    b.addInk value = b.addText value.ink := by
  rw [addInk, Text.ink?, if_neg h]

/-- Two texts that are added one after the other are one text. -/
theorem addText_addText (b : Builder) (s t : Text) :
    (b.addText s).addText t = b.addText (s ++ t) := by
  obtain ⟨nodes, outer⟩ := b
  match nodes with
  | [] => rfl
  | .document _ :: _ => rfl
  | .element _ _ _ :: _ => rfl
  | .text before :: rest =>
    exact congrArg (fun value => (⟨.text value :: rest, outer⟩ : Builder))
      (List.append_assoc before s t)

theorem addInk_addInk (b : Builder) (s t : Text) :
    (b.addInk s).addInk t = b.addInk (s ++ t) := by
  have happend := Text.ink_append s t
  by_cases hs : s.ink = []
  · rw [hs, List.nil_append] at happend
    rw [addInk_of_ink_eq_nil hs, addInk, addInk, Text.ink?, Text.ink?, happend]
  by_cases ht : t.ink = []
  · rw [ht, List.append_nil] at happend
    rw [addInk_of_ink_eq_nil ht, addInk, addInk, Text.ink?, Text.ink?, happend]
  · have hne : (s ++ t).ink ≠ [] := happend ▸ List.append_ne_nil_of_left_ne_nil hs _
    rw [addInk_of_ink_ne_nil hs, addInk_of_ink_ne_nil ht, addInk_of_ink_ne_nil hne,
      addText_addText, happend]

/-- What is no text at the end of a tree stays there. -/
theorem not_isText_of_mem_head? {nodes : List Node} (h : ∀ n ∈ nodes.head?, ¬ n.IsText)
    (edit : Text → Option Text) :
    ∀ n ∈ (nodes.filterMap (Node.editTexts edit)).head?, ¬ n.IsText := by
  cases nodes with
  | nil => exact nofun
  | cons n nodes =>
    have hn : ¬ n.IsText := h n rfl
    cases hedit : n.editTexts edit with
    | none => exact absurd (Node.isText_of_editTexts_eq_none hedit) hn
    | some m =>
      rw [List.filterMap_cons_some hedit]
      rintro _ ⟨⟩
      rwa [Node.isText_of_editTexts hedit]

/-- A text that becomes a node of its own adds what it has besides blanks. -/
theorem editTexts_addText_of_not_isText {nodes : List Node}
    (h : ∀ n ∈ nodes.head?, ¬ n.IsText) (outer : List OpenElement) (value : Text) :
    ((⟨nodes, outer⟩ : Builder).addText value).editTexts Text.ink? =
      ((⟨nodes, outer⟩ : Builder).editTexts Text.ink?).addInk value := by
  have htext := Node.editTexts_text Text.ink? value
  rw [addText_of_not_isText h, addInk, editTexts, editTexts]
  cases hink : value.ink? with
  | none =>
    rw [hink, Option.map_none] at htext
    rw [List.filterMap_cons_none htext]
  | some ink =>
    rw [hink, Option.map_some] at htext
    rw [List.filterMap_cons_some htext]
    exact (addText_of_not_isText (not_isText_of_mem_head? h Text.ink?) _ ink).symm

/-- **A text adds what it has besides blanks**, whether it becomes a node of its own or is joined to
one, and whether or not that one has anything besides blanks. -/
theorem editTexts_addText (hapart : Node.TextsApart b.nodes) (value : Text) :
    (b.addText value).editTexts Text.ink? = (b.editTexts Text.ink?).addInk value := by
  obtain ⟨nodes, outer⟩ := b
  cases nodes with
  | nil =>
    apply editTexts_addText_of_not_isText
    exact nofun
  | cons n rest =>
    by_cases hn : n.IsText
    · obtain ⟨before, rfl⟩ := hn.exists_eq_text
      have hrest : ∀ n ∈ rest.head?, ¬ n.IsText :=
        fun n hn htext => (List.isChain_cons.mp hapart).1 n hn ⟨trivial, htext⟩
      -- The text before it follows no other itself, so that both might have been added as one.
      have hbefore := addText_of_not_isText hrest outer before
      have hadd := editTexts_addText_of_not_isText hrest outer
      rw [← hbefore, addText_addText, hadd, hadd, addInk_addInk]
    · apply editTexts_addText_of_not_isText
      rintro _ ⟨⟩
      exact hn

/-! ## Events -/

/-- The tree after what an event has besides blanks. -/
def addInkOf (b : Builder) : Event → Builder
  | .ignored _ => b
  | .text written => b.addInk written.decoded
  | .endTag _ none => b
  | .endTag _ (some name) => b.close name
  | .startTag _ tag => if tag.isClosed then b.addElement tag [] else b.openElement tag
  | .raw _ tag body _ => b.addElement tag (body.ink?.map Node.text).toList

/-- What is dropped is nothing but blanks. -/
theorem isBlank_of_drops {written : Text} (h : drops keepWhitespace written = true) :
    written.isBlank = true := by
  rw [drops, Bool.and_eq_true] at h
  exact h.2

/-- **Every event adds what it has besides blanks**, with blanks kept or dropped. -/
theorem editTexts_add (hapart : Node.TextsApart b.nodes) (e : Event) :
    (b.add keepWhitespace e).editTexts Text.ink? = (b.editTexts Text.ink?).addInkOf e := by
  cases e with
  | ignored written => rfl
  | text written =>
    rw [add, addInkOf]
    split
    · next hdrops =>
      -- What is dropped has nothing to decode, and nothing besides blanks to add.
      have hblank := isBlank_of_drops hdrops
      rw [Text.decoded_of_isBlank hblank, addInk_of_ink_eq_nil (Text.ink_of_isBlank hblank)]
    · exact editTexts_addText hapart written.decoded
  | endTag written name =>
    cases name with
    | none => rfl
    | some name => exact editTexts_close Text.ink? b name
  | startTag written tag =>
    rw [add, addInkOf]
    split
    · exact editTexts_addElement Text.ink? b tag []
    · exact editTexts_openElement Text.ink? b tag
  | raw written tag body closing =>
    rw [add, addInkOf, editTexts_addElement]
    split
    · next hdrops =>
      rw [Text.ink?, if_pos (Text.ink_of_isBlank (isBlank_of_drops hdrops))]
      rfl
    · rw [← Node.editAllTexts_eq_filterMap, Node.editAllTexts, Node.editTexts_text,
        Node.editAllTexts, List.append_nil]

/-- Along events, with blanks kept or dropped, what is added besides blanks is the same. -/
theorem editTexts_foldl {events : List Event} (hevents : ∀ e ∈ events, e.IsProper)
    (hb : b.IsTidy keepWhitespace) :
    (events.foldl (add keepWhitespace) b).editTexts Text.ink? =
      events.foldl addInkOf (b.editTexts Text.ink?) := by
  induction events generalizing b with
  | nil => rfl
  | cons e events ih =>
    rw [List.forall_mem_cons] at hevents
    rw [List.foldl_cons, List.foldl_cons, ih hevents.2 (isTidy_add hb hevents.1),
      editTexts_add hb.areTidy_nodes.textsApart]

end Builder

namespace Node

/-- The tree of a markup without its blanks is built without looking at them. -/
theorem editTexts_parse (keepWhitespace : Bool) (markup : Text) :
    (parse keepWhitespace markup).editTexts Text.ink? =
      some (document ((Event.scan markup).foldl Builder.addInkOf Builder.empty).finish) := by
  rw [parse, editTexts_document, parseAll, Builder.filterMap_finish,
    Builder.editTexts_foldl (Event.isProper_of_mem_scan markup) Builder.isTidy_empty]
  rfl

/-- **Whether blanks are kept decides about blanks only.** With all blanks deleted from all texts,
and then the texts that are empty removed, the tree that is read with blanks kept and the one that
is read with texts of blanks dropped are the same document. -/
theorem exists_editTexts_parse (markup : Text) :
    ∃ nodes, (parse true markup).editTexts Text.ink? = some (document nodes) ∧
      (parse false markup).editTexts Text.ink? = some (document nodes) :=
  ⟨_, editTexts_parse true markup, editTexts_parse false markup⟩

end Node

end MarkupQuery
