import Mathlib.Data.List.Chain
import MarkupQuery.Proofs.Markup.Scanning
import MarkupQuery.Proofs.Markup.Texts

/-!
# Markup that is read back

Reading undoes writing on every tree that markup can describe. A node is read back wherever it
stands: it becomes the last node below the innermost open element, and what is open around it and
what follows it stay as they are. For an element this takes its children, read below the element
itself, and then the end tag, which closes the element and nothing else. When blanks are not kept,
the same is read back but for the texts that are nothing but blanks.

## Main definitions

* `Node.IsReadable`: the nodes that markup can describe
* `Node.TextsApart`: no text follows another
* `Builder.read`: a tree under construction after a text
* `Node.ReadsBack`: a node is added to the tree wherever it is written

## Main results

* `Node.readsBack_of_isReadable`: the nodes that markup can describe are read back
* `Node.parseAll_flatMap_renderIn_eq_filterMap`, `Node.parseAll_flatMap_renderIn`: they are all that
  is read when nothing else is written
* `Node.parse_render`: a written document is read back
-/

namespace MarkupQuery

open CodeUnit

/-! ## Nodes that can be written -/

namespace Node

/-- Whether a node is a text. -/
def IsText : Node → Prop
  | text _ => True
  | _ => False

/-- No text follows another. -/
def TextsApart (nodes : List Node) : Prop := nodes.IsChain fun m n => ¬ (m.IsText ∧ n.IsText)

/-- The nodes that markup can describe. A void element has no children, and a raw element has one,
a text without an end tag for the element. Names are in lower case, and every text outside raw
elements has a unit at least. -/
inductive IsReadable : Node → Prop
  | text {value : Text} (hvalue : value ≠ []) : IsReadable (text value)
  | void {tag : Text} {attributes : List Attribute} (htag : Tag.IsVoidName tag)
      (hattributes : Attribute.AreArranged attributes) : IsReadable (element tag attributes [])
  | raw {tag : Text} {attributes : List Attribute} {body : Text} (htag : Tag.IsRawName tag)
      (hattributes : Attribute.AreArranged attributes)
      (hbody : ∀ t, EndTag.IsWritten tag t → ¬ t <:+: body) :
      IsReadable (element tag attributes [.text body])
  | element {tag : Text} {attributes : List Attribute} {children : List Node}
      (hname : tag.IsNameOf lowerLetters lowerNameUnits) (hvoid : ¬ Tag.IsVoidName tag)
      (hraw : ¬ Tag.IsRawName tag) (hattributes : Attribute.AreArranged attributes)
      (hchildren : ∀ n ∈ children, IsReadable n) (hapart : TextsApart children) :
      IsReadable (element tag attributes children)

end Node

/-! ## Reading into a tree -/

namespace Builder

/-- The tree after the events of a text. -/
def read (keepWhitespace : Bool) (b : Builder) (markup : Text) : Builder :=
  (Event.scan markup).foldl (add keepWhitespace) b

variable {keepWhitespace : Bool} {b : Builder} {tag : Text} {attributes : List Attribute}

theorem read_nil (b : Builder) : b.read keepWhitespace [] = b := by
  rw [read, Event.scan]
  rfl

theorem read_of_scan {markup rest : Text} {e : Event}
    (h : Event.scan markup = e :: Event.scan rest) :
    b.read keepWhitespace markup = (b.add keepWhitespace e).read keepWhitespace rest := by
  rw [read, h, List.foldl_cons, read]

/-- A text is dropped, or not, whether or not it is escaped. -/
theorem drops_escaped (keepWhitespace : Bool) (value : Text) :
    drops keepWhitespace value.escaped = drops keepWhitespace value := by
  rw [drops, drops, Text.isBlank_escaped]

/-- A text becomes a node of its own when it follows no other. -/
theorem addText_of_not_isText {nodes : List Node} (h : ∀ n ∈ nodes.head?, ¬ n.IsText)
    (outer : List OpenElement) (value : Text) :
    (⟨nodes, outer⟩ : Builder).addText value = ⟨.text value :: nodes, outer⟩ := by
  cases nodes with
  | nil => rfl
  | cons n nodes =>
    cases n with
    | document _ => rfl
    | element _ _ _ => rfl
    | text _ => exact absurd trivial (h _ rfl)

/-- A text that is not dropped becomes a node of its own unless it follows another. -/
theorem read_text {value : Text} (hvalue : value ≠ [])
    (hapart : Node.TextsApart (b.nodes.take 1 ++ [.text value])) {rest : Text}
    (hrest : Text.StopsAt (· != lessThan) rest) :
    b.read keepWhitespace (value.escaped ++ rest) =
      (⟨((kept keepWhitespace value).map Node.text).toList ++ b.nodes, b.outer⟩ : Builder).read
        keepWhitespace rest := by
  rw [read_of_scan (Event.scan_text (Text.escaped_ne_nil hvalue)
    (Text.notMem_escaped (Or.inl rfl) value) hrest), add, drops_escaped, kept_eq]
  split
  · rfl
  · have hhead : ∀ n ∈ b.nodes.head?, ¬ n.IsText := by
      intro n hn htext
      obtain ⟨nodes, hnodes⟩ := List.head?_eq_some_iff.mp hn
      rw [hnodes] at hapart
      exact (List.isChain_cons_cons.mp hapart).1 ⟨htext, trivial⟩
    rw [Text.decoded_escaped, addText_of_not_isText hhead b.outer]
    rfl

/-- The start tag of a void element adds the element. -/
theorem read_void (htag : Tag.isVoid tag = true)
    (hattributes : Attribute.AreArranged attributes) (rest : Text) :
    b.read keepWhitespace (Node.openTag tag attributes ++ rest) =
      (⟨.element tag attributes [] :: b.nodes, b.outer⟩ : Builder).read keepWhitespace rest := by
  obtain ⟨hname, hlower⟩ := Tag.isName_of_known (Or.inl htag)
  -- Without a slash it is the name alone that closes the element.
  have hclosed : StartTag.isClosed ⟨tag, attributes, false⟩ = true := htag
  rw [read_of_scan (Event.scan_startTag hname hlower hattributes
    (by rw [StartTag.opensRaw, hclosed]; rfl) rest), add, if_pos hclosed]
  rfl

/-- A raw element is added as a whole, with its body unless that is dropped. -/
theorem read_raw {body : Text} (htag : Tag.isRaw tag = true)
    (hattributes : Attribute.AreArranged attributes)
    (hbody : ∀ t, EndTag.IsWritten tag t → ¬ t <:+: body) (rest : Text) :
    b.read keepWhitespace (Node.openTag tag attributes ++ (body ++ (Node.closeTag tag ++ rest))) =
      (⟨.element tag attributes ((kept keepWhitespace body).map Node.text).toList :: b.nodes,
        b.outer⟩ : Builder).read keepWhitespace rest := by
  have hvoid : Tag.isVoid tag = false := Tag.isVoid_of_isRaw htag
  have hopens : StartTag.opensRaw ⟨tag, attributes, false⟩ = true := by
    rw [StartTag.opensRaw, StartTag.isClosed, hvoid, htag]
    rfl
  rw [read_of_scan (Event.scan_raw hopens hattributes hbody rest), add, kept_eq]
  split <;> rfl

/-- The start tag of any other element opens it. -/
theorem read_openTag (hname : Tag.isName tag = true) (hlower : tag.IsLowerCase)
    (hvoid : Tag.isVoid tag = false) (hraw : Tag.isRaw tag = false)
    (hattributes : Attribute.AreArranged attributes) (rest : Text) :
    b.read keepWhitespace (Node.openTag tag attributes ++ rest) =
      (⟨[], ⟨tag, attributes, b.nodes⟩ :: b.outer⟩ : Builder).read keepWhitespace rest := by
  have hclosed : StartTag.isClosed ⟨tag, attributes, false⟩ = false := hvoid
  rw [read_of_scan (Event.scan_startTag hname hlower hattributes
    (by rw [StartTag.opensRaw, hraw, Bool.and_false]) rest), add, if_neg (by rw [hclosed]; decide)]
  rfl

/-- The end tag of the innermost open element closes it. -/
theorem read_closeTag (hname : Tag.isName tag = true) (hlower : tag.IsLowerCase)
    (nodes before : List Node) (outer : List OpenElement) (rest : Text) :
    (⟨nodes, ⟨tag, attributes, before⟩ :: outer⟩ : Builder).read keepWhitespace
        (Node.closeTag tag ++ rest) =
      (⟨.element tag attributes nodes.reverse :: before, outer⟩ : Builder).read keepWhitespace
        rest := by
  rw [read_of_scan (Event.scan_endTag hname hlower rest), add, close]
  simp [closeThrough, closed]

end Builder

/-! ## Written nodes -/

namespace Node

variable {keepWhitespace : Bool}

/-- The node is added to the tree wherever it is written, without the texts in it that are dropped.
A text must not follow another text in the tree, nor go on into what is written after it. -/
def ReadsBack (keepWhitespace : Bool) (n : Node) : Prop :=
  ∀ (b : Builder) (rest : Text), TextsApart (b.nodes.take 1 ++ [n]) →
    (n.IsText → Text.StopsAt (· != lessThan) rest) →
      b.read keepWhitespace (n.renderIn false ++ rest) =
        (⟨(n.editTexts (Builder.kept keepWhitespace)).toList ++ b.nodes, b.outer⟩ : Builder).read
          keepWhitespace rest

/-- A node that is left in an edited tree is a text when it was one. -/
theorem isText_of_editTexts {edit : Text → Option Text} {n m : Node}
    (h : n.editTexts edit = some m) : m.IsText ↔ n.IsText := by
  cases n with
  | document children =>
    rw [editTexts_document] at h
    obtain rfl := Option.some.inj h
    rfl
  | element tag attributes children =>
    rw [editTexts_element] at h
    obtain rfl := Option.some.inj h
    rfl
  | text value =>
    rw [editTexts_text] at h
    obtain ⟨w, -, rfl⟩ := Option.map_eq_some_iff.mp h
    rfl

/-- Only texts are removed from an edited tree. -/
theorem isText_of_editTexts_eq_none {edit : Text → Option Text} {n : Node}
    (h : n.editTexts edit = none) : n.IsText := by
  cases n with
  | document children =>
    rw [editTexts_document] at h
    contradiction
  | element tag attributes children =>
    rw [editTexts_element] at h
    contradiction
  | text value => trivial

/-- Texts that are apart stay apart when one is edited, and also when one is removed: what stands
before it is none. -/
theorem TextsApart.editTexts {n : Node} {before nodes : List Node}
    (h : TextsApart (before.take 1 ++ n :: nodes)) (edit : Text → Option Text) :
    TextsApart (((n.editTexts edit).toList ++ before).take 1 ++ nodes) := by
  have hright : TextsApart (n :: nodes) := h.right_of_append
  obtain ⟨hhead, hnodes⟩ := List.isChain_cons.mp hright
  cases hedit : n.editTexts edit with
  | some m =>
    apply List.isChain_cons.mpr
    refine ⟨fun k hk hpair => ?_, hnodes⟩
    exact hhead k hk ⟨(isText_of_editTexts hedit).mp hpair.1, hpair.2⟩
  | none =>
    cases before with
    | nil => exact hnodes
    | cons m before =>
      apply List.isChain_cons.mpr
      refine ⟨fun k _ hpair => ?_, hnodes⟩
      have hm := (List.isChain_cons_cons.mp h).1
      exact hm ⟨hpair.1, isText_of_editTexts_eq_none hedit⟩

/-- Any other node than a text begins with a bracket. -/
theorem stopsAt_renderIn {n : Node} (htext : ¬ n.IsText) (hn : n.IsReadable) (rest : Text) :
    Text.StopsAt (· != lessThan) (n.renderIn false ++ rest) := by
  cases hn with
  | text hvalue => exact absurd trivial htext
  | _ =>
    rw [renderIn_element, openTag_eq]
    exact Text.stopsAt_cons.mpr (by decide)

/-- Nodes that are read back are read back one after the other. -/
theorem read_flatMap {nodes : List Node} (hnodes : ∀ n ∈ nodes, n.IsReadable)
    (hback : ∀ n ∈ nodes, n.ReadsBack keepWhitespace) (b : Builder)
    (hapart : TextsApart (b.nodes.take 1 ++ nodes)) {rest : Text}
    (hrest : Text.StopsAt (· != lessThan) rest) :
    b.read keepWhitespace (nodes.flatMap (renderIn false) ++ rest) =
      (⟨(nodes.filterMap (editTexts (Builder.kept keepWhitespace))).reverse ++ b.nodes,
        b.outer⟩ : Builder).read keepWhitespace rest := by
  induction nodes generalizing b with
  | nil => rfl
  | cons n nodes ih =>
    rw [List.forall_mem_cons] at hnodes hback
    have hsplit : b.nodes.take 1 ++ n :: nodes = (b.nodes.take 1 ++ [n]) ++ nodes := by simp
    -- After a text comes a node that is none, or what follows all nodes.
    have hnext : n.IsText →
        Text.StopsAt (· != lessThan) (nodes.flatMap (renderIn false) ++ rest) := by
      intro hn
      cases nodes with
      | nil => exact hrest
      | cons m nodes =>
        have hm : ¬ m.IsText := by
          intro hm
          exact (List.isChain_cons_cons.mp hapart.right_of_append).1 ⟨hn, hm⟩
        rw [List.flatMap_cons, List.append_assoc]
        exact stopsAt_renderIn hm (hnodes.2 m List.mem_cons_self) _
    rw [List.flatMap_cons, List.append_assoc, hback.1 b _ ?_ hnext,
      ih hnodes.2 hback.2 _ (hapart.editTexts _)]
    · cases hedit : n.editTexts (Builder.kept keepWhitespace) with
      | none => rw [List.filterMap_cons_none hedit, Option.toList_none, List.nil_append]
      | some m =>
        rw [List.filterMap_cons_some hedit, Option.toList_some, List.reverse_cons,
          List.append_assoc]
    · rw [hsplit] at hapart
      exact hapart.left_of_append

/-- **The nodes that markup can describe are read back**, whatever is open around them and whatever
follows. -/
theorem readsBack_of_isReadable {n : Node} (hn : n.IsReadable) : n.ReadsBack keepWhitespace := by
  induction hn with
  | text hvalue =>
    intro b rest hapart hrest
    rw [renderIn_text, editTexts_text]
    exact Builder.read_text hvalue hapart (hrest trivial)
  | void htag hattributes =>
    intro b rest _ _
    have htag := Tag.isVoid_iff.mpr htag
    rw [renderIn_element, if_pos htag, List.append_nil, editTexts_element]
    exact Builder.read_void htag hattributes rest
  | raw htag hattributes hbody =>
    intro b rest _ _
    have htag := Tag.isRaw_iff.mpr htag
    rw [renderIn_element, if_neg (by rw [Tag.isVoid_of_isRaw htag]; decide), htag,
      List.flatMap_singleton, renderIn_text, List.append_assoc, List.append_assoc,
      editTexts_element, ← editAllTexts_eq_filterMap, editAllTexts, editTexts_text, editAllTexts,
      List.append_nil]
    exact Builder.read_raw htag hattributes hbody rest
  | @element tag _ _ hname hvoid hraw hattributes hchildren hapart ih =>
    intro b rest _ _
    obtain ⟨hname, hlower⟩ := Tag.isNameOf_lower_iff.mp hname
    have hvoid := Tag.isVoid_eq_false_iff.mpr hvoid
    have hraw := Tag.isRaw_eq_false_iff.mpr hraw
    have hclose : Text.StopsAt (· != lessThan) (closeTag tag ++ rest) := by
      rw [closeTag_eq]
      exact Text.stopsAt_cons.mpr (by decide)
    rw [renderIn_element, if_neg (by rw [hvoid]; decide), hraw, List.append_assoc,
      List.append_assoc, editTexts_element]
    -- The element is opened, its children are read below it, and its end tag closes it.
    rw [Builder.read_openTag hname hlower hvoid hraw hattributes,
      read_flatMap hchildren ih ⟨[], _⟩ hapart hclose, List.append_nil,
      Builder.read_closeTag hname hlower, List.reverse_reverse, Option.toList_some,
      List.singleton_append]

/-- Readable nodes, but for the texts that are dropped, are all that is read when nothing is open
around them and nothing follows. -/
theorem parseAll_flatMap_renderIn_eq_filterMap {nodes : List Node}
    (hnodes : ∀ n ∈ nodes, n.IsReadable) (hapart : TextsApart nodes) :
    parseAll keepWhitespace (nodes.flatMap (renderIn false)) =
      nodes.filterMap (editTexts (Builder.kept keepWhitespace)) := by
  have hback : ∀ n ∈ nodes, n.ReadsBack keepWhitespace :=
    fun n hn => readsBack_of_isReadable (hnodes n hn)
  have hread := read_flatMap hnodes hback Builder.empty hapart Text.stopsAt_nil
  rw [List.append_nil, Builder.read_nil] at hread
  -- No element is left open, so that closing what is open changes nothing.
  refine (congrArg Builder.finish hread).trans ?_
  simp [Builder.finish, Builder.closeThrough, Builder.empty]

/-- With blanks kept, readable nodes are read back as they are. -/
theorem parseAll_flatMap_renderIn {nodes : List Node} (hnodes : ∀ n ∈ nodes, n.IsReadable)
    (hapart : TextsApart nodes) : parseAll true (nodes.flatMap (renderIn false)) = nodes := by
  rw [parseAll_flatMap_renderIn_eq_filterMap hnodes hapart, Builder.kept_true,
    ← editAllTexts_eq_filterMap, editAllTexts_some]

/-- **A written document is read back**: the same tags, attributes and texts in the same places. -/
theorem parse_render {nodes : List Node} (hnodes : ∀ n ∈ nodes, n.IsReadable)
    (hapart : TextsApart nodes) : parse true (document nodes).render = document nodes := by
  rw [parse, render_document, parseAll_flatMap_renderIn hnodes hapart]

/-- A paragraph, the text of which has to be escaped, and a script, the text of which has not. -/
theorem parse_render_paragraph :
    parse true (document [element "p" [⟨"id", "a"⟩] [text "1 < 2"],
        element "script" [] [text "1 & 2"]]).render =
      document [element "p" [⟨"id", "a"⟩] [text "1 < 2"], element "script" [] [text "1 & 2"]] := by
  have hparagraph : IsReadable (element "p" [⟨"id", "a"⟩] [text "1 < 2"]) := by
    have hname : Text.IsNameOf "p" lowerLetters lowerNameUnits :=
      Text.isNameOf_cons_iff.mpr ⟨by decide, nofun⟩
    refine .element hname (by decide) (by decide) ⟨?_, ?_, ?_⟩ ?_ ?_
    · intro a ha
      rw [List.mem_singleton] at ha
      subst ha
      decide
    · exact List.nodup_cons.mpr ⟨List.not_mem_nil, List.nodup_nil⟩
    · exact List.pairwise_singleton _ _
    · intro n hn
      rw [List.mem_singleton] at hn
      subst hn
      exact .text (by decide)
    · exact List.isChain_singleton _
  have hscript : IsReadable (element "script" [] [text "1 & 2"]) := by
    refine .raw (by decide) ⟨nofun, List.nodup_nil, List.Pairwise.nil⟩ ?_
    intro t ht hpart
    -- An end tag has a bracket, and the text of the script has none.
    obtain ⟨rest, rfl, -⟩ := ht.exists_cons (by decide) (by decide)
    exact absurd (hpart.subset List.mem_cons_self) (by decide)
  refine parse_render ?_ ?_
  · intro n hn
    rw [List.mem_pair] at hn
    rcases hn with rfl | rfl
    · exact hparagraph
    · exact hscript
  · exact List.isChain_cons_cons.mpr ⟨fun h => h.1, List.isChain_singleton _⟩

end Node

end MarkupQuery
