import Mathlib.Data.List.Basic
import MarkupQuery.Proofs.Markup.Render
import MarkupQuery.Proofs.Markup.Texts

/-!
# The content of a tree

Whatever end tags are missing, stray or crossing, a tree has exactly what its markup has, in the
same order: one element for each start tag, and the units of all texts that are not dropped. While
the tree is built the open elements are a path along its end, so that what is read next comes last
in the pre-order of the tree, wherever elements have been closed before.

## Main definitions

* `StartTag.ofToken?`, `StartTag.OpensRaw`: the start tag that a token is, and whether it opens a
  raw element
* `Event.contents`: the text that an event gives, told from its token
* `Node.preorder`: a node and all nodes below it, parents first
* `Piece`, `Node.pieces`, `Event.pieces`: start tags and units of text, in order
* `Builder.pieces`: the pieces of a tree under construction

## Main results

* `Event.agrees_of_mem_scan`: an event is what its token says
* `Builder.pieces_closeThrough`: closing elements moves no piece
* `Builder.pieces_add`: an event puts its pieces after all others
* `Node.pieces_parse`: the pieces of a tree are those of its markup
* `Node.preorder_parse`: so are its elements, and so are its texts
-/

namespace MarkupQuery

open CodeUnit

/-! ## Tokens -/

namespace StartTag

/-- The start tag that a token is: it begins with `<` and a letter, and ends with `>`. -/
def ofToken? : Text → Option StartTag
  | [] => none
  | c :: rest =>
    if c = '<' ∧ rest.getLast? = some ('>' : CodeUnit) then read? rest.dropLast else none

theorem ofToken?_written (inside : Text) :
    ofToken? (lessThan :: inside ++ [greaterThan]) = read? inside := by
  rw [List.cons_append, ofToken?, List.getLast?_concat, List.dropLast_concat, if_pos ⟨rfl, rfl⟩]

/-- What begins with no letter is no start tag. -/
theorem ofToken?_written_of_not_isAlpha {c : CodeUnit} (hc : c.isAlpha = false) (rest : Text) :
    ofToken? (lessThan :: (c :: rest) ++ [greaterThan]) = none := by
  rw [ofToken?_written, read?, if_neg]
  rw [List.head?_cons, Option.any_some, hc]
  exact Bool.false_ne_true

/-- The tag opens an element whose body is not markup: it has the name of one, and no slash. -/
def OpensRaw (tag : StartTag) : Prop := tag.selfClosing = false ∧ Tag.IsRawName tag.name

instance : DecidablePred OpensRaw := fun _ => inferInstanceAs (Decidable (_ ∧ _))

theorem opensRaw_iff {tag : StartTag} : tag.opensRaw = true ↔ tag.OpensRaw := by
  rw [opensRaw, isClosed, OpensRaw, ← Tag.isRaw_iff, Bool.and_eq_true, Bool.not_eq_true',
    Bool.or_eq_false_iff]
  exact ⟨fun h => ⟨h.1.1, h.2⟩, fun h => ⟨⟨h.1, Tag.isVoid_of_isRaw h.2⟩, h.2⟩⟩

end StartTag

namespace Event

/-- The tag, the text or whatever else an event begins with, as it is written. -/
def token : Event → Text
  | ignored written => written
  | text written => written
  | endTag written _ => written
  | startTag written _ => written
  | raw written _ _ _ => written

/-- The body that follows the token, of which there is none but in a raw element. -/
def body : Event → Text
  | raw _ _ body _ => body
  | _ => []

/-- Whether a token is an end tag, or a comment or something else that is passed over: it begins
with `</`, `<!` or `<?`. -/
def skips : Text → Bool
  | c :: d :: _ => c == '<' && (d == '/' || d == '!' || d == '?')
  | _ => false

/-- The text that an event gives: what is left of the body of a raw element, as it is written, and
of any token that is no tag, with its references decoded. -/
def contents (keepWhitespace : Bool) (e : Event) : Text :=
  match StartTag.ofToken? e.token with
  | some tag => if tag.OpensRaw then e.body.left keepWhitespace else []
  | none => if skips e.token then [] else (e.token.left keepWhitespace).decoded

/-- The event is what its token says. -/
def Agrees : Event → Prop
  | ignored written => skips written = true ∧ StartTag.ofToken? written = none
  | text written => skips written = false ∧ StartTag.ofToken? written = none
  | endTag written _ => skips written = true ∧ StartTag.ofToken? written = none
  | startTag written tag => StartTag.ofToken? written = some tag ∧ ¬ tag.OpensRaw
  | raw written tag _ _ => StartTag.ofToken? written = some tag ∧ tag.OpensRaw

theorem agrees_ofStartTag {written : Text} {tag : StartTag}
    (h : StartTag.ofToken? written = some tag) (after : Text) :
    (ofStartTag written tag after).1.Agrees := by
  unfold ofStartTag
  split
  · next hraw => exact ⟨h, StartTag.opensRaw_iff.mp hraw⟩
  · next hraw => exact ⟨h, mt StartTag.opensRaw_iff.mpr hraw⟩

theorem agrees_ofTag (inside after : Text) : (ofTag inside after).1.Agrees := by
  unfold ofTag
  split
  · exact ⟨rfl, StartTag.ofToken?_written []⟩
  · next c rest =>
    split
    · next hc =>
      refine ⟨?_, StartTag.ofToken?_written_of_not_isAlpha ?_ rest⟩
      · obtain rfl | rfl := hc <;> rfl
      · obtain rfl | rfl := hc <;> rfl
    · next hc =>
      split
      · next hslash =>
        subst hslash
        exact ⟨rfl, StartTag.ofToken?_written_of_not_isAlpha rfl rest⟩
      · next hslash =>
        split
        · next tag htag =>
          exact agrees_ofStartTag ((StartTag.ofToken?_written _).trans htag) after
        · next hnone =>
          refine ⟨?_, (StartTag.ofToken?_written _).trans hnone⟩
          rw [not_or] at hc
          simp [skips, hslash, hc.1, hc.2]

/-- A comment begins with `<!`. -/
theorem agrees_comment {t inner after : Text} (h : comment? t = some (inner, after)) :
    (ignored (lessThan :: inner)).Agrees := by
  simp only [comment?, Option.bind_eq_bind, Option.bind_eq_some_iff] at h
  obtain ⟨body, -, ⟨inner', after'⟩, -, heq⟩ := h
  obtain ⟨rfl, -⟩ := Prod.mk.inj (Option.some.inj heq)
  have hclosing : ("!--" : Text) ++ inner' ++ "-->" = "!--" ++ inner' ++ "--" ++ [greaterThan] :=
    (List.append_assoc _ "--" [greaterThan]).symm
  refine ⟨rfl, ?_⟩
  rw [hclosing]
  exact StartTag.ofToken?_written_of_not_isAlpha rfl _

/-- What does not begin with `<` is a text. -/
theorem skips_of_ne {c : CodeUnit} (hc : c ≠ lessThan) (rest : Text) :
    skips (c :: rest) = false := by
  cases rest with
  | nil => rfl
  | cons d rest =>
    have hbeq : (c == '<') = false := beq_false_of_ne hc
    rw [skips, hbeq, Bool.false_and]

/-- The event at the start of a text is what its token says, whatever the text. -/
theorem agrees_read (c : CodeUnit) (rest : Text) : (read c rest).1.Agrees := by
  unfold read
  split
  · next hc =>
    split
    · next inner after hcomment =>
      subst hc
      exact agrees_comment hcomment
    · split
      · exact agrees_ofTag _ _
      · subst hc
        exact ⟨rfl, rfl⟩
  · next hc =>
    refine ⟨skips_of_ne hc _, ?_⟩
    rw [StartTag.ofToken?, if_neg fun h => hc h.1]

/-- **Every event of a text is what its token says.** -/
theorem agrees_of_mem_scan (t : Text) : ∀ e ∈ scan t, e.Agrees := by
  fun_induction scan t with
  | case1 => exact List.forall_mem_nil _
  | case2 c rest ih => exact List.forall_mem_cons.mpr ⟨agrees_read c rest, ih⟩

end Event

/-! ## Pieces -/

/-- What the content of a markup is made of. -/
inductive Piece where
  /-- A start tag, or an element. -/
  | opened (tag : Text) (attributes : List Attribute)
  /-- A unit of a text. -/
  | unit (c : CodeUnit)
  deriving DecidableEq, Repr

namespace Piece

/-- The tag and the attributes of a start tag. -/
def opened? : Piece → Option (Text × List Attribute)
  | opened tag attributes => some (tag, attributes)
  | unit _ => none

def unit? : Piece → Option CodeUnit
  | opened _ _ => none
  | unit c => some c

/-- A start tag, if there is one, and the units of a text after it. -/
def list (tag : Option (Text × List Attribute)) (value : Text) : List Piece :=
  tag.toList.map (fun (name, attributes) => opened name attributes) ++ value.map unit

theorem filterMap_opened?_list (tag : Option (Text × List Attribute)) (value : Text) :
    (list tag value).filterMap opened? = tag.toList := by
  have hunits : (value.map unit).filterMap opened? = [] := by
    rw [List.filterMap_map, List.filterMap_eq_nil_iff]
    exact fun _ _ => rfl
  rw [list, List.filterMap_append, hunits, List.append_nil]
  cases tag <;> rfl

theorem filterMap_unit?_list (tag : Option (Text × List Attribute)) (value : Text) :
    (list tag value).filterMap unit? = value := by
  have hunits : (value.map unit).filterMap unit? = value := by
    rw [List.filterMap_map]
    exact List.filterMap_some
  rw [list, List.filterMap_append, hunits]
  cases tag <;> rfl

variable {α : Type} (tag : α → Option (Text × List Attribute)) (value : α → Text) (xs : List α)

theorem filterMap_opened?_flatMap :
    (xs.flatMap fun x => list (tag x) (value x)).filterMap opened? = xs.filterMap tag := by
  rw [List.filterMap_flatMap, List.filterMap_eq_flatMap_toList]
  simp only [filterMap_opened?_list]

theorem filterMap_unit?_flatMap :
    (xs.flatMap fun x => list (tag x) (value x)).filterMap unit? = xs.flatMap value := by
  rw [List.filterMap_flatMap]
  simp only [filterMap_unit?_list]

end Piece

namespace Node

mutual

/-- A node and all nodes below it, parents first and children in order. -/
def preorder : Node → List Node
  | document children => document children :: preorderAll children
  | element tag attributes children => element tag attributes children :: preorderAll children
  | text value => [text value]

/-- Nodes and all nodes below them, one after the other. -/
def preorderAll : List Node → List Node
  | [] => []
  | n :: rest => preorder n ++ preorderAll rest

end

/-- The tag and the attributes of an element. -/
def opened? : Node → Option (Text × List Attribute)
  | element tag attributes _ => some (tag, attributes)
  | _ => none

/-- The text of a node itself. -/
def ownText : Node → Text
  | text value => value
  | _ => []

/-- The pieces of a node and of those below it, in pre-order. -/
def pieces (n : Node) : List Piece := n.preorder.flatMap fun n => Piece.list n.opened? n.ownText

theorem preorderAll_eq_flatMap (nodes : List Node) :
    preorderAll nodes = nodes.flatMap preorder := by
  induction nodes with
  | nil => rfl
  | cons n nodes ih => rw [preorderAll, ih, List.flatMap_cons]

theorem flatMap_preorderAll (nodes : List Node) :
    ((preorderAll nodes).flatMap fun n => Piece.list n.opened? n.ownText) =
      nodes.flatMap pieces := by
  rw [preorderAll_eq_flatMap, List.flatMap_assoc]
  rfl

@[simp] theorem pieces_text (value : Text) : (text value).pieces = value.map .unit :=
  List.flatMap_singleton _ _

@[simp] theorem pieces_document (children : List Node) :
    (document children).pieces = children.flatMap pieces := by
  rw [pieces, preorder, List.flatMap_cons, flatMap_preorderAll]
  rfl

@[simp] theorem pieces_element (tag : Text) (attributes : List Attribute) (children : List Node) :
    (element tag attributes children).pieces =
      .opened tag attributes :: children.flatMap pieces := by
  rw [pieces, preorder, List.flatMap_cons, flatMap_preorderAll]
  rfl

end Node

namespace Event

variable {keepWhitespace : Bool} {e : Event}

/-- The tag and the attributes of the start tag that an event is. -/
def opened? (e : Event) : Option (Text × List Attribute) :=
  (StartTag.ofToken? e.token).map fun tag => (tag.name, tag.attributes)

/-- The pieces of an event. -/
def pieces (keepWhitespace : Bool) (e : Event) : List Piece :=
  Piece.list e.opened? (e.contents keepWhitespace)

theorem pieces_of_skips (hskips : skips e.token = true) (htag : StartTag.ofToken? e.token = none) :
    e.pieces keepWhitespace = [] := by
  simp [pieces, opened?, contents, htag, hskips, Piece.list]

theorem pieces_of_text (hskips : skips e.token = false) (htag : StartTag.ofToken? e.token = none) :
    e.pieces keepWhitespace = (e.token.left keepWhitespace).decoded.map .unit := by
  simp [pieces, opened?, contents, htag, hskips, Piece.list]

theorem pieces_of_tag {tag : StartTag} (htag : StartTag.ofToken? e.token = some tag) :
    e.pieces keepWhitespace = .opened tag.name tag.attributes ::
      (if tag.OpensRaw then e.body.left keepWhitespace else []).map .unit := by
  simp [pieces, opened?, contents, htag, Piece.list]

end Event

/-! ## The tree under construction -/

namespace Builder

/-- The pieces along the open elements: for each, from the outermost on, those of the nodes before
it and then its own. -/
def path : List OpenElement → List Piece
  | [] => []
  | e :: outer => path outer ++ e.before.reverse.flatMap Node.pieces ++ [.opened e.tag e.attributes]

/-- The pieces of a tree under construction, in pre-order. -/
def pieces (b : Builder) : List Piece := path b.outer ++ b.nodes.reverse.flatMap Node.pieces

variable {keepWhitespace : Bool} {b : Builder}

theorem flatMap_pieces_closed (e : OpenElement) (nodes : List Node) :
    (closed e nodes).reverse.flatMap Node.pieces =
      e.before.reverse.flatMap Node.pieces ++ [.opened e.tag e.attributes] ++
        nodes.reverse.flatMap Node.pieces := by
  rw [closed, List.reverse_cons, List.flatMap_append, List.flatMap_singleton, Node.pieces_element,
    List.append_assoc, List.singleton_append]

/-- **Closing elements moves no piece**, however many are closed. -/
theorem pieces_closeThrough (isLast : OpenElement → Bool) (nodes : List Node)
    (outer : List OpenElement) :
    (closeThrough isLast nodes outer).pieces = pieces ⟨nodes, outer⟩ := by
  induction outer generalizing nodes with
  | nil => rfl
  | cons e outer ih =>
    have hclosed : pieces ⟨closed e nodes, outer⟩ = pieces ⟨nodes, e :: outer⟩ := by
      simp only [pieces, path, flatMap_pieces_closed, List.append_assoc]
    unfold closeThrough
    split
    · exact hclosed
    · exact (ih _).trans hclosed

theorem pieces_close (b : Builder) (name : Text) : (b.close name).pieces = b.pieces := by
  unfold close
  split
  · exact pieces_closeThrough _ b.nodes b.outer
  · rfl

/-- In the end no element is open. -/
theorem outer_closeThrough_false (nodes : List Node) (outer : List OpenElement) :
    (closeThrough (fun _ => false) nodes outer).outer = [] := by
  induction outer generalizing nodes with
  | nil => rfl
  | cons e outer ih => exact ih (closed e nodes)

theorem flatMap_pieces_finish (b : Builder) : b.finish.flatMap Node.pieces = b.pieces := by
  have hpieces := pieces_closeThrough (fun _ => false) b.nodes b.outer
  rw [pieces, outer_closeThrough_false] at hpieces
  exact hpieces

theorem pieces_addText (b : Builder) (value : Text) :
    (b.addText value).pieces = b.pieces ++ value.map .unit := by
  obtain ⟨nodes, outer⟩ := b
  unfold addText
  split
  · next before rest heq =>
    obtain rfl : nodes = .text before :: rest := heq
    simp [pieces]
  · simp [pieces]

theorem pieces_addElement (b : Builder) (tag : StartTag) (children : List Node) :
    (b.addElement tag children).pieces =
      b.pieces ++ .opened tag.name tag.attributes :: children.flatMap Node.pieces := by
  simp [addElement, pieces]

theorem pieces_openElement (b : Builder) (tag : StartTag) :
    (b.openElement tag).pieces = b.pieces ++ [.opened tag.name tag.attributes] := by
  simp [openElement, pieces, path]

/-- **An event puts its pieces after all others.** -/
theorem pieces_add (b : Builder) {e : Event} (he : e.Agrees) :
    (b.add keepWhitespace e).pieces = b.pieces ++ e.pieces keepWhitespace := by
  cases e with
  | ignored written =>
    rw [Event.pieces_of_skips (e := .ignored written) he.1 he.2, List.append_nil]
    rfl
  | text written =>
    rw [Event.pieces_of_text (e := .text written) he.1 he.2, add, Event.token]
    split
    · next hdrops => rw [Text.left_of_drops hdrops, Text.decoded, List.map_nil, List.append_nil]
    · next hdrops =>
      rw [Text.left_of_not_drops hdrops]
      exact pieces_addText b _
  | endTag written name =>
    rw [Event.pieces_of_skips (e := .endTag written name) he.1 he.2, List.append_nil]
    cases name with
    | none => rfl
    | some name => exact pieces_close b name
  | startTag written tag =>
    rw [Event.pieces_of_tag (e := .startTag written tag) he.1, if_neg he.2, add]
    split
    · exact pieces_addElement b tag []
    · exact pieces_openElement b tag
  | raw written tag body closing =>
    rw [Event.pieces_of_tag (e := .raw written tag body closing) he.1, if_pos he.2, add,
      pieces_addElement, Event.body]
    -- The body is the only text of its element, unless it is dropped.
    split
    · next hdrops =>
      rw [Text.left_of_drops hdrops]
      rfl
    · next hdrops =>
      rw [Text.left_of_not_drops hdrops, List.flatMap_singleton, Node.pieces_text]

/-- Along events, their pieces come in the order of the events. -/
theorem pieces_foldl {events : List Event} (hevents : ∀ e ∈ events, e.Agrees) (b : Builder) :
    (events.foldl (add keepWhitespace) b).pieces =
      b.pieces ++ events.flatMap (Event.pieces keepWhitespace) := by
  induction events generalizing b with
  | nil => exact (List.append_nil _).symm
  | cons e events ih =>
    rw [List.forall_mem_cons] at hevents
    rw [List.foldl_cons, ih hevents.2, pieces_add b hevents.1, List.flatMap_cons, List.append_assoc]

end Builder

namespace Node

/-- **The pieces of a tree are those of its markup**, start tags and units of text in one order. -/
theorem pieces_parse (keepWhitespace : Bool) (markup : Text) :
    (parse keepWhitespace markup).pieces =
      (Event.scan markup).flatMap (Event.pieces keepWhitespace) := by
  rw [parse, pieces_document, parseAll, Builder.flatMap_pieces_finish,
    Builder.pieces_foldl (Event.agrees_of_mem_scan markup)]
  rfl

/-- **Reading loses, repeats and moves nothing**, however tags are nested. Cut into events, a markup
is these one after the other. The elements of the tree, in pre-order, are the start tags among them,
with the same names and attributes. The texts of the tree, in pre-order, make up what is written as
text and not dropped: the bodies of raw elements as they are written, and with references decoded
all that is no tag and is not passed over. -/
theorem preorder_parse (keepWhitespace : Bool) (markup : Text) :
    (Event.scan markup).flatMap Event.source = markup ∧
      (parse keepWhitespace markup).preorder.filterMap opened? =
        (Event.scan markup).filterMap Event.opened? ∧
      (parse keepWhitespace markup).preorder.flatMap ownText =
        (Event.scan markup).flatMap (Event.contents keepWhitespace) := by
  have hpieces := pieces_parse keepWhitespace markup
  refine ⟨Event.flatMap_source_scan markup, ?_, ?_⟩
  · calc (parse keepWhitespace markup).preorder.filterMap opened?
      _ = (parse keepWhitespace markup).pieces.filterMap Piece.opened? :=
        (Piece.filterMap_opened?_flatMap opened? ownText _).symm
      _ = (Event.scan markup).filterMap Event.opened? := by
        rw [hpieces]
        exact Piece.filterMap_opened?_flatMap Event.opened? (Event.contents keepWhitespace) _
  · calc (parse keepWhitespace markup).preorder.flatMap ownText
      _ = (parse keepWhitespace markup).pieces.filterMap Piece.unit? :=
        (Piece.filterMap_unit?_flatMap opened? ownText _).symm
      _ = (Event.scan markup).flatMap (Event.contents keepWhitespace) := by
        rw [hpieces]
        exact Piece.filterMap_unit?_flatMap Event.opened? (Event.contents keepWhitespace) _

end Node

end MarkupQuery
