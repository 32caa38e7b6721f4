import MarkupQuery.Markup.Event

/-!
# Building the tree

The events of a markup are put into a tree one after the other. A start tag opens an element below
the one that is open; an end tag closes the nearest open element of its name together with all
elements opened since, and one that closes nothing is passed over. Whatever is still open at the
end is closed there.

## Main definitions

* `OpenElement`, `Builder`: the elements that are open, and the nodes below them so far
* `Builder.add`: what an event does
* `Node.parse`: the document that a markup describes
-/

namespace MarkupQuery

/-- An element that is open: the nodes before it are kept until it is closed. -/
structure OpenElement where
  tag : Text
  attributes : List Attribute
  /-- The nodes before the element below the same node, the last first. -/
  before : List Node

/-- A tree under construction. -/
structure Builder where
  /-- The nodes so far below the innermost open element, the last first. -/
  nodes : List Node
  /-- The open elements, the innermost first. -/
  outer : List OpenElement

namespace Builder

/-- The tree before the first event. -/
def empty : Builder := ⟨[], []⟩

/-! ## Single steps -/

/-- The element as a node, with the given nodes below it, the last first. -/
def closed (element : OpenElement) (nodes : List Node) : List Node :=
  .element element.tag element.attributes nodes.reverse :: element.before

/-- The tree with a text at its end; texts next to each other become one. -/
def addText (b : Builder) (value : Text) : Builder :=
  match b.nodes with
  | .text before :: nodes => { b with nodes := .text (before ++ value) :: nodes }
  | nodes => { b with nodes := .text value :: nodes }

/-- The tree with an element at its end that has the given children and is not open. -/
def addElement (b : Builder) (tag : StartTag) (children : List Node) : Builder :=
  { b with nodes := .element tag.name tag.attributes children :: b.nodes }

/-- The tree with an open element at its end. -/
def openElement (b : Builder) (tag : StartTag) : Builder :=
  ⟨[], ⟨tag.name, tag.attributes, b.nodes⟩ :: b.outer⟩

/-- Closes the open elements up to and including the innermost one that satisfies `isLast`; all of
them when there is none. -/
def closeThrough (isLast : OpenElement → Bool) (nodes : List Node) : List OpenElement → Builder
  | [] => ⟨nodes, []⟩
  | element :: outer =>
    if isLast element then ⟨closed element nodes, outer⟩
    else closeThrough isLast (closed element nodes) outer

/-- Closes the innermost open element of a name and all elements within it; nothing when there is
no such element. -/
def close (b : Builder) (name : Text) : Builder :=
  if b.outer.any (·.tag == name) then closeThrough (·.tag == name) b.nodes b.outer else b

/-- The nodes of the whole tree, with all elements closed. -/
def finish (b : Builder) : List Node :=
  (closeThrough (fun _ => false) b.nodes b.outer).nodes.reverse

/-! ## Events -/

/-- Whether a text is dropped: it is, when only blanks are written and they are not kept. -/
def drops (keepWhitespace : Bool) (written : Text) : Bool := !keepWhitespace && written.isBlank

/-- The tree after an event. The body of a raw element is kept as it is written; any other text
has its references decoded. -/
def add (keepWhitespace : Bool) (b : Builder) : Event → Builder
  | .ignored _ => b
  | .text written => if drops keepWhitespace written then b else b.addText written.decoded
  | .endTag _ none => b
  | .endTag _ (some name) => b.close name
  | .startTag _ tag => if tag.isClosed then b.addElement tag [] else b.openElement tag
  | .raw _ tag body _ => b.addElement tag (if drops keepWhitespace body then [] else [.text body])

end Builder

/-- The nodes that a markup describes. -/
def Node.parseAll (keepWhitespace : Bool) (markup : Text) : List Node :=
  ((Event.scan markup).foldl (Builder.add keepWhitespace) Builder.empty).finish

/-- The document that a markup describes. Texts of blanks alone are dropped unless they are to be
kept. -/
def Node.parse (keepWhitespace : Bool) (markup : Text) : Node :=
  .document (Node.parseAll keepWhitespace markup)

end MarkupQuery
