import MarkupQuery.Forest.Basic
import MarkupQuery.Pipeline.Stage
import MarkupQuery.Text.Utf16

/-!
# What a stage does

A selection keeps some of the given nodes or moves to nodes below them; which nodes it gives does
not depend on their order. An extraction joins the texts of the given nodes in order, and an edit
takes units off the ends of a text.

## Main definitions

* `sameText`: equality of texts with or without regard to case
* `Forest.select`: the nodes that a selection gives, before they are put in order
* `Forest.extract`: the text that an extraction gives
* `Edit.apply`: the text that an edit gives
-/

namespace MarkupQuery

/-- Whether two texts are equal; when case does not matter, `A` to `Z` stand for either case. -/
def sameText (caseSensitive : Bool) (s t : Text) : Bool :=
  if caseSensitive then s == t else Text.lower s == Text.lower t

namespace Forest

variable {ν : Type}

/-! ## Selections -/

def isElement (F : Forest ν) (n : ν) : Bool := F.kind n == .element

/-- The nodes that an axis reaches from a node. -/
def reach (F : Forest ν) (axis : Axis) (n : ν) : List ν :=
  match axis with
  | .child => F.children n
  | .descendant => F.subtree n

/-- Whether a node is an element with a tag, in whichever case. -/
def hasTag (F : Forest ν) (tag : Text) (n : ν) : Bool :=
  F.isElement n && sameText false (F.tag n) tag

/-- Whether a node is an element with an attribute whose value satisfies `accepts`. -/
def hasAttr (F : Forest ν) (field : Text) (accepts : Text → Bool) (n : ν) : Bool :=
  F.isElement n && (F.attr n field).any accepts

/-- Whether a class is among the words of a text. -/
def hasWord (caseSensitive : Bool) (word t : Text) : Bool :=
  (Text.words CodeUnit.isSeparator t).any fun w => !w.isEmpty && sameText caseSensitive w word

/-- The child of a node at an index; a negative index counts from the end, so that the last child is
at `-1`. -/
def childAt (F : Forest ν) (index : Int) (n : ν) : Option ν :=
  let children := F.children n
  let position := if index < 0 then children.length + index else index
  if position < 0 then none else children[position.toNat]?

/-- The nodes that a selection gives, from each of the given nodes in turn. -/
def select (F : Forest ν) : Selection → List ν → List ν
  | .flat, nodes => nodes.flatMap F.subtree
  | .path step, nodes => (nodes.flatMap (F.reach step.axis)).filter (F.hasTag step.tag)
  | .attr field none, nodes => nodes.filter (F.hasAttr field fun _ => true)
  | .attr field (some value), nodes => nodes.filter (F.hasAttr field (· == value))
  | .identifier value caseSensitive, nodes =>
    nodes.filter (F.hasAttr "id" fun id => sameText caseSensitive id value)
  | .className value caseSensitive, nodes =>
    nodes.filter (F.hasAttr "class" (hasWord caseSensitive value))
  | .child index, nodes => nodes.filterMap (F.childAt index)

/-! ## Extractions -/

/-- The text that an extraction takes from a node; a node without the attribute has nothing. -/
def extractFrom (F : Forest ν) : Extraction → ν → Text
  | .text, n => F.textOf n
  | .attr field, n => (F.attr n field).getD []

/-- The text that an extraction gives. -/
def extract (F : Forest ν) (e : Extraction) (nodes : List ν) : Text :=
  nodes.flatMap (F.extractFrom e)

end Forest

/-! ## Edits -/

def Edit.apply : Edit → Text → Text
  | .trim, t => Text.trim CodeUnit.isLayout t
  | .trimPrefix lead, t => Text.dropLead lead t
  | .trimSuffix tail, t => Text.dropTail tail t

end MarkupQuery
