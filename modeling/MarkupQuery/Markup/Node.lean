import MarkupQuery.Number.Decimal
import MarkupQuery.Text.Utf16

/-!
# Markup trees

A tree is made of elements and texts below a document. An element has a tag and attributes, whose
order is fixed: first the names that are array indices, by number, then all others in the order in
which they were written.

## Main definitions

* `Attribute`: a name and a value
* `Attribute.arrange`: attributes in their fixed order
* `Node`: a document, an element or a text
* `Tag.isVoid`, `Tag.isRaw`: the elements without children, and those whose body is not markup
-/

namespace MarkupQuery

/-! ## Attributes -/

/-- An attribute of an element. -/
structure Attribute where
  name : Text
  value : Text
  deriving DecidableEq, Repr

namespace Attribute

/-- The bound below which a number is an array index. -/
def indexBound : Nat := Nat.pow 2 32 - 1

/-- The rank of a name: the number of an array index written without leading zeros, and the bound
for any other name. -/
def rank (name : Text) : Nat :=
  match Decimal.readNat? name with
  | some n => if n < indexBound ∧ Decimal.ofNat n = name then n else indexBound
  | none => indexBound

/-- The attributes by rank, and in the given order within a rank. -/
def arrange (attributes : List Attribute) : List Attribute :=
  attributes.mergeSort fun a b => rank a.name ≤ rank b.name

/-- The attributes without those whose name an earlier one has. -/
def keepFirst : List Attribute → List Attribute
  | [] => []
  | a :: rest => a :: (keepFirst rest).filter (·.name != a.name)

end Attribute

/-! ## Nodes -/

/-- A node of a markup tree, with everything below it. -/
inductive Node where
  | document (children : List Node)
  | element (tag : Text) (attributes : List Attribute) (children : List Node)
  | text (value : Text)

namespace Node

/-- The nodes right below a node. -/
def children : Node → List Node
  | document children => children
  | element _ _ children => children
  | text _ => []

end Node

/-! ## Tags with a meaning -/

namespace Tag

/-- The tags of elements that have no children and no end tag. -/
def voids : List Text :=
  ["area", "base", "br", "col", "embed", "hr", "img", "input", "link", "meta", "source", "track",
    "wbr"]

/-- The tags of elements whose body is not read as markup. -/
def raws : List Text := ["script", "style"]

/-- Whether elements with this tag have no children. -/
def isVoid (tag : Text) : Bool := voids.contains tag

/-- Whether the body of elements with this tag is not markup. -/
def isRaw (tag : Text) : Bool := raws.contains tag

end Tag

end MarkupQuery
