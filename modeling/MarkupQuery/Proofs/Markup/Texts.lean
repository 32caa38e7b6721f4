import MarkupQuery.Markup.Tree
import MarkupQuery.Proofs.Text.Alphabet

/-!
# Editing the texts of a tree

Blanks are a matter of texts alone: whether they are kept, dropped or disregarded, the elements of
a tree stay as they are and where they are. A text is edited by itself, and a text of which nothing
is to be left is removed from below its element.

## Main definitions

* `Node.editTexts`: the tree with all its texts edited
* `Builder.kept`, `Text.left`: what is left of a text when blanks are kept or dropped

## Main results

* `Node.editTexts_some`: a tree whose texts are left alone stays the same
* `Builder.kept_true`: when blanks are kept, all texts are left alone
-/

namespace MarkupQuery

namespace Node

mutual

/-- The node with all texts in it edited; nothing, when it is a text of which nothing is left. -/
def editTexts (edit : Text → Option Text) : Node → Option Node
  | document children => some (document (editAllTexts edit children))
  | element tag attributes children => some (element tag attributes (editAllTexts edit children))
  | text value => (edit value).map text

/-- The nodes with all texts in them edited, without the texts of which nothing is left. -/
def editAllTexts (edit : Text → Option Text) : List Node → List Node
  | [] => []
  | n :: nodes => (editTexts edit n).toList ++ editAllTexts edit nodes

end

variable {edit : Text → Option Text} {n : Node} {nodes children : List Node}

theorem editAllTexts_eq_filterMap (edit : Text → Option Text) (nodes : List Node) :
    editAllTexts edit nodes = nodes.filterMap (editTexts edit) := by
  induction nodes with
  | nil => rfl
  | cons n nodes ih =>
    rw [editAllTexts, ih]
    cases h : editTexts edit n with
    | none => rw [List.filterMap_cons_none h, Option.toList_none, List.nil_append]
    | some m => rw [List.filterMap_cons_some h, Option.toList_some, List.singleton_append]

@[simp] theorem editTexts_text (edit : Text → Option Text) (value : Text) :
    (text value).editTexts edit = (edit value).map text := by
  rw [editTexts]

@[simp] theorem editTexts_document (edit : Text → Option Text) (children : List Node) :
    (document children).editTexts edit = some (document (children.filterMap (editTexts edit))) := by
  rw [editTexts, editAllTexts_eq_filterMap]

@[simp] theorem editTexts_element (edit : Text → Option Text) (tag : Text)
    (attributes : List Attribute) (children : List Node) :
    (element tag attributes children).editTexts edit =
      some (element tag attributes (children.filterMap (editTexts edit))) := by
  rw [editTexts, editAllTexts_eq_filterMap]

mutual

/-- A tree whose texts are left alone stays the same. -/
theorem editTexts_some (n : Node) : n.editTexts some = some n := by
  cases n with
  | document children => rw [editTexts, editAllTexts_some]
  | element tag attributes children => rw [editTexts, editAllTexts_some]
  | text value => rw [editTexts, Option.map_some]

theorem editAllTexts_some (nodes : List Node) : editAllTexts some nodes = nodes := by
  cases nodes with
  | nil => rfl
  | cons n nodes =>
    rw [editAllTexts, editTexts_some n, editAllTexts_some nodes, Option.toList_some,
      List.singleton_append]

end

end Node

namespace Builder

variable {keepWhitespace : Bool} {value : Text}

/-- What is left of a text: nothing, when blanks are not kept and it has nothing else. -/
def kept (keepWhitespace : Bool) (value : Text) : Option Text :=
  if keepWhitespace = false ∧ value ⊆ CodeUnit.whitespace then none else some value

theorem drops_iff :
    drops keepWhitespace value = true ↔ keepWhitespace = false ∧ value ⊆ CodeUnit.whitespace := by
  rw [drops, Bool.and_eq_true, Bool.not_eq_true', Text.isBlank_iff]

theorem kept_eq (keepWhitespace : Bool) (value : Text) :
    kept keepWhitespace value = if drops keepWhitespace value then none else some value := by
  simp only [kept, drops_iff]

theorem kept_true : kept true = some := by
  funext value
  exact if_neg fun h => nomatch h.1

end Builder

namespace Text

variable {keepWhitespace : Bool} {part : Text}

/-- What is left of a text, which may be nothing. -/
def left (keepWhitespace : Bool) (part : Text) : Text :=
  (Builder.kept keepWhitespace part).getD []

theorem left_of_drops (h : Builder.drops keepWhitespace part = true) :
    left keepWhitespace part = [] := by
  rw [left, Builder.kept_eq, if_pos h, Option.getD_none]

theorem left_of_not_drops (h : ¬ Builder.drops keepWhitespace part = true) :
    left keepWhitespace part = part := by
  rw [left, Builder.kept_eq, if_neg h, Option.getD_some]

end Text

end MarkupQuery
