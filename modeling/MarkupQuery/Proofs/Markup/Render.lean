import MarkupQuery.Markup.Render

/-!
# Rendering along the tree

Markup is written from a list of what remains, but it is what a recursion over the tree would
write: a document is its children one after the other, and an element its start tag and, unless it
is void, its children and its end tag.

## Main definitions

* `Tag.IsVoidName`, `Tag.IsRawName`: the tags of void elements and of raw ones, one by one

## Main results

* `Node.render_document`: the markup of a document
* `Node.renderIn_element`: the markup of an element
* `Node.openTag_eq`: a start tag, attribute by attribute
-/

namespace MarkupQuery

open CodeUnit

namespace Tag

/-- One of the tags of void elements. -/
def IsVoidName (tag : Text) : Prop :=
  tag ∈ (["area", "base", "br", "col", "embed", "hr", "img", "input", "link", "meta", "source",
    "track", "wbr"] : List Text)

/-- One of the tags of elements whose body is not markup. -/
def IsRawName (tag : Text) : Prop := tag = "script" ∨ tag = "style"

instance : DecidablePred IsVoidName := fun _ => inferInstanceAs (Decidable (_ ∈ _))

instance : DecidablePred IsRawName := fun _ => inferInstanceAs (Decidable (_ ∨ _))

theorem isVoid_iff {tag : Text} : isVoid tag = true ↔ IsVoidName tag :=
  List.contains_iff_mem

theorem isRaw_iff {tag : Text} : isRaw tag = true ↔ IsRawName tag := by
  rw [isRaw, List.contains_iff_mem, raws, List.mem_cons, List.mem_singleton, IsRawName]

/-- No raw tag is void. -/
theorem isVoid_of_isRaw {tag : Text} (h : isRaw tag = true) : isVoid tag = false := by
  have hknown : (raws.all fun t => ! isVoid t) = true := by decide
  have htag := List.all_eq_true.mp hknown tag (List.contains_iff_mem.mp h)
  simpa using htag

theorem isVoid_eq_false_iff {tag : Text} : isVoid tag = false ↔ ¬ IsVoidName tag := by
  rw [← isVoid_iff, Bool.not_eq_true]

theorem isRaw_eq_false_iff {tag : Text} : isRaw tag = false ↔ ¬ IsRawName tag := by
  rw [← isRaw_iff, Bool.not_eq_true]

end Tag

/-- Nodes are written one after the other. -/
theorem Pending.write_all (raw : Bool) (nodes : List Node) :
    write (all raw nodes) = nodes.flatMap (Node.renderIn raw) := by
  induction nodes with
  | nil => rw [all, List.map_nil, write, List.flatMap_nil]
  | cons n nodes ih =>
    rw [List.flatMap_cons, ← ih, Node.renderIn, ← write_append]
    rfl

namespace Node

theorem renderIn_text (raw : Bool) (value : Text) :
    (text value).renderIn raw = textIn raw value := by
  rw [renderIn, Pending.write, Pending.write, List.append_nil]

/-- A document is its children, one after the other. -/
theorem renderIn_document (raw : Bool) (children : List Node) :
    (document children).renderIn raw = children.flatMap (renderIn false) := by
  rw [renderIn, Pending.write, List.append_nil, Pending.write_all]

/-- An element is its start tag and, unless it is void, its children and its end tag. -/
theorem renderIn_element (raw : Bool) (tag : Text) (attributes : List Attribute)
    (children : List Node) :
    (element tag attributes children).renderIn raw =
      openTag tag attributes ++
        if Tag.isVoid tag then []
        else children.flatMap (renderIn (Tag.isRaw tag)) ++ closeTag tag := by
  rw [renderIn, Pending.write, List.append_nil, Pending.inside]
  split
  · rw [Pending.write]
  · rw [Pending.write_append, Pending.write_all, Pending.write, Pending.write, List.append_nil]

theorem render_document (children : List Node) :
    (document children).render = children.flatMap (renderIn false) :=
  renderIn_document false children

theorem closeTag_eq (tag : Text) :
    closeTag tag = lessThan :: (slash :: tag) ++ [greaterThan] := rfl

/-- A start tag has a blank before each attribute. -/
theorem openTag_eq (tag : Text) (attributes : List Attribute) :
    openTag tag attributes = lessThan ::
      (tag ++ attributes.flatMap fun a => space :: attributeText a) ++
        [greaterThan] := by
  have hintercalate (first : Text) (rest : List Text) :
      List.intercalate " " (first :: rest) =
        first ++ rest.flatMap fun t => space :: t := by
    induction rest generalizing first with
    | nil => simp
    | cons second rest ih =>
      rw [List.intercalate_cons_cons, ih, List.flatMap_cons, List.append_assoc]
      rfl
  rw [openTag, hintercalate, List.flatMap_map]
  rfl

end Node

end MarkupQuery
