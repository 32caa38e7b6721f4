import MarkupQuery.Proofs.Markup.Escape
import MarkupQuery.Proofs.Markup.Numbering
import MarkupQuery.Proofs.Markup.Render

/-!
# Rendering a node where it stands

Every node of a tree can be rendered by itself. What is written for a text then depends on its
parent, which is not rendered; and when the parent is rendered, it depends on what the loop that
writes the tree has passed on. Both come to the same, so that what is written for a node is put
together from what is written for its children by themselves, at every depth and in any tree: within
a document another may be nested, and a void element may have children, which are not written.

## Main definitions

* `Attribute.startText`, `Node.startText`: a start tag as it is to be written
* `Index.IsBelowRaw`: a node stands right below an element whose body is not markup
* `Index.RendersAlong`: what is written for a node, by what is written for its children

## Main results

* `Index.inRaw_of_mem_children`: a parent passes on what its children know of it
* `Index.flatMap_render_children`: children by themselves are written as they are in place
* `Index.rendersAlong_ofDocuments`: markup is written by recursion along the tree
-/

namespace MarkupQuery

/-! ## Tags -/

/-- An attribute behind a blank, with its value in double quotes and references for the marks. -/
def Attribute.startText (a : Attribute) : Text :=
  " " ++ a.name ++ "=\"" ++ a.value.replaceMarks ++ "\""

/-- A start tag is the tag and its attributes, in angle brackets. -/
def Node.startText (tag : Text) (attributes : List Attribute) : Text :=
  "<" ++ tag ++ attributes.flatMap Attribute.startText ++ ">"

theorem Attribute.startText_eq (a : Attribute) :
    a.startText = CodeUnit.space :: Node.attributeText a := by
  rw [startText, Node.attributeText, ← Text.escaped_eq_replaceMarks, List.append_assoc,
    List.append_assoc, List.append_assoc, List.append_assoc, List.append_assoc]
  rfl

theorem Node.openTag_eq_startText (tag : Text) (attributes : List Attribute) :
    openTag tag attributes = startText tag attributes := by
  rw [openTag_eq, startText, ← funext Attribute.startText_eq]
  rfl

namespace Index

variable {ix : Index} {documents : List Node} {n c : Nat}

/-- The parent of the node is an element with exactly the tag `script` or `style`. -/
def IsBelowRaw (ix : Index) (n : Nat) : Prop :=
  ∃ p tag attributes children, ix.forest.parent n = some p ∧
    ix.node p = .element tag attributes children ∧ Tag.IsRawName tag

/-- What is written for a node is put together from what is written for its children. -/
structure RendersAlong (ix : Index) : Prop where
  /-- A document is its children, one after the other. -/
  document : ∀ n children, ix.node n = .document children →
    ix.render n = (ix.forest.children n).flatMap ix.render
  /-- An element is its start tag, its children and its end tag. -/
  element : ∀ n tag attributes children, ix.node n = .element tag attributes children →
    ¬ Tag.IsVoidName tag →
      ix.render n = Node.startText tag attributes ++ (ix.forest.children n).flatMap ix.render ++
        "</" ++ tag ++ ">"
  /-- A void element is its start tag alone. -/
  void : ∀ n tag attributes children, ix.node n = .element tag attributes children →
    Tag.IsVoidName tag → ix.render n = Node.startText tag attributes
  /-- A text is written as it is right below a raw element. -/
  raw : ∀ n value, ix.node n = .text value → ix.IsBelowRaw n → ix.render n = value
  /-- Anywhere else it is written with references for the marks. -/
  escaped : ∀ n value, ix.node n = .text value → ¬ ix.IsBelowRaw n →
    ix.render n = value.replaceMarks

/-! ## Parents -/

/-- What is asked of a parent: whether its body is not markup. -/
def passesRaw : Node → Bool
  | .element tag _ _ => Tag.isRaw tag
  | _ => false

theorem passesRaw_iff {m : Node} : passesRaw m = true ↔
    ∃ tag attributes children, m = .element tag attributes children ∧ Tag.IsRawName tag := by
  cases m with
  | document children => exact iff_of_false Bool.false_ne_true nofun
  | text value => exact iff_of_false Bool.false_ne_true nofun
  | element tag attributes children =>
    have hraw : passesRaw (.element tag attributes children) = true ↔ Tag.IsRawName tag :=
      Tag.isRaw_iff
    rw [hraw]
    constructor
    · exact fun h => ⟨tag, attributes, children, rfl, h⟩
    · rintro ⟨_, _, _, heq, h⟩
      cases heq
      exact h

theorem inRaw_eq (ix : Index) (n : Nat) :
    ix.inRaw n = (ix.forest.parent n).any fun p => passesRaw (ix.node p) := by
  rw [inRaw]
  refine congrArg (Option.any · _) (funext fun p => ?_)
  cases ix.node p <;> rfl

theorem inRaw_iff : ix.inRaw n = true ↔ ix.IsBelowRaw n := by
  rw [inRaw_eq, Option.any_eq_true]
  constructor
  · rintro ⟨p, hp, hraw⟩
    obtain ⟨tag, attributes, children, hnode, htag⟩ := passesRaw_iff.mp hraw
    exact ⟨p, tag, attributes, children, hp, hnode, htag⟩
  · rintro ⟨p, tag, attributes, children, hp, hnode, htag⟩
    exact ⟨p, hp, passesRaw_iff.mpr ⟨tag, attributes, children, hnode, htag⟩⟩

/-! ## Children -/

/-- **A parent passes on what its children know of it.** -/
theorem inRaw_of_mem_children (h : c ∈ (ofDocuments documents).forest.children n) :
    (ofDocuments documents).inRaw c = passesRaw ((ofDocuments documents).node n) := by
  rw [inRaw_eq, ((consistent_ofDocuments documents).mem_children_iff c n).mp h, Option.any_some]

/-- **Children by themselves are written as they are in place.** -/
theorem flatMap_render_children (documents : List Node) (n : Nat) :
    ((ofDocuments documents).forest.children n).flatMap (ofDocuments documents).render =
      ((ofDocuments documents).node n).children.flatMap
        (Node.renderIn (passesRaw ((ofDocuments documents).node n))) := by
  rw [← map_node_children, List.flatMap_map]
  refine List.flatMap_congr fun c hc => ?_
  rw [render, inRaw_of_mem_children hc]

/-! ## Nodes -/

/-- Markup is written by recursion along the tree. -/
theorem rendersAlong_ofDocuments (documents : List Node) :
    (ofDocuments documents).RendersAlong where
  document n children hn := by
    rw [flatMap_render_children, hn, render, hn, Node.renderIn_document]
    rfl
  element n tag attributes children hn htag := by
    rw [flatMap_render_children, hn, render, hn, Node.renderIn_element,
      if_neg (mt Tag.isVoid_iff.mp htag), Node.openTag_eq_startText, Node.closeTag]
    simp only [List.append_assoc]
    rfl
  void n tag attributes children hn htag := by
    rw [render, hn, Node.renderIn_element, if_pos (Tag.isVoid_iff.mpr htag), List.append_nil,
      Node.openTag_eq_startText]
  raw n value hn hraw := by
    rw [render, hn, Node.renderIn_text, inRaw_iff.mpr hraw, Node.textIn, if_pos rfl]
  escaped n value hn hraw := by
    rw [render, hn, Node.renderIn_text, Node.textIn, if_neg (mt inRaw_iff.mp hraw),
      Text.escaped_eq_replaceMarks]

/-- **What is written for a tree is put together along the tree**, whatever it is made of. Its nodes
are numbered, the root by zero and without a parent. Every node is written as its kind demands, from
what is written for each of its children by itself, and the markup of the tree is that of its
root. -/
theorem render_tree (tree : Node) :
    (ofDocuments [tree]).IsTreeOf tree ∧ (ofDocuments [tree]).forest.parent 0 = none ∧
      (ofDocuments [tree]).render 0 = tree.render ∧ (ofDocuments [tree]).RendersAlong := by
  have htree := isTreeOf_ofDocuments tree
  have hsize : 0 < (ofDocuments [tree]).entries.size := htree.size_entries ▸ Entry.size_pos tree
  have hparent : (ofDocuments [tree]).forest.parent 0 = none :=
    (parent_eq_none_iff hsize).mpr List.mem_cons_self
  refine ⟨htree, hparent, ?_, rendersAlong_ofDocuments [tree]⟩
  -- Without a parent the root stands below no raw element.
  rw [render, htree.node_zero, inRaw_eq, hparent]
  rfl

end Index

end MarkupQuery
