import MarkupQuery.Markup.Node
import MarkupQuery.Markup.Reference

/-!
# Writing markup

A node is written with its attributes in double quotes and its text escaped, so that reading gives
it back. Void elements have a start tag only, and the text right below a raw element is written as
it is. The tree is walked with a list of what remains to be written, so that no tree is too deep.

## Main definitions

* `Node.weight`: the number of steps that writing a node takes
* `Node.openTag`, `Node.closeTag`: the tags of an element
* `Pending.write`: writes what remains
* `Node.render`: the markup of a node

## Main results

* `Pending.write_append`: what remains is written in parts, one after the other
-/

namespace MarkupQuery

namespace Node

/-! ## Size -/

mutual

/-- The number of nodes of a tree, every element counted twice for its two tags. -/
def weight : Node → Nat
  | document children => weights children + 1
  | element _ _ children => weights children + 2
  | text _ => 1

/-- The number of nodes of several trees, every element counted twice. -/
def weights : List Node → Nat
  | [] => 0
  | node :: nodes => weight node + weights nodes

end

/-! ## Tags -/

/-- An attribute as it stands in a tag. -/
def attributeText (a : Attribute) : Text := a.name ++ "=\"" ++ a.value.escaped ++ "\""

/-- The start tag of an element. -/
def openTag (tag : Text) (attributes : List Attribute) : Text :=
  "<" ++ List.intercalate " " (tag :: attributes.map attributeText) ++ ">"

/-- The end tag of an element. -/
def closeTag (tag : Text) : Text := "</" ++ tag ++ ">"

/-- A text, escaped unless it stands in a raw element. -/
def textIn (raw : Bool) (value : Text) : Text := if raw then value else value.escaped

end Node

/-! ## What remains to be written -/

/-- Something that remains to be written. -/
inductive Pending where
  /-- A node, which stands right below a raw element or not. -/
  | node (raw : Bool) (node : Node)
  /-- The end tag of an element. -/
  | closing (tag : Text)

namespace Pending

/-- The number of steps that writing takes. -/
def weight : Pending → Nat
  | node _ n => n.weight
  | closing _ => 1

/-- The number of steps that writing takes all in all. -/
def weights : List Pending → Nat
  | [] => 0
  | p :: ps => weight p + weights ps

theorem weights_append (ps qs : List Pending) : weights (ps ++ qs) = weights ps + weights qs := by
  induction ps with
  | nil => exact (Nat.zero_add _).symm
  | cons p ps ih => exact (congrArg (p.weight + ·) ih).trans (Nat.add_assoc _ _ _).symm

/-- Nodes one after the other, right below a raw element or not. -/
def all (raw : Bool) (nodes : List Node) : List Pending := nodes.map (node raw)

theorem weights_all (raw : Bool) (nodes : List Node) :
    weights (all raw nodes) = Node.weights nodes := by
  induction nodes with
  | nil => rfl
  | cons n nodes ih =>
    rw [Node.weights, ← ih]
    rfl

/-- What remains of an element whose start tag is written: its children and its end tag, and
nothing when it is void. -/
def inside (tag : Text) (children : List Node) : List Pending :=
  if Tag.isVoid tag then [] else all (Tag.isRaw tag) children ++ [closing tag]

theorem weights_inside_lt (tag : Text) (children : List Node) :
    weights (inside tag children) < Node.weights children + 2 := by
  rw [inside]
  split
  · exact Nat.succ_pos _
  · rw [weights_append, weights_all]
    exact Nat.lt_succ_self _

/-- Writes what remains, from left to right. -/
def write : List Pending → Text
  | [] => []
  | closing tag :: rest => Node.closeTag tag ++ write rest
  | node raw (.text value) :: rest => Node.textIn raw value ++ write rest
  | node _ (.document children) :: rest => write (all false children ++ rest)
  | node _ (.element tag attributes children) :: rest =>
    Node.openTag tag attributes ++ write (inside tag children ++ rest)
termination_by pending => weights pending
decreasing_by
  · simp [weights, weight]
  · simp [weights, weight, Node.weight]
  · simp [weights_append, weights_all, weights, weight, Node.weight]
  · have := weights_inside_lt tag children
    simp only [weights_append, weights, weight, Node.weight]
    omega

/-- What remains is written in parts, one after the other. -/
theorem write_append (ps qs : List Pending) : write (ps ++ qs) = write ps ++ write qs := by
  fun_induction write ps with
  | case1 => rfl
  | case2 tag rest ih => rw [List.cons_append, write, ih, List.append_assoc]
  | case3 raw value rest ih => rw [List.cons_append, write, ih, List.append_assoc]
  | case4 raw children rest ih => rw [List.cons_append, write, ← ih, List.append_assoc]
  | case5 raw tag attributes children rest ih =>
    rw [List.cons_append, write, ← List.append_assoc, ih, List.append_assoc]

end Pending

/-- The markup of a node that stands right below a raw element or not. -/
def Node.renderIn (raw : Bool) (n : Node) : Text := Pending.write [.node raw n]

/-- The markup of a node that stands by itself. -/
def Node.render (n : Node) : Text := n.renderIn false

end MarkupQuery
