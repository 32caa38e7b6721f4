import MarkupQuery.Proofs.Markup.Content
import MarkupQuery.Proofs.Markup.Whitespace

/-!
# Nodes in front of a tree

The tree that is built from a markup does not depend on what stands before it, as long as no element
is open there and no text ends there. Nodes that come first lie below all open elements, where no
event looks at them, and in the end they stand in front of all others.

## Main definitions

* `Builder.behind`: a tree under construction with nodes in front of it

## Main results

* `Builder.add_behind`: an event does the same behind other nodes
* `Builder.finish_read`: a markup describes the same nodes behind others
-/

namespace MarkupQuery

namespace Builder

variable {front : List Node} {keepWhitespace : Bool} {b : Builder}

/-! ## Nodes below all open elements -/

/-- The nodes and the open elements of a tree with nodes in front of it: they come before the
outermost open element, or else before all nodes. -/
def stackBehind (front nodes : List Node) : List OpenElement → Builder
  | [] => ⟨nodes ++ front, []⟩
  | element :: outer =>
    let below := stackBehind front element.before outer
    ⟨nodes, { element with before := below.nodes } :: below.outer⟩

/-- The tree with nodes in front of it, the last first. -/
def behind (b : Builder) (front : List Node) : Builder := stackBehind front b.nodes b.outer

/-- What is added at the end of the tree is added there behind other nodes. -/
theorem behind_append (added nodes front : List Node) (outer : List OpenElement) :
    behind ⟨added ++ nodes, outer⟩ front =
      ⟨added ++ (behind ⟨nodes, outer⟩ front).nodes, (behind ⟨nodes, outer⟩ front).outer⟩ := by
  cases outer with
  | nil =>
    rw [behind, stackBehind, List.append_assoc]
    rfl
  | cons element outer => rfl

theorem behind_closed (element : OpenElement) (nodes front : List Node)
    (outer : List OpenElement) :
    behind ⟨closed element nodes, outer⟩ front =
      ⟨closed { element with before := (behind ⟨element.before, outer⟩ front).nodes } nodes,
        (behind ⟨element.before, outer⟩ front).outer⟩ :=
  behind_append [.element element.tag element.attributes nodes.reverse] element.before front outer

/-! ## Events behind other nodes -/

/-- A text is added to the same node, or becomes a node of its own. -/
theorem addText_behind (hfront : ∀ n ∈ front.head?, ¬ n.IsText) (value : Text) :
    (b.behind front).addText value = (b.addText value).behind front := by
  obtain ⟨nodes, outer⟩ := b
  -- The other nodes are looked at only when there is no node yet and no open element.
  match nodes, outer with
  | [], [] => exact addText_of_not_isText hfront [] value
  | [], _ :: _ => rfl
  | .document _ :: _, [] => rfl
  | .document _ :: _, _ :: _ => rfl
  | .element _ _ _ :: _, [] => rfl
  | .element _ _ _ :: _, _ :: _ => rfl
  | .text _ :: _, [] => rfl
  | .text _ :: _, _ :: _ => rfl

/-- Elements are closed alike behind other nodes, for which one is the last depends on no node. -/
theorem closeThrough_behind {isLast : OpenElement → Bool}
    (hlast : ∀ (e : OpenElement) (before : List Node), isLast { e with before } = isLast e)
    (nodes front : List Node) (outer : List OpenElement) :
    closeThrough isLast (behind ⟨nodes, outer⟩ front).nodes (behind ⟨nodes, outer⟩ front).outer =
      (closeThrough isLast nodes outer).behind front := by
  induction outer generalizing nodes with
  | nil => rfl
  | cons element outer ih =>
    have hclosed := ih (closed element nodes)
    rw [behind_closed] at hclosed
    rw [behind, stackBehind, closeThrough, closeThrough, hlast]
    split
    · exact (behind_closed element nodes front outer).symm
    · exact hclosed

/-- The same elements are open behind other nodes. -/
theorem any_outer_behind (p : Text → Bool) (nodes front : List Node) (outer : List OpenElement) :
    (behind ⟨nodes, outer⟩ front).outer.any (p ·.tag) = outer.any (p ·.tag) := by
  induction outer generalizing nodes with
  | nil => rfl
  | cons element outer ih => exact congrArg (p element.tag || ·) (ih element.before)

theorem close_behind (b : Builder) (front : List Node) (name : Text) :
    (b.behind front).close name = (b.close name).behind front := by
  rw [close, close, any_outer_behind (· == name) b.nodes front b.outer]
  split
  · exact closeThrough_behind (fun _ _ => rfl) b.nodes front b.outer
  · rfl

theorem addElement_behind (b : Builder) (front : List Node) (tag : StartTag)
    (children : List Node) :
    (b.behind front).addElement tag children = (b.addElement tag children).behind front :=
  (behind_append [.element tag.name tag.attributes children] b.nodes front b.outer).symm

/-- **An event does the same behind other nodes**, the last of which is no text. -/
theorem add_behind (hfront : ∀ n ∈ front.head?, ¬ n.IsText) (e : Event) :
    (b.behind front).add keepWhitespace e = (b.add keepWhitespace e).behind front := by
  cases e with
  | ignored written => rfl
  | text written =>
    rw [add, add]
    split
    · rfl
    · exact addText_behind hfront _
  | endTag written name =>
    cases name with
    | none => rfl
    | some name => exact close_behind b front name
  | startTag written tag =>
    rw [add, add]
    split
    · exact addElement_behind b front tag []
    · rfl
  | raw written tag body closing => exact addElement_behind b front tag _

/-- All events of a markup do the same behind other nodes. -/
theorem read_behind (hfront : ∀ n ∈ front.head?, ¬ n.IsText) (markup : Text) :
    (b.behind front).read keepWhitespace markup = (b.read keepWhitespace markup).behind front := by
  rw [read, read]
  generalize Event.scan markup = events
  induction events generalizing b with
  | nil => rfl
  | cons e events ih => rw [List.foldl_cons, List.foldl_cons, add_behind hfront, ih]

/-- In the end the nodes stand in front of all others. -/
theorem finish_behind (b : Builder) (front : List Node) :
    (b.behind front).finish = front.reverse ++ b.finish := by
  have hclosed : closeThrough (fun _ => false) (b.behind front).nodes (b.behind front).outer =
      (closeThrough (fun _ => false) b.nodes b.outer).behind front :=
    closeThrough_behind (fun _ _ => rfl) b.nodes front b.outer
  -- No element is left open, so that the nodes come right before all others.
  have houter := outer_closeThrough_false b.nodes b.outer
  rw [finish, finish, hclosed, behind, houter, stackBehind, List.reverse_append]

/-- **A markup describes the same nodes behind others**, the last of which is no text. -/
theorem finish_read (hfront : ∀ n ∈ front.head?, ¬ n.IsText) (markup : Text) :
    ((⟨front, []⟩ : Builder).read keepWhitespace markup).finish =
      front.reverse ++ Node.parseAll keepWhitespace markup := by
  have hempty : (⟨front, []⟩ : Builder) = empty.behind front := rfl
  rw [hempty, read_behind hfront, finish_behind, Node.parseAll, read]

end Builder

end MarkupQuery
