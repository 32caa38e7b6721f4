import MarkupQuery.Forest.Evaluate
import MarkupQuery.Markup.Render

/-!
# Documents as a forest

To run a query over documents, their nodes are numbered: one document after the other, and within
each a node before its children and these in order. Every node knows the numbers of its parent and
its children, which are below and above its own, and its place: the number of its document and the
positions of the nodes on the way down to it.

A document itself reads as an element with a tag that no query can name.

## Main definitions

* `Entry`: what is known of a numbered node
* `Index`, `Index.ofDocuments`: the numbered nodes of documents
* `Index.forest`: the forest of the numbered nodes
* `Index.place`, `Index.number?`: the places of nodes
* `Index.render`, `Index.lines`: the markup of a node, and the lines of a value
-/

namespace MarkupQuery

/-! ## Numbering -/

mutual

/-- The number of nodes of a tree. -/
def Node.size : Node → Nat
  | .document children => Node.sizes children + 1
  | .element _ _ children => Node.sizes children + 1
  | .text _ => 1

/-- The number of nodes of several trees. -/
def Node.sizes : List Node → Nat
  | [] => 0
  | node :: nodes => node.size + Node.sizes nodes

end

/-- What is known of a numbered node. -/
structure Entry where
  node : Node
  /-- The number of its parent. -/
  parent : Option Nat
  /-- The numbers of its children. -/
  children : List Nat
  /-- Its position among its siblings, then that of its parent and so on up to the document. -/
  position : List Nat

namespace Entry

/-- The numbers of siblings of which the first has the number `first`: each is followed by the
nodes below it. -/
def numbers (first : Nat) : List Node → List Nat
  | [] => []
  | node :: nodes => first :: numbers (first + node.size) nodes

mutual

/-- The entries of a tree whose first node has the number `number`. -/
def ofNode (parent : Option Nat) (position : List Nat) (number : Nat) : Node → List Entry
  | .document children =>
    ⟨.document children, parent, numbers (number + 1) children, position⟩ ::
      ofNodes (some number) position 0 (number + 1) children
  | .element tag attributes children =>
    ⟨.element tag attributes children, parent, numbers (number + 1) children, position⟩ ::
      ofNodes (some number) position 0 (number + 1) children
  | .text value => [⟨.text value, parent, [], position⟩]

/-- The entries of siblings, of which the first has the number `number` and is the child `ordinal`
of its parent. -/
def ofNodes (parent : Option Nat) (position : List Nat) (ordinal number : Nat) :
    List Node → List Entry
  | [] => []
  | node :: nodes =>
    ofNode parent (ordinal :: position) number node ++
      ofNodes parent position (ordinal + 1) (number + node.size) nodes

end

/-! ## Links between entries -/

theorem le_of_mem_numbers {first n : Nat} {nodes : List Node} (h : n ∈ numbers first nodes) :
    first ≤ n := by
  induction nodes generalizing first with
  | nil => simp [numbers] at h
  | cons node nodes ih =>
    rw [numbers, List.mem_cons] at h
    rcases h with rfl | h
    · exact Nat.le_refl _
    · exact Nat.le_trans (Nat.le_add_right _ _) (ih h)

/-- Whether the entries of a list, numbered from `number` on, have children with higher numbers
than their own and parents with lower ones. -/
def Ordered (number : Nat) (entries : List Entry) : Prop :=
  ∀ i entry, entries[i]? = some entry →
    (∀ c ∈ entry.children, number + i < c) ∧ ∀ p, entry.parent = some p → p < number + i

theorem Ordered.cons {number : Nat} {entry : Entry} {entries : List Entry}
    (hchildren : ∀ c ∈ entry.children, number < c)
    (hparent : ∀ p, entry.parent = some p → p < number)
    (h : Ordered (number + 1) entries) : Ordered number (entry :: entries) := by
  intro i e he
  cases i with
  | zero =>
    obtain rfl : entry = e := by simpa using he
    exact ⟨hchildren, hparent⟩
  | succ i =>
    have := h i e (by simpa using he)
    rwa [Nat.add_assoc, Nat.add_comm 1 i] at this

theorem Ordered.append {number : Nat} {es fs : List Entry} (he : Ordered number es)
    (hf : Ordered (number + es.length) fs) : Ordered number (es ++ fs) := by
  intro i e h
  rw [List.getElem?_append] at h
  split at h
  · exact he i e h
  · next hi =>
    have := hf (i - es.length) e h
    rwa [Nat.add_assoc, Nat.add_sub_cancel' (Nat.le_of_not_lt hi)] at this

mutual

theorem length_ofNode (parent : Option Nat) (position : List Nat) (number : Nat) (n : Node) :
    (ofNode parent position number n).length = n.size := by
  cases n with
  | document children => rw [ofNode, List.length_cons, length_ofNodes, Node.size]
  | element tag attributes children => rw [ofNode, List.length_cons, length_ofNodes, Node.size]
  | text value => rw [ofNode, Node.size, List.length_singleton]

theorem length_ofNodes (parent : Option Nat) (position : List Nat) (ordinal number : Nat)
    (ns : List Node) : (ofNodes parent position ordinal number ns).length = Node.sizes ns := by
  cases ns with
  | nil => rw [ofNodes, Node.sizes, List.length_nil]
  | cons n ns => rw [ofNodes, List.length_append, length_ofNode, length_ofNodes, Node.sizes]

end

mutual

theorem ordered_ofNode {parent : Option Nat} (position : List Nat) {number : Nat} (n : Node)
    (h : ∀ p, parent = some p → p < number) : Ordered number (ofNode parent position number n) := by
  cases n with
  | document children =>
    rw [ofNode]
    exact .cons (fun _ hc => le_of_mem_numbers hc) h
      (ordered_ofNodes position 0 children fun _ hp => by cases hp; exact Nat.lt_succ_self _)
  | element tag attributes children =>
    rw [ofNode]
    exact .cons (fun _ hc => le_of_mem_numbers hc) h
      (ordered_ofNodes position 0 children fun _ hp => by cases hp; exact Nat.lt_succ_self _)
  | text value =>
    rw [ofNode]
    exact .cons (fun _ hc => absurd hc List.not_mem_nil) h fun _ _ he => by simp at he

theorem ordered_ofNodes {parent : Option Nat} (position : List Nat) (ordinal : Nat) {number : Nat}
    (ns : List Node) (h : ∀ p, parent = some p → p < number) :
    Ordered number (ofNodes parent position ordinal number ns) := by
  cases ns with
  | nil =>
    rw [ofNodes]
    intro _ _ he
    simp at he
  | cons n ns =>
    rw [ofNodes]
    -- The siblings after the first are numbered from where its tree ends.
    refine .append (ordered_ofNode _ n h) ?_
    rw [length_ofNode]
    exact ordered_ofNodes _ _ ns fun p hp => Nat.lt_of_lt_of_le (h p hp) (Nat.le_add_right _ _)

end

end Entry

/-! ## Indices -/

/-- The numbered nodes of documents. -/
structure Index where
  entries : Array Entry
  /-- Children have higher numbers than their parent, and parents lower ones than their
  children. -/
  ordered : Entry.Ordered 0 entries.toList

namespace Index

/-- The index of documents. -/
def ofDocuments (documents : List Node) : Index where
  entries := (Entry.ofNodes none [] 0 0 documents).toArray
  ordered := Entry.ordered_ofNodes [] 0 documents fun _ hp => by cases hp

/-- The entry with a number; a number without an entry is an empty text. -/
def entry (ix : Index) (n : Nat) : Entry := ix.entries.getD n ⟨.text [], none, [], []⟩

def node (ix : Index) (n : Nat) : Node := (ix.entry n).node

theorem entry_eq_or (ix : Index) (n : Nat) :
    ix.entries.toList[n]? = some (ix.entry n) ∨ ix.entry n = ⟨.text [], none, [], []⟩ := by
  rw [entry, Array.getD_eq_getD_getElem?, Array.getElem?_toList]
  cases ix.entries[n]? with
  | none => exact Or.inr rfl
  | some e => exact Or.inl rfl

/-- The children of a node have higher numbers. -/
theorem lt_of_mem_children {ix : Index} {n c : Nat} (h : c ∈ (ix.entry n).children) : n < c := by
  rcases ix.entry_eq_or n with he | he
  · simpa using (ix.ordered n _ he).1 c h
  · rw [he] at h
    exact absurd h List.not_mem_nil

/-- The parent of a node has a lower number. -/
theorem lt_of_parent {ix : Index} {n p : Nat} (h : (ix.entry n).parent = some p) : p < n := by
  rcases ix.entry_eq_or n with he | he
  · simpa using (ix.ordered n _ he).2 p h
  · rw [he] at h
    cases h

/-- A node with children is one of the index. -/
theorem lt_size_of_mem_children {ix : Index} {n c : Nat} (h : c ∈ (ix.entry n).children) :
    n < ix.entries.size := by
  rcases Nat.lt_or_ge n ix.entries.size with hn | hn
  · exact hn
  · rw [entry, Array.getD_eq_getD_getElem?, Array.getElem?_eq_none hn] at h
    exact absurd h List.not_mem_nil

/-! ## The forest of an index -/

/-- The tag as which a document reads. -/
def documentTag : Text := "#document"

/-- The forest of the numbered nodes. -/
def forest (ix : Index) : Forest Nat where
  kind n :=
    match ix.node n with
    | .text _ => .text
    | _ => .element
  tag n :=
    match ix.node n with
    | .document _ => documentTag
    | .element tag _ _ => tag
    | .text _ => []
  content n :=
    match ix.node n with
    | .text value => value
    | _ => []
  attr n name :=
    match ix.node n with
    | .element _ attributes _ => (attributes.find? (·.name == name)).map Attribute.value
    | _ => none
  children n := (ix.entry n).children
  parent n := (ix.entry n).parent
  children_wf := by
    refine Subrelation.wf ?_ (InvImage.wf (fun n => ix.entries.size - n) Nat.lt_wfRel.wf)
    intro c n h
    have h₁ := lt_of_mem_children h
    have h₂ := lt_size_of_mem_children h
    exact Nat.sub_lt_sub_left h₂ h₁
  parent_wf := Subrelation.wf lt_of_parent Nat.lt_wfRel.wf

/-! ## Places -/

/-- The place of a node: the number of its document, and the positions on the way down to it. -/
def place (ix : Index) (n : Nat) : List Nat := (ix.entry n).position.reverse

/-- The number of the node at a place. -/
def number? (ix : Index) (place : List Nat) : Option Nat :=
  ix.entries.findIdx? fun e => e.position == place.reverse

/-! ## Results -/

/-- Whether a node stands right below a raw element, so that its text is written as it is. -/
def inRaw (ix : Index) (n : Nat) : Bool :=
  (ix.entry n).parent.any fun p =>
    match ix.node p with
    | .element tag _ _ => Tag.isRaw tag
    | _ => false

/-- The markup of a node where it stands. -/
def render (ix : Index) (n : Nat) : Text := (ix.node n).renderIn (ix.inRaw n)

/-- The lines of a value: the markup of each node, or the text as one line. -/
def lines (ix : Index) : Value Nat → List Text
  | .nodes nodes => nodes.map ix.render
  | .text value => [value]

end Index

end MarkupQuery
