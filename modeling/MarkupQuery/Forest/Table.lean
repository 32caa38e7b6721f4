import MarkupQuery.Forest.Basic

/-!
# Tables of nodes

A forest can be given as a table with a row for each node, in which nodes are named by the number
of their row. The table is a forest when its links have no cycle; this is checked by giving each
row a rank above the ranks of all rows it links to.

## Main definitions

* `Row`: what is known of a node
* `Table.ranks`: the ranks of the rows along a kind of link
* `Forest.ofTable?`: the forest that a table describes
-/

namespace MarkupQuery

/-- What a table knows of a node. -/
structure Row where
  kind : NodeKind
  tag : Text
  content : Text
  attributes : List (Text × Text)
  /-- The numbers of its children. -/
  children : List Nat
  /-- The number of its parent. -/
  parent : Option Nat

/-- A table of nodes. -/
abbrev Table := Array Row

namespace Table

/-- The row of a node; a number without a row is a text without content and links. -/
def row (t : Table) (n : Nat) : Row := t.getD n ⟨.text, [], [], [], [], none⟩

/-- The rank of a row among rows with the given ranks: one more than the highest rank that it links
to, and zero when it links to none. -/
def rankAbove (ranks : Array Nat) (links : List Nat) : Nat :=
  links.foldl (fun rank n => max rank (ranks.getD n 0 + 1)) 0

/-- The ranks of the rows along the given links. As many rounds as there are rows settle the ranks
when there is no cycle. -/
def ranks (t : Table) (links : Row → List Nat) : Array Nat :=
  t.size.repeat (fun ranks => t.map fun row => rankAbove ranks (links row)) (t.map fun _ => 0)

/-- Whether every link leads to a lower rank. -/
def Descends (t : Table) (links : Row → List Nat) (ranks : Array Nat) : Prop :=
  ∀ n < t.size, ∀ m ∈ links (t.row n), ranks.getD m 0 < ranks.getD n 0

instance (t : Table) (links : Row → List Nat) (ranks : Array Nat) :
    Decidable (t.Descends links ranks) := by
  unfold Descends
  infer_instance

theorem Descends.wellFounded {t : Table} {links : Row → List Nat} {ranks : Array Nat}
    (h : t.Descends links ranks) (hnone : links ⟨.text, [], [], [], [], none⟩ = []) :
    WellFounded fun m n => m ∈ links (t.row n) := by
  refine Subrelation.wf ?_ (InvImage.wf (fun n => ranks.getD n 0) Nat.lt_wfRel.wf)
  intro m n hm
  by_cases hn : n < t.size
  · exact h n hn m hm
  · rw [row, Array.getD_eq_getD_getElem?, Array.getElem?_eq_none (Nat.le_of_not_lt hn),
      Option.getD_none, hnone] at hm
    exact absurd hm List.not_mem_nil

end Table

/-- The forest that a table describes; none when its children or its parents go round in a
cycle. -/
def Forest.ofTable? (t : Table) : Option (Forest Nat) :=
  if h : t.Descends Row.children (t.ranks Row.children) ∧
      t.Descends (·.parent.toList) (t.ranks (·.parent.toList)) then
    some
      { kind := fun n => (t.row n).kind
        tag := fun n => (t.row n).tag
        content := fun n => (t.row n).content
        attr := fun n name => ((t.row n).attributes.find? (·.1 == name)).map (·.2)
        children := fun n => (t.row n).children
        parent := fun n => (t.row n).parent
        children_wf := h.1.wellFounded rfl
        parent_wf := by
          have := h.2.wellFounded rfl
          simpa only [Option.mem_toList, Option.mem_def] using this }
  else none

end MarkupQuery
