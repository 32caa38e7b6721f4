import MarkupQuery.Text.Basic

/-!
# Forests

Queries run over any kind of node that can be asked for its kind, its tag, its content, its
attributes, its children and its parent. The links need not agree with each other: a node may be
a child twice, or of two nodes, or of none that it calls its parent. All that is asked of them is
that no chain of children, and no chain of parents, goes on for ever.

## Main definitions

* `Forest`: the nodes that a query runs over
* `Forest.Consistent`: the forests in which children and parents agree
* `Forest.subtree`: a node and everything below it, parents first
* `Forest.root`: the last node in the chain of parents
* `Forest.textOf`: the text in and below a node

## Main results

* `Forest.walk_cons`: a walk visits a node, then its children, then the rest
-/

namespace MarkupQuery

/-- The two kinds of node that a query tells apart. -/
inductive NodeKind where
  | element
  | text
  deriving DecidableEq, Repr

/-- The nodes that a query runs over, and what can be asked of them. -/
structure Forest (ν : Type) where
  kind : ν → NodeKind
  tag : ν → Text
  content : ν → Text
  attr : ν → Text → Option Text
  children : ν → List ν
  parent : ν → Option ν
  /-- No chain of children goes on for ever. -/
  children_wf : WellFounded fun c n => c ∈ children n
  /-- No chain of parents goes on for ever. -/
  parent_wf : WellFounded fun p n => parent n = some p

namespace Forest

variable {ν : Type}

/-- Children and parents agree: no node is listed twice among the children of another, and a node
is a child of exactly the node that it calls its parent. -/
structure Consistent (F : Forest ν) : Prop where
  /-- No node lists a child twice. -/
  nodup_children : ∀ n, (F.children n).Nodup
  /-- The children of a node are the nodes that call it their parent. -/
  mem_children_iff : ∀ c n, c ∈ F.children n ↔ F.parent c = some n

/-! ## Below a node -/

/-- The number of steps in which a node and everything below it is visited. -/
def weight (F : Forest ν) (n : ν) : Nat :=
  (F.children n).attach.foldr (fun c total => F.weight c.1 + total) 0 + 1
termination_by F.children_wf.wrap n
decreasing_by exact c.2

/-- The number of steps in which several nodes and everything below them are visited. -/
def weights (F : Forest ν) (ns : List ν) : Nat := ns.foldr (fun n total => F.weight n + total) 0

theorem weight_eq (F : Forest ν) (n : ν) : F.weight n = F.weights (F.children n) + 1 := by
  rw [weight, weights, List.foldr_attach (f := fun c total => F.weight c + total)]

theorem weights_append (F : Forest ν) (ns ms : List ν) :
    F.weights (ns ++ ms) = F.weights ns + F.weights ms := by
  induction ns with
  | nil => exact (Nat.zero_add _).symm
  | cons n ns ih => exact (congrArg (F.weight n + ·) ih).trans (Nat.add_assoc _ _ _).symm

/-- The nodes met on a walk over everything in and below the given nodes: after each node come its
children, and then what was left before it. -/
def walk (F : Forest ν) : List ν → List ν
  | [] => []
  | n :: rest => n :: F.walk (F.children n ++ rest)
termination_by pending => F.weights pending
decreasing_by
  rw [weights_append]
  exact Nat.add_lt_add_right (by rw [weight_eq]; exact Nat.lt_succ_self _) _

@[simp] theorem walk_nil (F : Forest ν) : F.walk [] = [] := by rw [walk]

/-- A walk visits a node, then its children, then the rest. -/
theorem walk_cons (F : Forest ν) (n : ν) (rest : List ν) :
    F.walk (n :: rest) = n :: F.walk (F.children n ++ rest) := by rw [walk]

/-- A node and everything below it, parents first and children in order. A node that can be
reached in several ways is listed as many times. -/
def subtree (F : Forest ν) (n : ν) : List ν := F.walk [n]

/-! ## Above a node -/

/-- The last node in the chain of parents of a node. -/
def root (F : Forest ν) (n : ν) : ν :=
  match _h : F.parent n with
  | none => n
  | some p => F.root p
termination_by F.parent_wf.wrap n
decreasing_by assumption

/-! ## Text -/

/-- The text of a node: its content if it is a text, and otherwise the contents of all texts below
it, one after the other. -/
def textOf (F : Forest ν) (n : ν) : Text :=
  if F.kind n = .text then F.content n
  else ((F.subtree n).filter (F.kind · = .text)).flatMap F.content

end Forest

end MarkupQuery
