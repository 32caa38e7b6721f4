import Mathlib.Data.List.Nodup
import Mathlib.Logic.Relation
import Mathlib.Order.WellFounded
import MarkupQuery.Forest.Basic

/-!
# Trees in pre-order

A walk keeps a list of the nodes that are still to be visited. What it visits is nevertheless the
recursive listing: a node, and then the listing of each of its children in turn. In a consistent
forest the nodes that come to the same root make up a tree, and its listing has each of them once.

## Main definitions

* `Forest.preorder`: a node and the listings of its children
* `Forest.Below`: a node, a child of it, a child of that and so on

## Main results

* `Forest.subtree_eq_preorder`: a walk from a node is its recursive listing
* `Forest.mem_preorder`: the listing of a node has what is in and below it
* `Forest.Consistent.nodup_preorder`: in a consistent forest it has every node once
* `Forest.Consistent.mem_preorder_iff_root_eq`: the listing of a root has the nodes of its tree
-/

namespace MarkupQuery

namespace Forest

variable {ν : Type} {F : Forest ν} {a b m n : ν}

/-! ## The recursive listing -/

/-- A node, followed by the listings of its children from first to last. -/
def preorder (F : Forest ν) (n : ν) : List ν :=
  n :: (F.children n).attach.flatMap fun c => F.preorder c.1
termination_by F.children_wf.wrap n
decreasing_by exact c.2

theorem preorder_eq (F : Forest ν) (n : ν) :
    F.preorder n = n :: (F.children n).flatMap F.preorder := by
  rw [preorder]
  exact congrArg (n :: ·) (by
    rw [List.flatMap_def, List.flatMap_def, List.attach_map_val])

/-- What is still to be visited is listed node by node. -/
theorem walk_eq_flatMap (F : Forest ν) (ns : List ν) : F.walk ns = ns.flatMap F.preorder := by
  fun_induction F.walk ns with
  | case1 => rfl
  | case2 n rest ih =>
    rw [ih, List.flatMap_append, List.flatMap_cons, preorder_eq, List.cons_append]

/-- **A walk from a node is its recursive listing.** -/
theorem subtree_eq_preorder (F : Forest ν) (n : ν) : F.subtree n = F.preorder n := by
  rw [subtree, walk_eq_flatMap, List.flatMap_singleton]

/-! ## Below a node -/

/-- The second node is the first, or a child of it, or a child of that, and so on. -/
def Below (F : Forest ν) : ν → ν → Prop := Relation.ReflTransGen fun n c => c ∈ F.children n

theorem Below.refl : F.Below n n := Relation.ReflTransGen.refl

theorem Below.head (h : a ∈ F.children n) (hm : F.Below a m) : F.Below n m :=
  Relation.ReflTransGen.head h hm

theorem Below.trans (h : F.Below a b) (hm : F.Below b m) : F.Below a m :=
  Relation.ReflTransGen.trans h hm

/-- The listing of a node has exactly what is in and below it. -/
theorem mem_preorder : m ∈ F.preorder n ↔ F.Below n m := by
  constructor
  · intro hm
    -- Down the children, whose listings the node is in one of.
    induction n using F.children_wf.induction with
    | _ n ih =>
      rw [preorder_eq, List.mem_cons, List.mem_flatMap] at hm
      rcases hm with rfl | ⟨c, hc, hm⟩
      · exact Below.refl
      · exact Below.head hc (ih c hc hm)
  · intro hm
    -- Along the steps down, from the last one back to the first.
    induction hm using Relation.ReflTransGen.head_induction_on with
    | refl =>
      rw [preorder_eq]
      exact List.mem_cons_self
    | head hc _ ih =>
      rw [preorder_eq]
      exact List.mem_cons_of_mem _ (List.mem_flatMap.mpr ⟨_, hc, ih⟩)

theorem mem_subtree : m ∈ F.subtree n ↔ F.Below n m := by
  rw [subtree_eq_preorder, mem_preorder]

/-- No node is below its own child. -/
theorem not_below_of_mem_children (h : a ∈ F.children n) : ¬ F.Below a n := by
  intro hbelow
  have hcycle : Relation.TransGen (fun n c => c ∈ F.children n) n n :=
    Relation.TransGen.head' h hbelow
  exact F.children_wf.transGen.irrefl.irrefl n (Relation.transGen_swap.mpr hcycle)

/-! ## Above a node -/

theorem root_of_parent_eq_none (h : F.parent n = none) : F.root n = n := by
  rw [root]
  split
  · rfl
  · next hp => rw [h] at hp; contradiction

theorem root_of_parent_eq_some (h : F.parent n = some a) : F.root n = F.root a := by
  rw [root]
  split
  · next hp => rw [h] at hp; contradiction
  · next p hp => rw [h] at hp; cases hp; rfl

/-- The chain of parents ends at a node without one. -/
theorem parent_root (F : Forest ν) (n : ν) : F.parent (F.root n) = none := by
  induction n using F.parent_wf.induction with
  | _ n ih =>
    cases hp : F.parent n with
    | none => rwa [root_of_parent_eq_none hp]
    | some p => rw [root_of_parent_eq_some hp]; exact ih p hp

/-! ## Consistent forests -/

namespace Consistent

variable (hF : F.Consistent)
include hF

/-- What is below a node has the same root. -/
theorem root_eq_of_below (h : F.Below n m) : F.root m = F.root n := by
  induction h with
  | refl => rfl
  | tail _ hc ih => rw [root_of_parent_eq_some ((hF.mem_children_iff _ _).mp hc), ih]

/-- A node is below its root. -/
theorem below_root (n : ν) : F.Below (F.root n) n := by
  induction n using F.parent_wf.induction with
  | _ n ih =>
    cases hp : F.parent n with
    | none => rw [root_of_parent_eq_none hp]; exact Below.refl
    | some p =>
      rw [root_of_parent_eq_some hp]
      exact Below.trans (ih p hp) (Below.head ((hF.mem_children_iff _ _).mpr hp) Below.refl)

/-- **The listing of a root has exactly the nodes of its tree.** -/
theorem mem_preorder_iff_root_eq (hr : F.parent a = none) :
    n ∈ F.preorder a ↔ F.root n = a := by
  rw [mem_preorder]
  constructor
  · intro h
    rw [hF.root_eq_of_below h, root_of_parent_eq_none hr]
  · rintro rfl
    exact hF.below_root n

/-- Two nodes above the same node are one above the other. -/
theorem below_or_below (ha : F.Below a m) (hb : F.Below b m) : F.Below a b ∨ F.Below b a := by
  -- Both are on the one chain of parents of the node below them.
  have hparent : Relator.RightUnique fun m p => F.parent m = some p := by
    intro m p q hp hq
    exact Option.some.inj (hp.symm.trans hq)
  have hchain : ∀ {x y},
      F.Below x y ↔ Relation.ReflTransGen (fun m p => F.parent m = some p) y x := by
    intro x y
    rw [← Relation.reflTransGen_swap]
    simp only [Below, hF.mem_children_iff]
  rw [hchain] at ha hb
  rw [hchain, hchain]
  exact (Relation.ReflTransGen.total_of_right_unique hparent ha hb).symm

/-- Nothing is below two children of a node. -/
theorem eq_of_below_children (ha : a ∈ F.children n) (hb : b ∈ F.children n)
    (hma : F.Below a m) (hmb : F.Below b m) : a = b := by
  -- A child that is strictly below another has a parent below that other.
  have habove : ∀ {a b}, a ∈ F.children n → b ∈ F.children n → F.Below a b → a = b := by
    intro a b ha hb h
    rcases h with _ | ⟨h, hc⟩
    · rfl
    · have hparent := ((hF.mem_children_iff _ _).mp hc).symm.trans ((hF.mem_children_iff _ _).mp hb)
      rw [Option.some.inj hparent] at h
      exact absurd h (not_below_of_mem_children ha)
  rcases hF.below_or_below hma hmb with h | h
  · exact habove ha hb h
  · exact (habove hb ha h).symm

/-- **No listing has a node twice.** -/
theorem nodup_preorder (n : ν) : (F.preorder n).Nodup := by
  induction n using F.children_wf.induction with
  | _ n ih =>
    rw [preorder_eq, List.nodup_cons, List.nodup_flatMap]
    refine ⟨?_, ih, ?_⟩
    · -- The node is in no listing of a child.
      intro hmem
      obtain ⟨c, hc, hn⟩ := List.mem_flatMap.mp hmem
      exact not_below_of_mem_children hc (mem_preorder.mp hn)
    · -- The listings of two children have no node in common.
      refine List.Pairwise.imp_of_mem ?_ (hF.nodup_children n)
      intro a b ha hb hab m hma hmb
      exact hab (hF.eq_of_below_children ha hb (mem_preorder.mp hma) (mem_preorder.mp hmb))

end Consistent

end Forest

end MarkupQuery
