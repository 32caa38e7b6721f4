import Mathlib.Data.List.TakeWhile
import Mathlib.Data.Prod.Lex
import MarkupQuery.Forest.Order
import MarkupQuery.Proofs.Forest.Preorder

/-!
# The order of the trees

The document order is extended tree by tree, and only when several nodes are to be sorted. In a
consistent forest the outcome is independent of when that was: after any nodes it lists the trees
of these nodes, in the order in which they were first met, each of them in pre-order.

## Main definitions

* `Forest.treeOrder`: the trees of the given nodes, one after the other
* `Forest.Precedes`: a node is in an earlier tree, or in the same tree and earlier in pre-order
* `Forest.Lists`: a set of nodes, listed in increasing order
* `Forest.IsOrderOf`: the orders that a run over the trees of a context can have

## Main results

* `distinct_append`: what is repeated from the first list goes from the second
* `Forest.Consistent.number_treeOrder`: numbering more nodes appends their trees
* `Forest.Lists.unique`: a set of nodes is listed in one way only
* `Forest.Consistent.lists_sort`, `Forest.Consistent.lists_sort_context`: sorting lists its nodes
-/

namespace MarkupQuery

variable {ν : Type} [BEq ν]

/-! ## Document order -/

namespace Forest

variable {F : Forest ν} {context : List ν} {m n : ν}

/-- A node is in an earlier tree than another, or in the same tree and earlier in pre-order. The
first of the context nodes in a tree decides which trees are earlier. -/
def Precedes (F : Forest ν) (context : List ν) : ν → ν → Prop :=
  InvImage (Prod.Lex (· < ·) (· < ·)) fun n =>
    (context.findIdx (F.root · == F.root n), (F.preorder (F.root n)).idxOf n)

theorem precedes_iff : F.Precedes context m n ↔
    (context.map F.root).idxOf (F.root m) < (context.map F.root).idxOf (F.root n) ∨
      (context.map F.root).idxOf (F.root m) = (context.map F.root).idxOf (F.root n) ∧
        (F.preorder (F.root m)).idxOf m < (F.preorder (F.root n)).idxOf n := by
  simp only [Precedes, InvImage, Prod.lex_def, List.idxOf, List.findIdx_map, Function.comp_def]

/-- The nodes of a set, each once and in increasing order. -/
structure Lists (F : Forest ν) (context : List ν) (S : Set ν) (ns : List ν) : Prop where
  mem_iff : ∀ n, n ∈ ns ↔ n ∈ S
  pairwise : ns.Pairwise (F.Precedes context)

/-- **A set of nodes is listed in one way only.** -/
theorem Lists.unique {S : Set ν} {ns ms : List ν} (hns : F.Lists context S ns)
    (hms : F.Lists context S ms) : ns = ms := by
  -- The order is strict, so that nothing is repeated in a listing.
  have hasymm : ∀ {m n}, F.Precedes context m n → ¬ F.Precedes context n m := by
    intro m n
    rw [precedes_iff, precedes_iff]
    omega
  have hnodup : ∀ {ns}, F.Lists context S ns → ns.Nodup := by
    intro ns hns
    refine hns.pairwise.imp ?_
    rintro m _ hm rfl
    exact hasymm hm hm
  have hperm : ns.Perm ms := by
    rw [List.perm_ext_iff_of_nodup (hnodup hns) (hnodup hms)]
    intro n
    rw [hns.mem_iff, hms.mem_iff]
  refine List.Perm.eq_of_pairwise ?_ hns.pairwise hms.pairwise hperm
  intro m n _ _ hmn hnm
  exact absurd hnm (hasymm hmn)

end Forest

variable [Hashable ν] [LawfulBEq ν]

/-! ## Lists without repetition -/

/-- What the first list has already is left out of the second. -/
theorem distinct_append (xs ys : List ν) :
    distinct (xs ++ ys) = distinct xs ++ (distinct ys).filter (! xs.contains ·) := by
  induction xs with
  | nil => simp [distinct, distinctFrom]
  | cons x xs ih =>
    rw [List.cons_append, distinct_cons, ih, List.filter_append, List.filter_filter, distinct_cons,
      List.cons_append]
    refine congrArg (fun zs => x :: (_ ++ zs)) (List.filter_congr fun y _ => ?_)
    rw [List.contains_cons, Bool.not_or, bne]

/-- Repetitions of what came before may be left out beforehand. -/
theorem distinct_append_append {xs ys : List ν} (h : ∀ y ∈ ys, y ∈ xs) (zs : List ν) :
    distinct (xs ++ ys ++ zs) = distinct (xs ++ zs) := by
  have hys : (distinct ys).filter (! xs.contains ·) = [] := by
    rw [List.filter_eq_nil_iff]
    intro y hy
    simpa using h y (mem_distinct.mp hy)
  -- What remains is left out of the last list by the first list alone.
  rw [distinct_append, distinct_append, hys, List.append_nil, distinct_append]
  refine congrArg (distinct xs ++ ·) (List.filter_congr fun z _ => ?_)
  rw [Bool.eq_iff_iff]
  simp only [Bool.not_eq_true', ← Bool.not_eq_true, List.contains_iff_mem, List.mem_append]
  constructor
  · intro hz hxs
    exact hz (Or.inl hxs)
  · rintro hz (hxs | hzs)
    · exact hz hxs
    · exact hz (h z hzs)

/-- A list without repetitions stays as it is. -/
theorem distinct_of_nodup {xs : List ν} (h : xs.Nodup) : distinct xs = xs := by
  induction xs with
  | nil => rfl
  | cons x xs ih =>
    obtain ⟨hx, hxs⟩ := List.nodup_cons.mp h
    rw [distinct_cons, ih hxs, List.filter_eq_self.mpr]
    intro y hy
    rw [bne_iff_ne]
    rintro rfl
    exact hx hy

/-- Leaving nodes out before or after their repetitions makes no difference. -/
theorem distinct_filter (p : ν → Bool) (xs : List ν) :
    distinct (xs.filter p) = (distinct xs).filter p := by
  induction xs with
  | nil => rfl
  | cons x xs ih =>
    by_cases hx : p x = true
    · rw [List.filter_cons_of_pos hx, distinct_cons, distinct_cons, List.filter_cons_of_pos hx, ih,
        List.filter_filter, List.filter_filter]
      exact congrArg (x :: ·) (List.filter_congr fun y _ => Bool.and_comm _ _)
    · rw [List.filter_cons_of_neg hx, distinct_cons, List.filter_cons_of_neg hx, ih,
        List.filter_filter]
      refine List.filter_congr fun y _ => ?_
      -- Whatever satisfies `p` is not the node that does not.
      by_cases hy : p y = true
      · rw [hy, Bool.true_and, eq_comm, bne_iff_ne]
        rintro rfl
        exact hx hy
      · rw [Bool.eq_false_iff.mpr hy, Bool.false_and]

/-- Repetitions before a function is applied do not matter after it. -/
theorem distinct_map_distinct (f : ν → ν) (xs : List ν) :
    distinct ((distinct xs).map f) = distinct (xs.map f) := by
  induction xs with
  | nil => rfl
  | cons x xs ih =>
    rw [distinct_cons, List.map_cons, List.map_cons, distinct_cons, distinct_cons, ← ih,
      ← distinct_filter (· != f x), ← distinct_filter (· != f x), List.filter_map, List.filter_map,
      List.filter_filter]
    refine congrArg (fun ys => f x :: distinct (ys.map f)) (List.filter_congr fun y _ => ?_)
    -- What is sent elsewhere than `x` is not `x`.
    by_cases hy : f y = f x
    · simp [hy]
    · simp [hy, show y ≠ x from fun h => hy (congrArg f h)]

/-- What is kept stands in the order of first occurrence. -/
theorem pairwise_idxOf_distinct (xs : List ν) :
    (distinct xs).Pairwise fun a b => xs.idxOf a < xs.idxOf b := by
  induction xs with
  | nil => exact List.Pairwise.nil
  | cons x xs ih =>
    rw [distinct_cons, List.pairwise_cons]
    constructor
    · intro b hb
      have hne : x ≠ b := Ne.symm (bne_iff_ne.mp (List.mem_filter.mp hb).2)
      rw [List.idxOf_cons_self, List.idxOf_cons_ne _ hne]
      exact Nat.succ_pos _
    · refine List.Pairwise.imp_of_mem ?_ (ih.filter _)
      intro a b ha hb hab
      have hxa : x ≠ a := Ne.symm (bne_iff_ne.mp (List.mem_filter.mp ha).2)
      have hxb : x ≠ b := Ne.symm (bne_iff_ne.mp (List.mem_filter.mp hb).2)
      rw [List.idxOf_cons_ne _ hxa, List.idxOf_cons_ne _ hxb]
      exact Nat.succ_lt_succ hab

/-- A list of one node and its repetitions. -/
theorem distinct_of_forall_eq {xs : List ν} {a : ν} (hne : xs ≠ []) (h : ∀ x ∈ xs, x = a) :
    distinct xs = [a] := by
  refine List.perm_singleton.mp ?_
  rw [List.perm_ext_iff_of_nodup (nodup_distinct xs) (List.nodup_singleton a)]
  intro y
  rw [mem_distinct, List.mem_singleton]
  constructor
  · exact h y
  · rintro rfl
    obtain ⟨x, hx⟩ := List.exists_mem_of_ne_nil xs hne
    rwa [← h x hx]

theorem eq_nil_or_singleton {α : Type} {xs : List α} (h : xs.length < 2) :
    xs = [] ∨ ∃ x, xs = [x] := by
  rcases (show xs.length = 0 ∨ xs.length = 1 by omega) with h | h
  · exact Or.inl (List.length_eq_zero_iff.mp h)
  · exact Or.inr (List.length_eq_one_iff.mp h)

namespace Forest

variable {F : Forest ν} {context nodes : List ν} {m n : ν}

/-! ## One tree after the other -/

/-- The trees of the given nodes in the order in which they are first met, each in pre-order. -/
def treeOrder (F : Forest ν) (context : List ν) : List ν :=
  (distinct (context.map F.root)).flatMap F.preorder

/-- Whether a tree is listed depends on the trees that were met, not on how often. -/
theorem treeOrder_distinct : F.treeOrder (distinct context) = F.treeOrder context := by
  rw [treeOrder, distinct_map_distinct, treeOrder]

/-- The order is that of all trees of the context; only when there is but one tree it may be that
nothing has been put in order. -/
def IsOrderOf (F : Forest ν) (context order : List ν) : Prop :=
  order = F.treeOrder context ∨
    order = [] ∧ ∀ m ∈ context, ∀ n ∈ context, F.root m = F.root n

namespace Consistent

variable (hF : F.Consistent)
include hF

theorem mem_treeOrder : n ∈ F.treeOrder context ↔ F.root n ∈ context.map F.root := by
  rw [treeOrder, List.mem_flatMap]
  constructor
  · rintro ⟨r, hr, hn⟩
    rw [mem_distinct] at hr
    obtain ⟨c, -, rfl⟩ := List.mem_map.mp hr
    rwa [(hF.mem_preorder_iff_root_eq (F.parent_root c)).mp hn]
  · intro hn
    -- The tree that the node is in is the one below its root.
    refine ⟨F.root n, mem_distinct.mpr hn, ?_⟩
    exact (hF.mem_preorder_iff_root_eq (F.parent_root n)).mpr rfl

/-- Nodes of trees that are listed already add nothing. -/
theorem treeOrder_append_append {known : List ν} (h : ∀ n ∈ known, n ∈ F.treeOrder context)
    (rest : List ν) : F.treeOrder (context ++ known ++ rest) = F.treeOrder (context ++ rest) := by
  rw [treeOrder, treeOrder, List.map_append, List.map_append, List.map_append,
    distinct_append_append]
  intro r hr
  obtain ⟨n, hn, rfl⟩ := List.mem_map.mp hr
  exact hF.mem_treeOrder.mp (h n hn)

/-- No node is listed twice. -/
theorem nodup_treeOrder : (F.treeOrder context).Nodup := by
  rw [treeOrder, List.nodup_flatMap]
  refine ⟨fun r _ => hF.nodup_preorder r, ?_⟩
  -- A node of two trees would come to two roots.
  refine List.Pairwise.imp_of_mem ?_ (nodup_distinct (context.map F.root))
  intro r s hr hs hrs n hnr hns
  obtain ⟨a, -, rfl⟩ := List.mem_map.mp (mem_distinct.mp hr)
  obtain ⟨b, -, rfl⟩ := List.mem_map.mp (mem_distinct.mp hs)
  rw [hF.mem_preorder_iff_root_eq (F.parent_root _)] at hnr hns
  exact hrs (hnr.symm.trans hns)

/-! ## Numbering -/

/-- The tree of a node that is not listed yet comes last. -/
theorem numberTree_treeOrder (h : n ∉ F.treeOrder context) :
    F.numberTree (F.treeOrder context) n = F.treeOrder (context ++ [n]) := by
  -- The tree comes last because its root is new.
  have horder : F.treeOrder (context ++ [n]) = F.treeOrder context ++ F.preorder (F.root n) := by
    have hroot : ¬ (context.map F.root).contains (F.root n) = true := by
      rw [List.contains_iff_mem]
      exact fun hn => h (hF.mem_treeOrder.mpr hn)
    rw [treeOrder, List.map_append, distinct_append, List.flatMap_append, List.map_singleton,
      distinct_of_nodup (List.nodup_singleton _), List.filter_cons_of_pos (by simpa using hroot),
      List.filter_nil, List.flatMap_singleton, treeOrder]
  -- The node is in its own tree, and is not added once more.
  have hmem : ∀ y ∈ [n], y ∈ F.treeOrder (context ++ [n]) := by
    intro y hy
    rw [List.mem_singleton] at hy
    subst hy
    exact hF.mem_treeOrder.mpr (List.mem_map_of_mem List.mem_concat_self)
  have hdistinct := distinct_append_append hmem []
  rw [List.append_nil, List.append_nil, distinct_of_nodup hF.nodup_treeOrder] at hdistinct
  rw [numberTree, subtree_eq_preorder, ← horder, hdistinct]

/-- **Numbering more nodes appends their trees.** -/
theorem number_treeOrder (context nodes : List ν) :
    F.number (F.treeOrder context) nodes = F.treeOrder (context ++ nodes) := by
  generalize horder : F.treeOrder context = order
  fun_induction F.number order nodes generalizing context with
  | case1 order nodes known hdrop =>
    subst horder
    -- Nothing is left after the nodes that are listed already.
    have hknown : ∀ n ∈ nodes, n ∈ F.treeOrder context := by
      intro n hn
      have := List.dropWhile_eq_nil_iff.mp hdrop n hn
      rwa [Std.HashSet.contains_ofList, List.contains_iff_mem] at this
    simpa using (hF.treeOrder_append_append hknown []).symm
  | case2 order nodes known n rest hdrop ih =>
    subst horder
    have hsplit := List.takeWhile_append_dropWhile (p := known.contains) (l := nodes)
    rw [hdrop] at hsplit
    -- The nodes before the first new one add nothing, and the new one adds its tree.
    have hknown : ∀ m ∈ nodes.takeWhile known.contains, m ∈ F.treeOrder context := by
      intro m hm
      have := List.all_eq_true.mp List.all_takeWhile m hm
      rwa [Std.HashSet.contains_ofList, List.contains_iff_mem] at this
    have hn : n ∉ F.treeOrder context := by
      have hhead := List.head?_dropWhile_not known.contains nodes
      rw [hdrop] at hhead
      simpa [known] using hhead
    rw [ih _ (hF.numberTree_treeOrder hn).symm, List.append_assoc, List.singleton_append,
      ← hF.treeOrder_append_append hknown (n :: rest), List.append_assoc, hsplit]

/-! ## Sorting -/

/-- The trees are listed in increasing order. -/
theorem pairwise_precedes_treeOrder (context : List ν) :
    (F.treeOrder context).Pairwise (F.Precedes context) := by
  have hroot : ∀ {r n}, r ∈ distinct (context.map F.root) → n ∈ F.preorder r → F.root n = r := by
    intro r n hr hn
    obtain ⟨c, -, rfl⟩ := List.mem_map.mp (mem_distinct.mp hr)
    exact (hF.mem_preorder_iff_root_eq (F.parent_root c)).mp hn
  rw [treeOrder, List.pairwise_flatMap]
  constructor
  · -- Within a tree the place of the tree is the same.
    intro r hr
    have hplaces := pairwise_idxOf_distinct (F.preorder r)
    rw [distinct_of_nodup (hF.nodup_preorder r)] at hplaces
    refine List.Pairwise.imp_of_mem ?_ hplaces
    intro m n hm hn hmn
    rw [precedes_iff, hroot hr hm, hroot hr hn]
    exact Or.inr ⟨rfl, hmn⟩
  · -- Between trees it is the place of the tree that grows.
    refine List.Pairwise.imp_of_mem ?_ (pairwise_idxOf_distinct (context.map F.root))
    intro r s hr hs hrs m hm n hn
    rw [precedes_iff, hroot hr hm, hroot hs hn]
    exact Or.inl hrs

/-- Sorting lists its nodes once the order is that of their trees. -/
theorem lists_sort_of_number {order : List ν}
    (h : ¬ (distinct nodes).length < 2 → F.number order (distinct nodes) = F.treeOrder context) :
    F.Lists context {n | n ∈ nodes} (F.sort order nodes).1 := by
  refine ⟨fun n => mem_sort, ?_⟩
  rw [sort]
  split
  · -- A list of less than two nodes is in any order.
    next hlength =>
    rcases eq_nil_or_singleton hlength with hnodes | ⟨x, hnodes⟩
    · rw [hnodes]
      exact List.Pairwise.nil
    · rw [hnodes]
      exact List.pairwise_singleton _ _
  · next hlength =>
    rw [h hlength]
    exact (hF.pairwise_precedes_treeOrder context).filter _

/-- The context itself is listed, and from then on the order is that of its trees. -/
theorem lists_sort_context (context : List ν) :
    F.Lists context {n | n ∈ context} (F.sort [] context).1 ∧
      F.IsOrderOf context (F.sort [] context).2 := by
  have hnumber : F.number [] (distinct context) = F.treeOrder context := by
    rw [← treeOrder_distinct]
    exact hF.number_treeOrder [] (distinct context)
  refine ⟨hF.lists_sort_of_number fun _ => hnumber, ?_⟩
  rw [sort]
  split
  · next hlength =>
    -- Nothing was put in order, and there is one context node at most.
    refine Or.inr ⟨rfl, ?_⟩
    intro m hm n hn
    rw [← mem_distinct] at hm hn
    rcases eq_nil_or_singleton hlength with hcontext | ⟨x, hcontext⟩
    · rw [hcontext] at hm
      exact absurd hm List.not_mem_nil
    · rw [hcontext, List.mem_singleton] at hm hn
      rw [hm, hn]
  · exact Or.inl hnumber

/-- Nodes of the trees of the context are listed, and the order stays that of these trees. -/
theorem lists_sort {order : List ν} (horder : F.IsOrderOf context order)
    (hnodes : ∀ n ∈ nodes, F.root n ∈ context.map F.root) :
    F.Lists context {n | n ∈ nodes} (F.sort order nodes).1 ∧
      F.IsOrderOf context (F.sort order nodes).2 := by
  have hnumber (hlength : ¬ (distinct nodes).length < 2) :
      F.number order (distinct nodes) = F.treeOrder context := by
    rcases horder with rfl | ⟨rfl, hroots⟩
    · -- All trees are there, and nothing is added.
      rw [hF.number_treeOrder]
      have hmem : ∀ n ∈ distinct nodes, n ∈ F.treeOrder context := by
        intro n hn
        exact hF.mem_treeOrder.mpr (hnodes n (mem_distinct.mp hn))
      simpa using hF.treeOrder_append_append hmem []
    · -- The one tree of the context is that of any of the nodes.
      obtain ⟨n, hn⟩ := List.exists_mem_of_length_pos (show 0 < (distinct nodes).length by omega)
      obtain ⟨c, hc, hroot⟩ := List.mem_map.mp (hnodes n (mem_distinct.mp hn))
      have hnumber := hF.number_treeOrder [] (distinct nodes)
      rw [List.nil_append, treeOrder_distinct] at hnumber
      refine hnumber.trans ?_
      rw [treeOrder, treeOrder, distinct_of_forall_eq (a := F.root c),
        distinct_of_forall_eq (a := F.root c)]
      · exact List.ne_nil_of_mem (List.mem_map_of_mem hc)
      · intro r hr
        obtain ⟨d, hd, rfl⟩ := List.mem_map.mp hr
        exact hroots d hd c hc
      · exact List.ne_nil_of_mem (List.mem_map_of_mem (mem_distinct.mp hn))
      · intro r hr
        obtain ⟨m, hm, rfl⟩ := List.mem_map.mp hr
        obtain ⟨d, hd, hd'⟩ := List.mem_map.mp (hnodes m hm)
        rw [← hd']
        exact hroots d hd c hc
  refine ⟨hF.lists_sort_of_number hnumber, ?_⟩
  rw [sort]
  split
  · exact horder
  · next hlength => exact Or.inl (hnumber hlength)

end Consistent

end Forest

end MarkupQuery
