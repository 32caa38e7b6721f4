import MarkupQuery.Forest.Basic
import Std.Data.HashSet

/-!
# Document order

Sets of nodes are listed without repetition and in document order: parents before children, and
children in order. Trees have no order among each other until nodes of them are listed. The first
time that a node of a tree is, the whole tree is put in order after all trees before it, and there
it stays. Sets of less than two nodes are in order already and leave everything as it is.

The order so far is a list of nodes without repetition.

## Main definitions

* `distinct`: a list without repetitions
* `Forest.numberTree`, `Forest.number`: the order extended to the tree of a node, and to the trees
  of several
* `Forest.sort`: a set of nodes in order

## Main results

* `mem_distinct`, `nodup_distinct`, `distinct_cons`: what `distinct` keeps
* `Forest.mem_sort`: sorting keeps exactly the given nodes
-/

namespace MarkupQuery

variable {ν : Type} [BEq ν] [Hashable ν]

/-! ## Lists without repetition -/

/-- The list without the nodes in `seen`, and without repetitions. -/
def distinctFrom (seen : Std.HashSet ν) : List ν → List ν
  | [] => []
  | x :: xs =>
    if seen.contains x then distinctFrom seen xs
    else x :: distinctFrom (seen.insert x) xs

/-- The list with only the first of every repeated node. -/
def distinct (xs : List ν) : List ν := distinctFrom ∅ xs

theorem mem_distinctFrom [LawfulBEq ν] {seen : Std.HashSet ν} {xs : List ν} {y : ν} :
    y ∈ distinctFrom seen xs ↔ y ∈ xs ∧ y ∉ seen := by
  induction xs generalizing seen with
  | nil => simp [distinctFrom]
  | cons x xs ih =>
    rw [distinctFrom]
    split
    · next hx =>
      have hx : x ∈ seen := Std.HashSet.mem_iff_contains.mpr hx
      rw [ih, List.mem_cons]
      constructor
      · exact fun ⟨hy, hseen⟩ => ⟨Or.inr hy, hseen⟩
      · rintro ⟨rfl | hy, hseen⟩
        · exact absurd hx hseen
        · exact ⟨hy, hseen⟩
    · next hx =>
      have hx : x ∉ seen := fun h => hx (Std.HashSet.mem_iff_contains.mp h)
      rw [List.mem_cons, ih, Std.HashSet.mem_insert, List.mem_cons, beq_iff_eq]
      constructor
      · rintro (rfl | ⟨hy, hseen⟩)
        · exact ⟨Or.inl rfl, hx⟩
        · exact ⟨Or.inr hy, fun h => hseen (Or.inr h)⟩
      · rintro ⟨rfl | hy, hseen⟩
        · exact Or.inl rfl
        · by_cases hxy : x = y
          · exact Or.inl hxy.symm
          · exact Or.inr ⟨hy, fun h => h.elim hxy hseen⟩

/-- Nothing is lost and nothing added. -/
theorem mem_distinct [LawfulBEq ν] {xs : List ν} {y : ν} : y ∈ distinct xs ↔ y ∈ xs := by
  simp [distinct, mem_distinctFrom]

theorem nodup_distinctFrom [LawfulBEq ν] (seen : Std.HashSet ν) (xs : List ν) :
    (distinctFrom seen xs).Nodup := by
  induction xs generalizing seen with
  | nil => simp [distinctFrom]
  | cons x xs ih =>
    rw [distinctFrom]
    split
    · exact ih seen
    · refine List.nodup_cons.mpr ⟨fun h => ?_, ih _⟩
      exact (mem_distinctFrom.mp h).2 Std.HashSet.mem_insert_self

/-- Nothing is repeated. -/
theorem nodup_distinct [LawfulBEq ν] (xs : List ν) : (distinct xs).Nodup :=
  nodup_distinctFrom ∅ xs

/-- What `distinctFrom` leaves out depends on the members of the set only. -/
theorem distinctFrom_congr {s t : Std.HashSet ν} [LawfulBEq ν] (h : ∀ x, x ∈ s ↔ x ∈ t)
    (xs : List ν) : distinctFrom s xs = distinctFrom t xs := by
  induction xs generalizing s t with
  | nil => rfl
  | cons x xs ih =>
    have hx : s.contains x = t.contains x := by
      rw [Bool.eq_iff_iff, ← Std.HashSet.mem_iff_contains, ← Std.HashSet.mem_iff_contains, h]
    have hinsert : ∀ y, y ∈ s.insert x ↔ y ∈ t.insert x := by
      intro y
      rw [Std.HashSet.mem_insert, Std.HashSet.mem_insert, h]
    rw [distinctFrom, distinctFrom, hx, ih h, ih hinsert]

theorem distinctFrom_insert [LawfulBEq ν] (seen : Std.HashSet ν) (x : ν) (xs : List ν) :
    distinctFrom (seen.insert x) xs = (distinctFrom seen xs).filter (· != x) := by
  induction xs generalizing seen with
  | nil => rfl
  | cons y xs ih =>
    rw [distinctFrom, distinctFrom, Std.HashSet.contains_insert]
    by_cases hxy : x = y
    · -- The repetition of `x` is left out on both sides.
      subst hxy
      rw [beq_self_eq_true, Bool.true_or, if_pos rfl, ih]
      split
      · rfl
      · simp [List.filter_filter]
    · rw [beq_false_of_ne hxy, Bool.false_or]
      split
      · exact ih seen
      · rw [List.filter_cons_of_pos (by simpa using fun h => hxy h.symm), ← ih]
        -- The two nodes may be marked as seen in either order.
        refine congrArg (y :: ·) (distinctFrom_congr (fun z => ?_) xs)
        simp only [Std.HashSet.mem_insert]
        exact or_left_comm

/-- The first node stays, and all its repetitions go. -/
theorem distinct_cons [LawfulBEq ν] (x : ν) (xs : List ν) :
    distinct (x :: xs) = x :: (distinct xs).filter (· != x) := by
  rw [distinct, distinctFrom, if_neg (by simp), distinctFrom_insert, distinct]

/-! ## The order of trees -/

namespace Forest

/-- The order extended to the tree of a node: to its root and everything below that, and to the
node itself should it not be there. -/
def numberTree (F : Forest ν) (order : List ν) (n : ν) : List ν :=
  distinct (order ++ F.subtree (F.root n) ++ [n])

/-- The order extended to the trees of several nodes, one after the other. A node that is in the
order already leaves it as it is. -/
def number (F : Forest ν) (order nodes : List ν) : List ν :=
  let known := Std.HashSet.ofList order
  match _h : nodes.dropWhile known.contains with
  | [] => order
  | n :: rest => F.number (F.numberTree order n) rest
termination_by nodes.length
decreasing_by
  have h := (List.dropWhile_suffix (l := nodes) known.contains).length_le
  rw [‹nodes.dropWhile _ = n :: rest›, List.length_cons] at h
  omega

/-- The given nodes without repetition and in order, and the order extended to them. -/
def sort (F : Forest ν) (order nodes : List ν) : List ν × List ν :=
  let nodes := distinct nodes
  if nodes.length < 2 then (nodes, order)
  else
    let order := F.number order nodes
    let wanted := Std.HashSet.ofList nodes
    (order.filter wanted.contains, order)

/-! ## What sorting keeps -/

variable [LawfulBEq ν]

/-- The node itself gets a place in the order, and nothing loses its own. -/
theorem mem_numberTree {F : Forest ν} {order : List ν} {n y : ν} (h : y ∈ order ∨ y = n) :
    y ∈ F.numberTree order n := by
  rw [numberTree, mem_distinct, List.mem_append, List.mem_append, List.mem_singleton]
  exact h.elim (fun h => Or.inl (Or.inl h)) Or.inr

theorem mem_number_of_mem {F : Forest ν} {order nodes : List ν} {y : ν} (h : y ∈ order) :
    y ∈ F.number order nodes := by
  fun_induction F.number order nodes with
  | case1 => exact h
  | case2 order nodes known n rest _ ih => exact ih (mem_numberTree (Or.inl h))

/-- Every given node has a place in the extended order. -/
theorem mem_number {F : Forest ν} {order nodes : List ν} {y : ν} (h : y ∈ nodes) :
    y ∈ F.number order nodes := by
  fun_induction F.number order nodes with
  | case1 order nodes known hdrop =>
    -- Nothing is left after the known nodes, so all of them are known.
    have hall := List.takeWhile_append_dropWhile (p := known.contains) (l := nodes)
    rw [hdrop, List.append_nil] at hall
    rw [← hall] at h
    have := List.all_eq_true.mp List.all_takeWhile _ h
    rwa [Std.HashSet.contains_ofList, List.contains_iff_mem] at this
  | case2 order nodes known n rest hdrop ih =>
    -- A given node is known, or the one whose tree is put in order next, or comes after it.
    have hall := List.takeWhile_append_dropWhile (p := known.contains) (l := nodes)
    rw [hdrop] at hall
    rw [← hall, List.mem_append, List.mem_cons] at h
    rcases h with h | rfl | h
    · have := List.all_eq_true.mp List.all_takeWhile _ h
      rw [Std.HashSet.contains_ofList, List.contains_iff_mem] at this
      exact mem_number_of_mem (mem_numberTree (Or.inl this))
    · exact mem_number_of_mem (mem_numberTree (Or.inr rfl))
    · exact ih h

/-- Sorting keeps exactly the given nodes. -/
theorem mem_sort {F : Forest ν} {order nodes : List ν} {y : ν} :
    y ∈ (F.sort order nodes).1 ↔ y ∈ nodes := by
  rw [sort]
  split
  · exact mem_distinct
  · rw [List.mem_filter, Std.HashSet.contains_ofList, List.contains_iff_mem, mem_distinct]
    exact ⟨fun h => h.2, fun h => ⟨mem_number (mem_distinct.mpr h), h⟩⟩

end Forest

end MarkupQuery
