import MarkupQuery.Proofs.Forest.Resume
import MarkupQuery.Proofs.Result

/-!
# Positions

The document order is a numbering of nodes that grows as they are met. Nothing is asked here of the
links of a forest: trees may share nodes, and a node may be listed twice by its parent, or not at
all, so that it is numbered by itself. Even then a run has one order throughout. A node without a
position is given the next one and keeps it, and every set of two nodes or more is listed by
position; a set of one node or none is listed without looking at positions, and there is nothing to
order in it.

## Main definitions

* `Forest.position?`: the position of a node in an order
* `Forest.place`: the order in which one more node has a position
* `Forest.IsNumbering`: positions are the numbers from zero on, each of one node
* `Run.Keeps`: what a later state of a run keeps of an earlier one
* `Forest.stateAfter`: the state of a run after a number of stages

## Main results

* `Forest.numberTree_eq_foldl`: the nodes of a tree are given positions one after the other
* `Forest.extends_steps`: no position that is given in a run is taken back or changed
* `Forest.isOrdered_steps`: along a run, sets of nodes are listed without repetition and by position
* `Forest.stateAfter_keeps`: a run over any forest has one order throughout
-/

namespace MarkupQuery

variable {ν : Type}

/-! ## Orders -/

namespace Forest

/-- Once the first order gives every node one position, so does the second, and it begins with the
first. -/
def Extends (before after : List ν) : Prop := before.Nodup → before <+: after ∧ after.Nodup

theorem Extends.refl (order : List ν) : Extends order order := fun h => ⟨List.prefix_rfl, h⟩

theorem Extends.trans {a b c : List ν} (hab : Extends a b) (hbc : Extends b c) : Extends a c := by
  intro ha
  obtain ⟨hbegins, hb⟩ := hab ha
  obtain ⟨hbegins', hc⟩ := hbc hb
  exact ⟨hbegins.trans hbegins', hc⟩

/-- The positions are the numbers below `size`, each of one node. -/
structure IsNumbering (position : ν → Option Nat) (size : Nat) : Prop where
  eq_of_position_eq : ∀ m n k, position m = some k → position n = some k → m = n
  exists_position_iff : ∀ k, (∃ n, position n = some k) ↔ k < size

variable [BEq ν]

/-- The position of a node in an order, counted from zero; none while it has not been given one. -/
def position? (order : List ν) (n : ν) : Option Nat := order.idxOf? n

/-- The order in which a node has a position: a node without one is given the next. -/
def place (order : List ν) (n : ν) : List ν := if order.contains n then order else order ++ [n]

variable [LawfulBEq ν] {F : Forest ν} {order nodes : List ν} {n : ν}

theorem position?_eq_some_iff (h : order.Nodup) {k : Nat} :
    position? order n = some k ↔ order[k]? = some n := by
  rw [position?, List.idxOf?_eq_some_iff, List.getElem?_eq_some_iff]
  constructor
  · rintro ⟨hk, hn, -⟩
    exact ⟨hk, hn⟩
  · rintro ⟨hk, rfl⟩
    refine ⟨hk, rfl, fun j hj heq => ?_⟩
    exact Nat.ne_of_lt hj ((List.Nodup.getElem_inj_iff h).mp heq)

/-- An order without repetitions is a numbering of its nodes. -/
theorem isNumbering_position? (h : order.Nodup) : IsNumbering (position? order) order.length where
  eq_of_position_eq m n k hm hn := by
    rw [position?_eq_some_iff h] at hm hn
    exact Option.some.inj (hm.symm.trans hn)
  exists_position_iff k := by
    simp only [position?_eq_some_iff h, List.getElem?_eq_some_iff, exists_comm (α := ν),
      exists_eq', exists_prop, and_true]

/-- In a longer order a node has the position that it has in a shorter one. -/
theorem position?_of_prefix {before after : List ν} (hbegins : before <+: after)
    (h : after.Nodup) {k : Nat} (hn : position? before n = some k) :
    position? after n = some k := by
  rw [position?_eq_some_iff (h.sublist hbegins.sublist)] at hn
  rw [position?_eq_some_iff h]
  obtain ⟨rest, rfl⟩ := hbegins
  rw [List.getElem?_append_left (List.getElem?_eq_some_iff.mp hn).1, hn]

/-! ## Giving positions -/

theorem extends_place (order : List ν) (n : ν) : Extends order (place order n) := by
  intro h
  unfold place
  split
  · exact ⟨List.prefix_rfl, h⟩
  · next hn =>
    rw [List.contains_iff_mem] at hn
    refine ⟨List.prefix_append _ _, List.nodup_append.mpr ⟨h, List.nodup_singleton n, ?_⟩⟩
    rintro m hm _ hmem rfl
    exact hn (List.mem_singleton.mp hmem ▸ hm)

theorem extends_foldl_place (order ns : List ν) : Extends order (ns.foldl place order) := by
  induction ns generalizing order with
  | nil => exact .refl order
  | cons n ns ih => exact (extends_place order n).trans (ih (place order n))

variable [Hashable ν]

/-- Leaving repetitions out of further nodes is giving them positions one after the other. -/
theorem distinct_append_eq_foldl (h : order.Nodup) (ns : List ν) :
    distinct (order ++ ns) = ns.foldl place order := by
  induction ns generalizing order with
  | nil => rw [List.append_nil, distinct_of_nodup h, List.foldl_nil]
  | cons n ns ih =>
    rw [List.foldl_cons, ← ih (extends_place order n h).2, List.append_cons]
    unfold place
    split
    · next hn =>
      rw [List.contains_iff_mem] at hn
      exact distinct_append_append (by simpa using hn) ns
    · rfl

/-- **The nodes of a tree are given positions one after the other**, and then the node itself,
should it not be below its own root. -/
theorem numberTree_eq_foldl (h : order.Nodup) (n : ν) :
    F.numberTree order n = (F.subtree (F.root n) ++ [n]).foldl place order := by
  rw [numberTree, List.append_assoc, distinct_append_eq_foldl h]

theorem extends_numberTree (order : List ν) (n : ν) : Extends order (F.numberTree order n) := by
  intro h
  rw [numberTree_eq_foldl h]
  exact extends_foldl_place order _ h

/-- Nodes that all have positions leave the order as it is. -/
theorem number_of_subset (h : nodes ⊆ order) : F.number order nodes = order := by
  have hdrop : nodes.dropWhile (Std.HashSet.ofList order).contains = [] := by
    rw [List.dropWhile_eq_nil_iff]
    intro m hm
    rw [Std.HashSet.contains_ofList, List.contains_iff_mem.mpr (h hm)]
  rw [number]
  split
  · rfl
  · next hcons => exact absurd (hdrop.symm.trans hcons) (List.cons_ne_nil _ _).symm

/-- The first node without a position has the whole of its tree put in order. -/
theorem number_cons_of_notMem (h : n ∉ order) (rest : List ν) :
    F.number order (n :: rest) = F.number (F.numberTree order n) rest := by
  have hdrop : (n :: rest).dropWhile (Std.HashSet.ofList order).contains = n :: rest := by
    rw [List.dropWhile_cons_of_neg]
    rwa [Std.HashSet.contains_ofList, List.contains_iff_mem]
  rw [number]
  split
  · next hnil => exact absurd (hdrop.symm.trans hnil) (List.cons_ne_nil _ _)
  · next m rest' hcons =>
    obtain ⟨rfl, rfl⟩ := List.cons.inj (hdrop.symm.trans hcons)
    rfl

theorem extends_number (order nodes : List ν) : Extends order (F.number order nodes) := by
  fun_induction F.number order nodes with
  | case1 order nodes => exact .refl order
  | case2 order nodes known n rest _ ih => exact (extends_numberTree order n).trans ih

/-! ## Sorting -/

/-- Two nodes or more are taken from the order, once all of them have positions. -/
theorem sort_of_two_le (h : ¬ (distinct nodes).length < 2) :
    F.sort order nodes = ((F.number order (distinct nodes)).filter (distinct nodes).contains,
      F.number order (distinct nodes)) := by
  have hcontains : (Std.HashSet.ofList (distinct nodes)).contains = (distinct nodes).contains :=
    funext fun n => Std.HashSet.contains_ofList
  rw [sort, if_neg h, ← hcontains]

theorem extends_sort (order nodes : List ν) : Extends order (F.sort order nodes).2 := by
  rw [sort]
  split
  · exact .refl order
  · exact extends_number order _

omit [LawfulBEq ν] in
/-- Of two nodes or more, those that sorting lists are taken from the order; one or none is listed
as it is. -/
theorem sublist_sort (order nodes : List ν) :
    (F.sort order nodes).1.length < 2 ∨
      List.Sublist (F.sort order nodes).1 (F.sort order nodes).2 := by
  rw [sort]
  split
  · next hlength => exact Or.inl hlength
  · exact Or.inr List.filter_sublist

theorem nodup_sort (h : order.Nodup) (nodes : List ν) : (F.sort order nodes).1.Nodup := by
  have hextends := extends_sort (F := F) order nodes h
  rw [sort] at hextends ⊢
  split
  · exact nodup_distinct nodes
  · next hlength =>
    rw [if_neg hlength] at hextends
    exact hextends.2.filter _

end Forest

/-! ## States -/

namespace Run

variable {before after run : Run ν}

/-- No node has two positions, and a set of nodes is listed without repetition and, when there are
two or more, by position. -/
structure IsOrdered (run : Run ν) : Prop where
  nodup_order : run.order.Nodup
  nodup_nodes : ∀ ns, run.value = .nodes ns → ns.Nodup
  sublist_order : ∀ ns, run.value = .nodes ns → ns.length < 2 ∨ ns.Sublist run.order

/-- What a later state of a run keeps: positions are only added, one after the other, and two nodes
that both states list are listed in the same order by both. -/
structure Keeps [BEq ν] (before after : Run ν) : Prop where
  order_eq_foldl : ∃ ns : List ν, after.order = ns.foldl Forest.place before.order
  position?_eq : ∀ n k, Forest.position? before.order n = some k →
    Forest.position? after.order n = some k
  idxOf_lt_iff : ∀ ns ms, before.value = .nodes ns → after.value = .nodes ms →
    ∀ a b, a ∈ ns → b ∈ ns → a ∈ ms → b ∈ ms → (ns.idxOf a < ns.idxOf b ↔ ms.idxOf a < ms.idxOf b)

namespace IsOrdered

/-- A list that two nodes are in is taken from the order. -/
theorem sublist_of_ne (h : run.IsOrdered) {ns : List ν} (hns : run.value = .nodes ns) {a b : ν}
    (ha : a ∈ ns) (hb : b ∈ ns) (hab : a ≠ b) : ns.Sublist run.order := by
  rcases h.sublist_order ns hns with hlength | hsublist
  · rcases eq_nil_or_singleton hlength with rfl | ⟨x, rfl⟩
    · contradiction
    · rw [List.mem_singleton] at ha hb
      exact absurd (ha.trans hb.symm) hab
  · exact hsublist

variable [BEq ν] [LawfulBEq ν] [Hashable ν]

/-- Two nodes are listed as they are ordered. -/
theorem idxOf_lt_iff_order (h : run.IsOrdered) {ns : List ν} (hns : run.value = .nodes ns)
    {a b : ν} (ha : a ∈ ns) (hb : b ∈ ns) (hab : a ≠ b) :
    ns.idxOf a < ns.idxOf b ↔ run.order.idxOf a < run.order.idxOf b := by
  have hsublist := h.sublist_of_ne hns ha hb hab
  have hpairwise := pairwise_idxOf_distinct run.order
  rw [distinct_of_nodup h.nodup_order] at hpairwise
  refine Forest.idxOf_lt_idxOf_iff ((hpairwise.sublist hsublist).imp Nat.le_of_lt) ?_ ha hb
  intro c hc d _ heq
  exact (List.idxOf_inj (hsublist.subset hc)).mp heq

/-- **A state whose order begins with that of another keeps it.** -/
theorem keeps (hbefore : before.IsOrdered) (hafter : after.IsOrdered)
    (hextends : Forest.Extends before.order after.order) : before.Keeps after := by
  obtain ⟨hbegins, -⟩ := hextends hbefore.nodup_order
  refine ⟨?_, fun n k => Forest.position?_of_prefix hbegins hafter.nodup_order, ?_⟩
  · obtain ⟨added, hadded⟩ := hbegins
    refine ⟨added, ?_⟩
    rw [← Forest.distinct_append_eq_foldl hbefore.nodup_order, hadded,
      distinct_of_nodup hafter.nodup_order]
  · intro ns ms hns hms a b ha hb ha' hb'
    by_cases hab : a = b
    · rw [hab, iff_iff_eq, lt_self_iff_false, lt_self_iff_false]
    · -- Both nodes have positions in the first order, which they keep.
      have hsublist := hbefore.sublist_of_ne hns ha hb hab
      rw [hbefore.idxOf_lt_iff_order hns ha hb hab, hafter.idxOf_lt_iff_order hms ha' hb' hab,
        hbegins.idxOf_eq_of_mem (hsublist.subset ha), hbegins.idxOf_eq_of_mem (hsublist.subset hb)]

end IsOrdered

end Run

/-! ## Runs -/

namespace Forest

variable [BEq ν] [Hashable ν] {F : Forest ν} {context : List ν} {p : Pipeline}
  {run before after : Run ν} {stage : Stage}

/-- The state of a run after the first `i` stages of a pipeline. -/
def stateAfter (F : Forest ν) (context : List ν) (p : Pipeline) (i : Nat) :
    Except EvalError (Run ν) :=
  F.steps (F.start context) (p.take i)

theorem stateAfter_succ {i : Nat} (h : p[i]? = some stage) :
    F.stateAfter context p (i + 1) =
      F.stateAfter context p i >>= fun run => F.step run stage := by
  rw [stateAfter, List.take_add_one, h, Option.toList_some, steps_append]
  refine congrArg _ (funext fun run => ?_)
  rw [steps, List.foldlM_cons]
  cases F.step run stage <;> rfl

/-- A later state is what the stages between make of an earlier one. -/
theorem stateAfter_of_le {i j : Nat} (hij : i ≤ j) (h : F.stateAfter context p i = .ok before) :
    F.stateAfter context p j = F.steps before ((p.take j).drop i) := by
  have hsplit := List.take_append_drop i (p.take j)
  rw [List.take_take, Nat.min_eq_left hij] at hsplit
  rw [stateAfter] at h
  rw [stateAfter, ← hsplit, steps_append, h, hsplit]
  rfl

/-- **What a stage does to a state**: a selection lists the nodes that it gives, an extraction makes
a text of nodes, and an edit of a text, which both leave the order as it is. -/
theorem step_cases (h : F.step before stage = .ok after) :
    (∃ selection ns, stage = .select selection ∧ before.value = .nodes ns ∧
        after = F.arrange before.order (F.select selection ns)) ∨
      (∃ extraction ns, stage = .extract extraction ∧ before.value = .nodes ns ∧
        after = ⟨before.order, .text (F.extract extraction ns)⟩) ∨
      ∃ edit t, stage = .edit edit ∧ before.value = .text t ∧
        after = ⟨before.order, .text (edit.apply t)⟩ := by
  obtain ⟨order, value⟩ := before
  cases stage with
  | select selection =>
    cases value with
    | nodes ns => exact Or.inl ⟨selection, ns, rfl, rfl, (Except.ok.inj h).symm⟩
    | text t => contradiction
  | extract extraction =>
    cases value with
    | nodes ns => exact Or.inr (Or.inl ⟨extraction, ns, rfl, rfl, (Except.ok.inj h).symm⟩)
    | text t => contradiction
  | edit edit =>
    cases value with
    | nodes ns => contradiction
    | text t => exact Or.inr (Or.inr ⟨edit, t, rfl, rfl, (Except.ok.inj h).symm⟩)

variable [LawfulBEq ν]

theorem isOrdered_arrange {order : List ν} (h : order.Nodup) (nodes : List ν) :
    (F.arrange order nodes).IsOrdered where
  nodup_order := (extends_sort order nodes h).2
  nodup_nodes _ hns := Value.nodes.inj hns ▸ nodup_sort h nodes
  sublist_order _ hns := Value.nodes.inj hns ▸ sublist_sort order nodes

theorem isOrdered_start (context : List ν) : (F.start context).IsOrdered :=
  isOrdered_arrange List.nodup_nil context

/-- A stage only adds positions. -/
theorem extends_step (h : F.step before stage = .ok after) :
    Extends before.order after.order := by
  obtain ⟨selection, ns, -, -, rfl⟩ | ⟨extraction, ns, -, -, rfl⟩ | ⟨edit, t, -, -, rfl⟩ :=
    step_cases h
  · exact extends_sort before.order _
  · exact .refl before.order
  · exact .refl before.order

theorem isOrdered_step (hbefore : before.IsOrdered) (h : F.step before stage = .ok after) :
    after.IsOrdered := by
  obtain ⟨selection, ns, -, -, rfl⟩ | ⟨extraction, ns, -, -, rfl⟩ | ⟨edit, t, -, -, rfl⟩ :=
    step_cases h
  · exact isOrdered_arrange hbefore.nodup_order _
  · exact ⟨hbefore.nodup_order, nofun, nofun⟩
  · exact ⟨hbefore.nodup_order, nofun, nofun⟩

/-- **No position that is given in a run is taken back or changed.** -/
theorem extends_steps (h : F.steps before p = .ok after) : Extends before.order after.order := by
  induction p generalizing before with
  | nil =>
    obtain rfl := pure_eq_ok_iff.mp h
    exact .refl before.order
  | cons stage p ih =>
    rw [steps, List.foldlM_cons, bind_eq_ok_iff] at h
    obtain ⟨next, hstep, hsteps⟩ := h
    exact (extends_step hstep).trans (ih hsteps)

/-- **Along a run, sets of nodes are listed without repetition and by position.** -/
theorem isOrdered_steps (hbefore : before.IsOrdered) (h : F.steps before p = .ok after) :
    after.IsOrdered := by
  induction p generalizing before with
  | nil =>
    obtain rfl := pure_eq_ok_iff.mp h
    exact hbefore
  | cons stage p ih =>
    rw [steps, List.foldlM_cons, bind_eq_ok_iff] at h
    obtain ⟨next, hstep, hsteps⟩ := h
    exact ih (isOrdered_step hbefore hstep) hsteps

/-- **A run over any forest has one order throughout**, however its links disagree. It begins with
the nodes of the context. After every stage the positions are the numbers from zero on, each of one
node, and a set of nodes is listed without repetition. A selection always gives a set of nodes,
exactly those that it selects from the set before it, and there are no others. And every later state
keeps the positions and the order of an earlier one. -/
theorem stateAfter_keeps (F : Forest ν) (context : List ν) (p : Pipeline) :
    (∃ order ns, F.stateAfter context p 0 = .ok ⟨order, .nodes ns⟩ ∧ ∀ n, n ∈ ns ↔ n ∈ context) ∧
      (∀ i run, F.stateAfter context p i = .ok run →
        IsNumbering (position? run.order) run.order.length ∧
          ∀ ns, run.value = .nodes ns → ns.Nodup) ∧
      (∀ i selection order ns, p[i]? = some (.select selection) →
        F.stateAfter context p i = .ok ⟨order, .nodes ns⟩ →
          ∃ order' ms, F.stateAfter context p (i + 1) = .ok ⟨order', .nodes ms⟩ ∧
            ∀ m, m ∈ ms ↔ m ∈ F.image selection {n | n ∈ ns}) ∧
      (∀ i stage order' ms, p[i]? = some stage →
        F.stateAfter context p (i + 1) = .ok ⟨order', .nodes ms⟩ →
          ∃ selection order ns, stage = .select selection ∧
            F.stateAfter context p i = .ok ⟨order, .nodes ns⟩) ∧
      ∀ i j before after, i ≤ j → F.stateAfter context p i = .ok before →
        F.stateAfter context p j = .ok after → before.Keeps after := by
  have hordered {i : Nat} {run : Run ν} (h : F.stateAfter context p i = .ok run) : run.IsOrdered :=
    isOrdered_steps (isOrdered_start context) h
  refine ⟨⟨_, _, rfl, fun n => mem_sort⟩, ?_, ?_, ?_, ?_⟩
  · intro i run h
    exact ⟨isNumbering_position? (hordered h).nodup_order, (hordered h).nodup_nodes⟩
  · intro i selection order ns hstage h
    have hafter : F.stateAfter context p (i + 1) =
        .ok (F.arrange order (F.select selection ns)) := by
      rw [stateAfter_succ hstage, h]
      rfl
    exact ⟨_, _, hafter, fun m => mem_sort.trans mem_select⟩
  · intro i stage order' ms hstage h
    rw [stateAfter_succ hstage, bind_eq_ok_iff] at h
    obtain ⟨⟨order, value⟩, hbefore, hstep⟩ := h
    obtain ⟨selection, ns, rfl, hns, -⟩ | ⟨extraction, ns, -, -, htext⟩ | ⟨edit, t, -, -, htext⟩ :=
      step_cases hstep
    · obtain rfl : value = .nodes ns := hns
      exact ⟨selection, order, ns, rfl, hbefore⟩
    · cases htext
    · cases htext
  · intro i j before after hij hbefore hafter
    refine (hordered hbefore).keeps (hordered hafter)
      (extends_steps (F := F) (p := (p.take j).drop i) ?_)
    rw [← stateAfter_of_le hij hbefore, hafter]

/-- Trees that share the node `2`, which `0` lists twice, and a node `3` that calls `0` its parent
and is not among its children. -/
def overlapping : Forest (Fin 4) where
  kind _ := .element
  tag _ := "div"
  content _ := []
  attr _ _ := none
  children n :=
    if n.val = 0 then [⟨2, by decide⟩, ⟨2, by decide⟩] else
    if n.val = 1 then [⟨2, by decide⟩] else []
  parent n := if n.val = 2 ∨ n.val = 3 then some ⟨0, by decide⟩ else none
  children_wf :=
    have hlt : ∀ c n : Fin 4, c ∈ (if n.val = 0 then [2, 2] else if n.val = 1 then [2] else []) →
        3 - c.val < 3 - n.val := by decide
    Subrelation.wf (hlt _ _) (InvImage.wf (fun n : Fin 4 => 3 - n.val) Nat.lt_wfRel.wf)
  parent_wf :=
    have hlt : ∀ p n : Fin 4, (if n.val = 2 ∨ n.val = 3 then some 0 else none) = some p →
        p.val < n.val := by decide
    Subrelation.wf (hlt _ _) (InvImage.wf Fin.val Nat.lt_wfRel.wf)

theorem subtree_overlapping : overlapping.subtree 0 = [0, 2, 2] ∧ overlapping.subtree 1 = [1, 2] ∧
    overlapping.subtree 3 = [3] := by
  have hfirst : overlapping.children 0 = [2, 2] := rfl
  have hsecond : overlapping.children 1 = [2] := rfl
  have hshared : overlapping.children 2 = [] := rfl
  have hthird : overlapping.children 3 = [] := rfl
  simp [subtree, walk_cons, hfirst, hsecond, hshared, hthird]

/-- The node `3` is met first: the tree of its root is put in order before it, without the second
`2`, and the tree of `1` has only `1` left to add. -/
theorem number_overlapping : overlapping.number [] [3, 1, 0] = [0, 2, 3, 1] := by
  obtain ⟨hfirst, hsecond, -⟩ := subtree_overlapping
  have hroot : overlapping.root 3 = 0 :=
    (root_of_parent_eq_some rfl).trans (root_of_parent_eq_none rfl)
  have hroot' : overlapping.root 1 = 1 := root_of_parent_eq_none rfl
  rw [number_cons_of_notMem List.not_mem_nil, numberTree_eq_foldl List.nodup_nil, hroot, hfirst]
  show overlapping.number [0, 2, 3] [1, 0] = _
  rw [number_cons_of_notMem (by decide), numberTree_eq_foldl (by decide), hroot', hsecond]
  exact number_of_subset (by decide)

/-- The set before the selection and the set after it are listed in the one order of the run, in
which the node `2` of both trees is counted once. -/
theorem stateAfter_keeps_overlapping :
    overlapping.stateAfter [3, 1, 0] [.select .flat] 0 = .ok ⟨[0, 2, 3, 1], .nodes [0, 3, 1]⟩ ∧
      overlapping.stateAfter [3, 1, 0] [.select .flat] 1 =
        .ok ⟨[0, 2, 3, 1], .nodes [0, 2, 3, 1]⟩ ∧
      Run.Keeps (ν := Fin 4) ⟨[0, 2, 3, 1], .nodes [0, 3, 1]⟩
        ⟨[0, 2, 3, 1], .nodes [0, 2, 3, 1]⟩ := by
  have hbefore : overlapping.stateAfter [3, 1, 0] [.select .flat] 0 =
      .ok ⟨[0, 2, 3, 1], .nodes [0, 3, 1]⟩ := by
    show Except.ok (overlapping.arrange [] [3, 1, 0]) = _
    have hdistinct : distinct [3, 1, (0 : Fin 4)] = [3, 1, 0] := distinct_of_nodup (by decide)
    rw [arrange, sort_of_two_le (by rw [hdistinct]; decide), hdistinct, number_overlapping]
    rfl
  have hafter : overlapping.stateAfter [3, 1, 0] [.select .flat] 1 =
      .ok ⟨[0, 2, 3, 1], .nodes [0, 2, 3, 1]⟩ := by
    obtain ⟨hfirst, hsecond, hthird⟩ := subtree_overlapping
    have hselect : overlapping.select .flat [0, 3, 1] = [0, 2, 2, 3, 1, 2] := by
      rw [select]
      simp [hfirst, hsecond, hthird]
    have hdistinct : distinct [0, 2, 2, 3, 1, (2 : Fin 4)] = [0, 2, 3, 1] :=
      distinct_append_eq_foldl List.nodup_nil _
    rw [stateAfter_succ rfl, hbefore]
    show Except.ok (overlapping.arrange _ (overlapping.select .flat [0, 3, 1])) = _
    rw [hselect, arrange, sort_of_two_le (by rw [hdistinct]; decide), hdistinct,
      number_of_subset (by decide)]
    rfl
  refine ⟨hbefore, hafter, ?_⟩
  exact (stateAfter_keeps overlapping [3, 1, 0] [.select .flat]).2.2.2.2 0 1 _ _ (by decide) hbefore
    hafter

end Forest

end MarkupQuery
