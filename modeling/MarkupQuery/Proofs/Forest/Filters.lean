import Mathlib.Data.List.Perm.Subperm
import MarkupQuery.Proofs.Forest.Positions

/-!
# Filters

A selection by attribute, by identifier or by class goes to no other node: it is a filter, which
keeps some of the nodes that it is given. They come to it listed in the order of the run, and what
is left of them is still listed so. To sort it once more changes nothing, neither the list nor the
order, however the links of the forest disagree. A filter is therefore an intersection and no more:
two of them may change places, and none has to be repeated.

## Main definitions

* `Selection.IsFilter`: the selections that only leave nodes out

## Main results

* `Forest.sort_of_sublist_order`: nodes that are listed in order are sorted already
* `Forest.step_filter`: a filter leaves nodes out, and leaves the order as it is
* `Forest.evaluate_filters`: filters commute, and the same filter again changes nothing
-/

namespace MarkupQuery

/-- The selections that only leave nodes out: by attribute, by identifier and by class. -/
inductive Selection.IsFilter : Selection → Prop
  | attr (field : Text) (value : Option Text) : IsFilter (.attr field value)
  | identifier (value : Text) (caseSensitive : Bool) : IsFilter (.identifier value caseSensitive)
  | className (value : Text) (caseSensitive : Bool) : IsFilter (.className value caseSensitive)

namespace Forest

variable {ν : Type} {F : Forest ν} {s t : Selection}

/-- A filter looks at each node by itself. -/
theorem exists_select_eq_filter (F : Forest ν) (hs : s.IsFilter) :
    ∃ keeps : ν → Bool, ∀ nodes, F.select s nodes = nodes.filter keeps := by
  cases hs with
  | attr field value =>
    cases value with
    | none => exact ⟨_, fun _ => rfl⟩
    | some value => exact ⟨_, fun _ => rfl⟩
  | identifier value caseSensitive => exact ⟨_, fun _ => rfl⟩
  | className value caseSensitive => exact ⟨_, fun _ => rfl⟩

theorem select_sublist (F : Forest ν) (hs : s.IsFilter) (nodes : List ν) :
    (F.select s nodes).Sublist nodes := by
  obtain ⟨keeps, hkeeps⟩ := F.exists_select_eq_filter hs
  rw [hkeeps]
  exact List.filter_sublist

/-- Filters commute on a list. -/
theorem select_comm (F : Forest ν) (hs : s.IsFilter) (ht : t.IsFilter) (nodes : List ν) :
    F.select t (F.select s nodes) = F.select s (F.select t nodes) := by
  obtain ⟨keeps, hkeeps⟩ := F.exists_select_eq_filter hs
  obtain ⟨keeps', hkeeps'⟩ := F.exists_select_eq_filter ht
  simp only [hkeeps, hkeeps', List.filter_filter, Bool.and_comm]

/-- What a filter has left passes it again. -/
theorem select_select (F : Forest ν) (hs : s.IsFilter) (nodes : List ν) :
    F.select s (F.select s nodes) = F.select s nodes := by
  obtain ⟨keeps, hkeeps⟩ := F.exists_select_eq_filter hs
  simp only [hkeeps, List.filter_filter, Bool.and_self]

/-! ## Sorting what is in order -/

variable [BEq ν] [LawfulBEq ν]

/-- Of a list without repetitions, the nodes of a sublist are that sublist. -/
theorem filter_contains_of_sublist {order nodes : List ν} (horder : order.Nodup)
    (h : nodes.Sublist order) : order.filter nodes.contains = nodes := by
  have hall : nodes.filter nodes.contains = nodes :=
    List.filter_eq_self.mpr fun _ hn => List.contains_iff_mem.mpr hn
  have hsublist : nodes.Sublist (order.filter nodes.contains) := by
    have hfilter := h.filter nodes.contains
    rwa [hall] at hfilter
  -- Nothing else is in the one than in the other, and nothing is repeated.
  have hsubset : order.filter nodes.contains ⊆ nodes := by
    intro n hn
    exact List.contains_iff_mem.mp (List.mem_filter.mp hn).2
  exact (hsublist.eq_of_length_le ((horder.filter _).subperm hsubset).length_le).symm

variable [Hashable ν]

/-- **Nodes that are listed in order are sorted already**, and none of them is new to the order. -/
theorem sort_of_sublist_order {order nodes : List ν} (horder : order.Nodup)
    (hnodes : nodes.Nodup) (h : nodes.length < 2 ∨ nodes.Sublist order) :
    F.sort order nodes = (nodes, order) := by
  have hdistinct := distinct_of_nodup hnodes
  by_cases hlength : nodes.length < 2
  · rw [sort, hdistinct, if_pos hlength]
  · have hsublist := h.resolve_left hlength
    rw [sort_of_two_le (by rwa [hdistinct]), hdistinct, number_of_subset hsublist.subset,
      filter_contains_of_sublist horder hsublist]

/-! ## Stages -/

/-- **A filter leaves nodes out, and leaves the order as it is.** -/
theorem step_filter {order ns : List ν} (hrun : Run.IsOrdered ⟨order, .nodes ns⟩)
    (hs : s.IsFilter) :
    F.step ⟨order, .nodes ns⟩ (.select s) = .ok ⟨order, .nodes (F.select s ns)⟩ := by
  have hsublist := F.select_sublist hs ns
  -- The list of which nodes are left out is short already, or it is taken from the order.
  have hlisted : (F.select s ns).length < 2 ∨ (F.select s ns).Sublist order := by
    rcases hrun.sublist_order ns rfl with hlength | hns
    · exact Or.inl (Nat.lt_of_le_of_lt hsublist.length_le hlength)
    · exact Or.inr (hsublist.trans hns)
  have hnodup := (hrun.nodup_nodes ns rfl).sublist hsublist
  show Except.ok (F.arrange order (F.select s ns)) = _
  rw [arrange, sort_of_sublist_order hrun.nodup_order hnodup hlisted]

/-- A filter at the beginning of a pipeline leaves nodes out before the other stages. -/
theorem steps_filter_cons {order ns : List ν} (hrun : Run.IsOrdered ⟨order, .nodes ns⟩)
    (hs : s.IsFilter) (q : Pipeline) :
    F.steps ⟨order, .nodes ns⟩ (.select s :: q) = F.steps ⟨order, .nodes (F.select s ns)⟩ q := by
  rw [steps, List.foldlM_cons, step_filter hrun hs]
  rfl

/-- What a filter has left is listed in order. -/
theorem isOrdered_filter {order ns : List ν} (hrun : Run.IsOrdered ⟨order, .nodes ns⟩)
    (hs : s.IsFilter) : Run.IsOrdered ⟨order, .nodes (F.select s ns)⟩ :=
  isOrdered_step hrun (step_filter hrun hs)

/-- Two filters in a row may change places. On a text both of them fail, each with its own error. -/
theorem steps_filters_comm {run run' : Run ν} (hrun : run.IsOrdered) (hs : s.IsFilter)
    (ht : t.IsFilter) (q : Pipeline) :
    F.steps run (.select s :: .select t :: q) = .ok run' ↔
      F.steps run (.select t :: .select s :: q) = .ok run' := by
  obtain ⟨order, ns | text⟩ := run
  · -- Neither filter has changed the order, so that the other stages begin alike.
    rw [steps_filter_cons hrun hs, steps_filter_cons (isOrdered_filter hrun hs) ht,
      steps_filter_cons hrun ht, steps_filter_cons (isOrdered_filter hrun ht) hs,
      F.select_comm hs ht]
  · exact iff_of_false nofun nofun

/-- The same filter twice in a row is one filter; on a text the first of the two fails already. -/
theorem steps_filter_filter {run : Run ν} (hrun : run.IsOrdered) (hs : s.IsFilter)
    (q : Pipeline) :
    F.steps run (.select s :: .select s :: q) = F.steps run (.select s :: q) := by
  obtain ⟨order, ns | text⟩ := run
  · rw [steps_filter_cons hrun hs, steps_filter_cons (isOrdered_filter hrun hs) hs,
      steps_filter_cons hrun hs, F.select_select hs]
  · rfl

/-! ## Runs -/

/-- A run over a pipeline with a given end comes to an ordered state before that end. -/
theorem evaluate_append_eq_ok_iff {context : List ν} {p q : Pipeline} {v : Value ν} :
    F.evaluate (p ++ q) context = .ok v ↔ ∃ run run', run.IsOrdered ∧
      F.steps (F.start context) p = .ok run ∧ F.steps run q = .ok run' ∧ run'.value = v := by
  rw [evaluate, map_eq_ok_iff]
  constructor
  · rintro ⟨run', hsteps, hv⟩
    rw [steps_append, bind_eq_ok_iff] at hsteps
    obtain ⟨run, hp, hq⟩ := hsteps
    exact ⟨run, run', isOrdered_steps (isOrdered_start context) hp, hp, hq, hv⟩
  · rintro ⟨run, run', -, hp, hq, hv⟩
    exact ⟨run', by rw [steps_append, bind_eq_ok_iff]; exact ⟨run, hp, hq⟩, hv⟩

/-- **Filters commute, in any pipeline and over any forest**, however its links disagree. With two
filters in either order a pipeline has the same value, or none. The same filter again changes
nothing, not even the error of a pipeline without a value. And a filter never lists nodes in another
order: it gives those of the nodes before it that it selects, as they were listed. -/
theorem evaluate_filters (F : Forest ν) (hs : s.IsFilter) (ht : t.IsFilter) (p q : Pipeline)
    (context : List ν) :
    (∀ v, F.evaluate (p ++ .select s :: .select t :: q) context = .ok v ↔
        F.evaluate (p ++ .select t :: .select s :: q) context = .ok v) ∧
      F.evaluate (p ++ .select s :: .select s :: q) context =
        F.evaluate (p ++ .select s :: q) context ∧
      ∀ ns, F.evaluate p context = .ok (.nodes ns) →
        ∃ ms, F.evaluate (p ++ [.select s]) context = .ok (.nodes ms) ∧ ms.Sublist ns ∧
          ∀ m, m ∈ ms ↔ m ∈ F.image s {n | n ∈ ns} := by
  refine ⟨fun v => ?_, ?_, ?_⟩
  · -- Whatever the run has come to before the filters, it is ordered.
    rw [evaluate_append_eq_ok_iff, evaluate_append_eq_ok_iff]
    apply exists_congr
    intro run
    apply exists_congr
    intro run'
    apply and_congr_right
    intro hrun
    rw [steps_filters_comm hrun hs ht]
  · rw [evaluate, evaluate, steps_append, steps_append]
    cases hp : F.steps (F.start context) p with
    | error e => rfl
    | ok run =>
      have hrun := isOrdered_steps (isOrdered_start context) hp
      exact congrArg (Except.map Run.value) (steps_filter_filter hrun hs q)
  · intro ns hns
    obtain ⟨⟨order, value⟩, hp, rfl⟩ := map_eq_ok_iff.mp hns
    have hrun := isOrdered_steps (isOrdered_start context) hp
    refine ⟨F.select s ns, ?_, F.select_sublist hs ns, fun m => mem_select⟩
    rw [evaluate_append_eq_ok_iff]
    exact ⟨_, _, hrun, hp, steps_filter_cons hrun hs [], rfl⟩

/-- The node `2` is a child of both others, and knows no parent. The node `1` is without a mark. -/
def marked : Forest (Fin 3) where
  kind _ := .element
  tag _ := "div"
  content _ := []
  attr n _ := if n.val = 1 then none else some "a"
  children n := if n.val = 2 then [] else [⟨2, by decide⟩]
  parent _ := none
  children_wf :=
    have hlt : ∀ c n : Fin 3, c ∈ (if n.val = 2 then [] else [2]) → 2 - c.val < 2 - n.val := by
      decide
    Subrelation.wf (hlt _ _) (InvImage.wf (fun n : Fin 3 => 2 - n.val) Nat.lt_wfRel.wf)
  parent_wf := ⟨fun _ => ⟨_, nofun⟩⟩

/-- The tree of `1` is met first, and the node `2` is listed in it. -/
theorem start_marked : marked.start [1, 0, 2] = ⟨[1, 2, 0], .nodes [1, 2, 0]⟩ := by
  have hroot (n : Fin 3) : marked.root n = n := root_of_parent_eq_none rfl
  have hsubtree : marked.subtree 1 = [1, 2] ∧ marked.subtree 0 = [0, 2] := by
    have hfirst : marked.children 1 = [2] := rfl
    have hsecond : marked.children 0 = [2] := rfl
    have hshared : marked.children 2 = [] := rfl
    simp [subtree, walk_cons, hfirst, hsecond, hshared]
  have hnumber : marked.number [] [1, 0, 2] = [1, 2, 0] := by
    rw [number_cons_of_notMem List.not_mem_nil, numberTree_eq_foldl List.nodup_nil, hroot,
      hsubtree.1]
    show marked.number [1, 2] [0, 2] = _
    rw [number_cons_of_notMem (by decide), numberTree_eq_foldl (by decide), hroot, hsubtree.2]
    exact number_of_subset (by decide)
  have hdistinct : distinct [1, 0, (2 : Fin 3)] = [1, 0, 2] := distinct_of_nodup (by decide)
  rw [start, arrange, sort_of_two_le (by rw [hdistinct]; decide), hdistinct, hnumber]
  rfl

/-- In either order the filters leave the nodes with the mark, listed as they were. -/
theorem evaluate_filters_marked :
    marked.evaluate [.select (.identifier "a" true), .select (.className "A" false)] [1, 0, 2] =
        .ok (.nodes [2, 0]) ∧
      marked.evaluate [.select (.className "A" false), .select (.identifier "a" true)] [1, 0, 2] =
        .ok (.nodes [2, 0]) := by
  have hid : Selection.IsFilter (.identifier "a" true) := .identifier _ _
  have hclass : Selection.IsFilter (.className "A" false) := .className _ _
  have hfirst : marked.evaluate [.select (.identifier "a" true), .select (.className "A" false)]
      [1, 0, 2] = .ok (.nodes [2, 0]) := by
    have hrun : Run.IsOrdered (ν := Fin 3) ⟨[1, 2, 0], .nodes [1, 2, 0]⟩ :=
      start_marked ▸ isOrdered_start _
    rw [evaluate, start_marked, steps_filter_cons hrun hid,
      steps_filter_cons (isOrdered_filter hrun hid) hclass]
    rfl
  exact ⟨hfirst, ((evaluate_filters marked hid hclass [] [] [1, 0, 2]).1 _).mp hfirst⟩

end Forest

end MarkupQuery
