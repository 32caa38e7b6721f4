import MarkupQuery.Proofs.Forest.Reference

/-!
# Stopping a run and going on

A run that has come to a set of nodes can be stopped there and gone on with later, from the nodes
that it shows. The second run knows nothing of the order that the first one had: it meets the
trees of its context nodes anew, and perhaps not all of them are left. But these nodes come to it
sorted, and so the trees that are left are met in the order in which they stood. From there on the
two runs keep different orders that sort every set of nodes alike.

## Main definitions

* `Forest.OrdersAlike`: two contexts put the nodes in the trees of the second in the same order

## Main results

* `Forest.Lists.ordersAlike`: what is listed orders its own trees as they were
* `Forest.Consistent.map_value_steps_eq`: runs whose contexts order alike give the same value
* `Forest.Consistent.evaluate_append`: a run over two pipelines is a run over the one and then one
  over the other
-/

namespace MarkupQuery

namespace Forest

variable {ν : Type} [BEq ν]

/-! ## Two contexts -/

section Contexts

variable {F : Forest ν} {context rest : List ν}

/-- The two contexts put nodes in the same order, as long as these are in trees of the second. -/
def OrdersAlike (F : Forest ν) (context rest : List ν) : Prop :=
  ∀ m n, F.root m ∈ rest.map F.root → F.root n ∈ rest.map F.root →
    (F.Precedes context m n ↔ F.Precedes rest m n)

/-- What one context lists, the other lists too. -/
theorem Lists.of_ordersAlike {S : Set ν} {ns : List ν} (halike : F.OrdersAlike context rest)
    (htrees : ∀ n ∈ ns, F.root n ∈ rest.map F.root) (h : F.Lists rest S ns) :
    F.Lists context S ns := by
  refine ⟨h.mem_iff, List.Pairwise.imp_of_mem ?_ h.pairwise⟩
  intro m n hm hn hmn
  exact (halike m n (htrees m hm) (htrees n hn)).mpr hmn

end Contexts

/-- In a list that a function maps to increasing places, with different places for different
elements, what has the smaller place comes first. -/
theorem idxOf_lt_idxOf_iff [LawfulBEq ν] {place : ν → Nat} {xs : List ν}
    (hsorted : xs.Pairwise (place · ≤ place ·))
    (hplace : ∀ a ∈ xs, ∀ b ∈ xs, place a = place b → a = b) {a b : ν} (ha : a ∈ xs)
    (hb : b ∈ xs) : xs.idxOf a < xs.idxOf b ↔ place a < place b := by
  -- What comes first has no greater place, and another place when it is different.
  have hfirst : ∀ {a b}, a ∈ xs → b ∈ xs → xs.idxOf a < xs.idxOf b → place a < place b := by
    intro a b ha hb hlt
    have hle := List.pairwise_iff_getElem.mp hsorted _ _ (List.idxOf_lt_length_iff.mpr ha)
      (List.idxOf_lt_length_iff.mpr hb) hlt
    rw [List.getElem_idxOf, List.getElem_idxOf] at hle
    refine lt_of_le_of_ne hle fun heq => ?_
    rw [hplace a ha b hb heq] at hlt
    exact lt_irrefl _ hlt
  constructor
  · exact hfirst ha hb
  · intro hlt
    rcases lt_trichotomy (xs.idxOf a) (xs.idxOf b) with h | h | h
    · exact h
    · rw [(List.idxOf_inj ha).mp h] at hlt
      exact absurd hlt (lt_irrefl _)
    · exact absurd (hfirst hb ha h) (lt_asymm hlt)

variable [LawfulBEq ν] {F : Forest ν} {context rest ns : List ν}

/-- **What is listed orders its own trees as they were**: as a context, the nodes of a listing put
their trees in the order that they are listed in. -/
theorem Lists.ordersAlike {S : Set ν} (h : F.Lists context S ns)
    (htrees : ∀ n ∈ ns, F.root n ∈ context.map F.root) : F.OrdersAlike context ns := by
  -- Along the listing the trees have increasing places among those of the context.
  have hsorted : (ns.map F.root).Pairwise fun r s =>
      (context.map F.root).idxOf r ≤ (context.map F.root).idxOf s := by
    rw [List.pairwise_map]
    refine h.pairwise.imp ?_
    intro m n hmn
    rw [precedes_iff] at hmn
    omega
  have hmem : ∀ r ∈ ns.map F.root, r ∈ context.map F.root := by
    intro r hr
    obtain ⟨n, hn, rfl⟩ := List.mem_map.mp hr
    exact htrees n hn
  have hplace : ∀ r ∈ ns.map F.root, ∀ s ∈ ns.map F.root,
      (context.map F.root).idxOf r = (context.map F.root).idxOf s → r = s := by
    intro r hr s _ heq
    exact (List.idxOf_inj (hmem r hr)).mp heq
  intro m n hm hn
  rw [precedes_iff, precedes_iff, idxOf_lt_idxOf_iff hsorted hplace hm hn, List.idxOf_inj hm,
    List.idxOf_inj (hmem _ hm)]

/-! ## Two runs -/

variable [Hashable ν]

omit [LawfulBEq ν] in
/-- A run over two pipelines is a run over the one, and then over the other from where it ended. -/
theorem steps_append (F : Forest ν) (run : Run ν) (p q : Pipeline) :
    F.steps run (p ++ q) = F.steps run p >>= fun run => F.steps run q :=
  List.foldlM_append

namespace Consistent

variable (hF : F.Consistent)
include hF

/-- The state after a run agrees with what the reference has there. -/
theorem exists_agrees_of_steps {p : Pipeline} {run run' : Run ν} {outcome : Outcome ν}
    (h : F.Agrees context run outcome) (hsteps : F.steps run p = .ok run') :
    ∃ outcome', F.Agrees context run' outcome' := by
  induction p generalizing run outcome with
  | nil =>
    obtain rfl : run = run' := Except.ok.inj hsteps
    exact ⟨outcome, h⟩
  | cons stage p ih =>
    rw [steps, List.foldlM_cons] at hsteps
    cases h with
    | nodes horder hlists htrees =>
      cases stage with
      | select selection =>
        exact ih (hF.agrees_arrange selection (Agrees.nodes horder hlists htrees)) hsteps
      | extract extraction => exact ih (Agrees.text _ _) hsteps
      | edit edit => contradiction
    | text order t =>
      cases stage with
      | select selection => contradiction
      | extract extraction => contradiction
      | edit edit => exact ih (Agrees.text _ _) hsteps

/-- **Two runs that have come to the same nodes or text give the same value**, or end at the same
stage, when their contexts order alike. -/
theorem map_value_steps_eq (halike : F.OrdersAlike context rest) {p : Pipeline}
    {run run' : Run ν} {outcome : Outcome ν} (h : F.Agrees context run outcome)
    (h' : F.Agrees rest run' outcome) :
    (F.steps run p).map Run.value = (F.steps run' p).map Run.value := by
  induction p generalizing run run' outcome with
  | nil =>
    cases h with
    | nodes horder hlists htrees =>
      cases h' with
      | nodes horder' hlists' htrees' =>
        rw [hlists.unique (hlists'.of_ordersAlike halike htrees')]
        rfl
    | text order t =>
      cases h'
      rfl
  | cons stage p ih =>
    rw [steps, List.foldlM_cons, steps, List.foldlM_cons]
    cases h with
    | nodes horder hlists htrees =>
      cases h' with
      | nodes horder' hlists' htrees' =>
        cases stage with
        | select selection =>
          -- Both go on with the image of one set, each with a listing of its own order.
          exact ih (hF.agrees_arrange selection (Agrees.nodes horder hlists htrees))
            (hF.agrees_arrange selection (Agrees.nodes horder' hlists' htrees'))
        | extract extraction =>
          rw [hlists.unique (hlists'.of_ordersAlike halike htrees')]
          exact ih (Agrees.text _ _) (Agrees.text _ _)
        | edit edit => rfl
    | text order t =>
      cases h' with
      | text order' t =>
        cases stage with
        | select selection => rfl
        | extract extraction => rfl
        | edit edit => exact ih (Agrees.text _ _) (Agrees.text _ _)

/-- **A run can be stopped at a set of nodes and gone on with** from the nodes that it shows: this
gives the value of the whole run, or ends at the same stage. A run that ends at a stage does so
whatever stages come after it. -/
theorem evaluate_append (p q : Pipeline) (context : List ν) :
    (∀ ns, F.evaluate p context = .ok (.nodes ns) →
        F.evaluate (p ++ q) context = F.evaluate q ns) ∧
      ∀ e, F.evaluate p context = .error e → F.evaluate (p ++ q) context = .error e := by
  rw [evaluate, evaluate, steps_append]
  cases hsteps : F.steps (F.start context) p with
  | error e =>
    constructor
    · intro ns hns
      contradiction
    · intro e' he
      exact he
  | ok run =>
    constructor
    · intro ns hns
      obtain ⟨order, value⟩ := run
      obtain rfl : value = .nodes ns := Except.ok.inj hns
      obtain ⟨outcome, hagrees⟩ := hF.exists_agrees_of_steps (hF.agrees_start context) hsteps
      cases hagrees with
      | @nodes _ _ S horder hlists htrees =>
        -- The second run starts from the set that the first has come to.
        obtain rfl : S = {n | n ∈ ns} := Set.ext fun n => (hlists.mem_iff n).symm
        exact hF.map_value_steps_eq (hlists.ordersAlike htrees)
          (Agrees.nodes horder hlists htrees) (hF.agrees_start ns)
    · intro e he
      contradiction

end Consistent

/-- The tree that the context begins with comes first. -/
theorem treeOrder_items : items.treeOrder [2, 0, 2] = [2, 3, 0, 1] := by
  have hfirst : items.root 2 = 2 := root_of_parent_eq_none rfl
  have hsecond : items.root 0 = 0 := root_of_parent_eq_none rfl
  have hleaf : ∀ n, items.children n = [] → items.preorder n = [n] := by
    intro n hn
    rw [preorder_eq, hn, List.flatMap_nil]
  have hitem : ∀ n c, items.children n = [c] → items.children c = [] →
      items.preorder n = [n, c] := by
    intro n c hn hc
    rw [preorder_eq, hn, List.flatMap_singleton, hleaf c hc]
  rw [treeOrder, List.map_cons, List.map_cons, List.map_singleton, hfirst, hsecond, distinct_cons,
    distinct_cons, distinct_of_nodup (List.nodup_singleton _)]
  show items.preorder 2 ++ (items.preorder 0 ++ []) = _
  rw [hitem 2 3 rfl rfl, hitem 0 1 rfl rfl]
  rfl

/-- The second run starts from nodes of both trees and goes on in the order of the first; and a
stage that cannot run on a text ends every longer run with its error. -/
theorem evaluate_append_items :
    items.evaluate [.select .flat] [2, 0, 2] = .ok (.nodes [2, 3, 0, 1]) ∧
      items.evaluate [.select .flat, .select (.child 0)] [2, 0, 2] =
        items.evaluate [.select (.child 0)] [2, 3, 0, 1] ∧
      items.evaluate [.extract .text, .select .flat, .edit .trim] [2, 0, 2] =
        .error ⟨.select .flat, .text⟩ := by
  have hflat : items.evaluate [.select .flat] [2, 0, 2] = .ok (.nodes [2, 3, 0, 1]) := by
    refine (items_consistent.steps_eq_ok_iff_denotes (items_consistent.agrees_start _)).mpr
      (.select (.nodes ⟨?_, ?_⟩))
    · -- Every node is below its root, and both roots are in the context.
      have hroot : ∀ r : Fin 4, items.parent r = none → r ∈ [2, 0, 2] := by decide
      have hall : ∀ n : Fin 4, n ∈ [2, 3, 0, 1] := by decide
      intro n
      exact ⟨fun _ => ⟨items.root n, hroot _ (items.parent_root n), items_consistent.below_root n⟩,
        fun _ => hall n⟩
    · rw [← treeOrder_items]
      exact items_consistent.pairwise_precedes_treeOrder _
  refine ⟨hflat, (items_consistent.evaluate_append _ [.select (.child 0)] _).1 _ hflat, ?_⟩
  exact (items_consistent.evaluate_append [.extract .text, .select .flat] [.edit .trim] _).2 _ rfl

end Forest

end MarkupQuery
