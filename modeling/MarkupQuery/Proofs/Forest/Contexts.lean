import MarkupQuery.Proofs.Forest.Kinds
import MarkupQuery.Proofs.Forest.Resume

/-!
# Several documents at once

A query over several documents gives what it gives over each of them, one after the other. A
selection looks at every node by itself, so that from two sets together it gives the two sets that
it gives from each. What has to be shown is that they stay apart in the order too: the trees of
the first context nodes are met first, and no later stage brings a node of the others before them,
even when a stage drops all nodes of one side.

## Main definitions

* `Forest.images`: the set of nodes that several selections give one after the other

## Main results

* `Forest.images_union`: selections give from two sets together what they give from each
* `Forest.Consistent.evaluate_selections_iff`, `Forest.Consistent.evaluate_extract_iff`: what
  selections alone give, and selections and an extraction
* `Forest.Lists.append`: what two contexts list is listed by both together
* `Forest.Consistent.evaluate_append_context`: a run over two contexts is a run over each
-/

namespace MarkupQuery

namespace Forest

variable {ν : Type} {F : Forest ν} {S T : Set ν} {selections : List Selection} {m n : ν}

/-! ## Sets -/

/-- The set of nodes that selections give one after the other. -/
def images (F : Forest ν) (selections : List Selection) (S : Set ν) : Set ν :=
  selections.foldl (fun S selection => F.image selection S) S

/-- A selection looks at every node by itself. -/
theorem image_union (F : Forest ν) (selection : Selection) (S T : Set ν) :
    F.image selection (S ∪ T) = F.image selection S ∪ F.image selection T := by
  have hreach (p : ν → ν → Prop) :
      {m | ∃ n ∈ S ∪ T, p n m} = {m | ∃ n ∈ S, p n m} ∪ {m | ∃ n ∈ T, p n m} := by
    ext m
    simp only [Set.mem_union, Set.mem_ofPred, or_and_right, exists_or]
  cases selection with
  | flat => exact hreach _
  | path step =>
    rcases step with ⟨_ | _, tag⟩
    · rw [image, hreach, Set.union_inter_distrib_right]
      rfl
    · rw [image, hreach, Set.union_inter_distrib_right]
      rfl
  | attr field value =>
    rcases value with _ | expected
    · exact Set.union_inter_distrib_right _ _ _
    · exact Set.union_inter_distrib_right _ _ _
  | identifier expected caseSensitive => exact Set.union_inter_distrib_right _ _ _
  | className expected caseSensitive => exact Set.union_inter_distrib_right _ _ _
  | child index => exact hreach _

/-- **Selections give from two sets together what they give from each.** -/
theorem images_union (F : Forest ν) (selections : List Selection) (S T : Set ν) :
    F.images selections (S ∪ T) = F.images selections S ∪ F.images selections T := by
  induction selections generalizing S T with
  | nil => rfl
  | cons selection selections ih =>
    rw [images, List.foldl_cons, image_union]
    exact ih _ _

/-- However many selections there are, they stay in the trees of their nodes. -/
theorem exists_below_of_mem_images (h : m ∈ F.images selections S) : ∃ n ∈ S, F.Below n m := by
  induction selections generalizing S with
  | nil => exact ⟨m, h, Below.refl⟩
  | cons selection selections ih =>
    obtain ⟨a, ha, hm⟩ := ih h
    obtain ⟨n, hn, hbelow⟩ := exists_below_of_mem_image ha
    exact ⟨n, hn, hbelow.trans hm⟩

/-! ## The values of selections -/

variable [BEq ν] {context : List ν} {p : Pipeline} {v : Value ν}

/-- Selections at the beginning of a pipeline can be made by the reference at once. -/
theorem denotes_selections : F.Denotes context (.nodes S) (selections.map .select ++ p) v ↔
    F.Denotes context (.nodes (F.images selections S)) p v := by
  induction selections generalizing S with
  | nil => exact Iff.rfl
  | cons selection selections ih =>
    apply Iff.trans _ ih
    constructor
    · intro hv
      cases hv with
      | select hrest => exact hrest
    · exact .select

section Contexts

variable [LawfulBEq ν] {first second ns ms : List ν}

/-- Nodes in the trees of the first context are ordered as by that alone. -/
theorem ordersAlike_append_left (F : Forest ν) (first second : List ν) :
    F.OrdersAlike (first ++ second) first := by
  intro m n hm hn
  rw [precedes_iff, precedes_iff, List.map_append, List.idxOf_append_of_mem hm,
    List.idxOf_append_of_mem hn]

/-- Nodes in the trees of the second context are ordered as by that alone, when the first has no
node in these trees. -/
theorem ordersAlike_append_right (hapart : ∀ r ∈ second.map F.root, r ∉ first.map F.root) :
    F.OrdersAlike (first ++ second) second := by
  intro m n hm hn
  rw [precedes_iff, precedes_iff, List.map_append, List.idxOf_append_of_notMem (hapart _ hm),
    List.idxOf_append_of_notMem (hapart _ hn), Nat.add_lt_add_iff_left, Nat.add_left_cancel_iff]

/-- **What two contexts list is listed by both together**, the nodes in the trees of the first
before the nodes in those of the second. -/
theorem Lists.append (hns : F.Lists first S ns) (hms : F.Lists second T ms)
    (hapart : ∀ r ∈ second.map F.root, r ∉ first.map F.root)
    (hfirst : ∀ n ∈ ns, F.root n ∈ first.map F.root)
    (hsecond : ∀ n ∈ ms, F.root n ∈ second.map F.root) :
    F.Lists (first ++ second) (S ∪ T) (ns ++ ms) := by
  have hns' := hns.of_ordersAlike (F.ordersAlike_append_left first second) hfirst
  have hms' := hms.of_ordersAlike (ordersAlike_append_right hapart) hsecond
  refine ⟨fun n => ?_, List.pairwise_append.mpr ⟨hns'.pairwise, hms'.pairwise, ?_⟩⟩
  · rw [List.mem_append, hns.mem_iff, hms.mem_iff]
    exact Iff.rfl
  · -- The places of the trees of the second context begin after those of the first.
    intro m hm n hn
    rw [precedes_iff, List.map_append, List.idxOf_append_of_mem (hfirst m hm),
      List.idxOf_append_of_notMem (hapart _ (hsecond n hn))]
    exact Or.inl (Nat.lt_add_right _ (List.idxOf_lt_length_iff.mpr (hfirst m hm)))

end Contexts

variable [Hashable ν] [LawfulBEq ν]

namespace Consistent

variable (hF : F.Consistent)
include hF

/-- Selections alone list the nodes that they give. -/
theorem evaluate_selections_iff {ns : List ν} :
    F.evaluate (selections.map .select) context = .ok (.nodes ns) ↔
      F.Lists context (F.images selections {n | n ∈ context}) ns := by
  have hdenotes := hF.steps_eq_ok_iff_denotes (p := selections.map .select) (v := .nodes ns)
    (hF.agrees_start context)
  rw [← List.append_nil (selections.map _), denotes_selections, List.append_nil] at hdenotes
  apply hdenotes.trans
  constructor
  · intro hv
    cases hv with
    | nodes hlists => exact hlists
  · exact .nodes

/-- Selections and an extraction join the texts of the nodes that the selections give. -/
theorem evaluate_extract_iff {extraction : Extraction} {t : Text} :
    F.evaluate (selections.map .select ++ [.extract extraction]) context = .ok (.text t) ↔
      ∃ ns, F.Lists context (F.images selections {n | n ∈ context}) ns ∧
        t = ns.flatMap (F.contribution extraction) := by
  have hdenotes := hF.steps_eq_ok_iff_denotes
    (p := selections.map .select ++ [.extract extraction]) (v := .text t)
    (hF.agrees_start context)
  rw [denotes_selections] at hdenotes
  apply hdenotes.trans
  constructor
  · intro hv
    cases hv with
    | extract hlists hrest =>
      cases hrest
      exact ⟨_, hlists, rfl⟩
  · rintro ⟨ns, hlists, rfl⟩
    exact .extract hlists (.text _)

/-- What selections give is listed in the trees of the context. -/
theorem exists_lists_images (selections : List Selection) (context : List ν) :
    ∃ ns, F.Lists context (F.images selections {n | n ∈ context}) ns ∧
      ∀ n ∈ ns, F.root n ∈ context.map F.root := by
  obtain ⟨ns, hns⟩ := (F.evaluate_eq_nodes_iff (selections.map .select) context).mpr
    ⟨selections, rfl⟩
  rw [hF.evaluate_selections_iff] at hns
  refine ⟨ns, hns, fun n hn => ?_⟩
  obtain ⟨c, hc, hbelow⟩ := exists_below_of_mem_images ((hns.mem_iff n).mp hn)
  rw [hF.root_eq_of_below hbelow]
  exact List.mem_map_of_mem hc

/-- **A run over two contexts is a run over each**, when no node of the one is in a tree of the
other. Selections list what they list over the first context and then what they list over the
second, and an extraction after them joins the two texts. -/
theorem evaluate_append_context {first second : List ν}
    (hapart : ∀ m ∈ first, ∀ n ∈ second, F.root m ≠ F.root n) (selections : List Selection) :
    (∃ ns ms, F.evaluate (selections.map .select) first = .ok (.nodes ns) ∧
        F.evaluate (selections.map .select) second = .ok (.nodes ms) ∧
          F.evaluate (selections.map .select) (first ++ second) = .ok (.nodes (ns ++ ms))) ∧
      ∀ extraction, ∃ s t,
        F.evaluate (selections.map .select ++ [.extract extraction]) first = .ok (.text s) ∧
          F.evaluate (selections.map .select ++ [.extract extraction]) second = .ok (.text t) ∧
            F.evaluate (selections.map .select ++ [.extract extraction]) (first ++ second) =
              .ok (.text (s ++ t)) := by
  have hroots : ∀ r ∈ second.map F.root, r ∉ first.map F.root := by
    intro r hr hr'
    obtain ⟨n, hn, rfl⟩ := List.mem_map.mp hr
    obtain ⟨m, hm, hroot⟩ := List.mem_map.mp hr'
    exact hapart m hm n hn hroot
  obtain ⟨ns, hns, hfirst⟩ := hF.exists_lists_images selections first
  obtain ⟨ms, hms, hsecond⟩ := hF.exists_lists_images selections second
  -- The nodes of both contexts are one set after the other at every stage.
  have hboth : F.Lists (first ++ second) (F.images selections {n | n ∈ first ++ second})
      (ns ++ ms) := by
    have hunion : {n | n ∈ first ++ second} = {n | n ∈ first} ∪ {n | n ∈ second} :=
      Set.ext fun n => List.mem_append
    rw [hunion, images_union]
    exact hns.append hms hroots hfirst hsecond
  refine ⟨⟨ns, ms, ?_, ?_, ?_⟩, fun extraction => ⟨ns.flatMap (F.contribution extraction),
    ms.flatMap (F.contribution extraction), ?_, ?_, ?_⟩⟩
  · exact hF.evaluate_selections_iff.mpr hns
  · exact hF.evaluate_selections_iff.mpr hms
  · exact hF.evaluate_selections_iff.mpr hboth
  · exact hF.evaluate_extract_iff.mpr ⟨ns, hns, rfl⟩
  · exact hF.evaluate_extract_iff.mpr ⟨ms, hms, rfl⟩
  · rw [← List.flatMap_append]
    exact hF.evaluate_extract_iff.mpr ⟨ns ++ ms, hboth, rfl⟩

end Consistent

/-- The text of the tree that the first context is in comes before that of the other. -/
theorem evaluate_append_context_items :
    (∀ m ∈ [2, 2], ∀ n ∈ [0], items.root m ≠ items.root n) ∧
      items.evaluate [.select (.child 0)] [2, 2, 0] = .ok (.nodes [3, 1]) ∧
      items.evaluate [.select (.child 0), .extract .text] [2, 2, 0] = .ok (.text "ba") := by
  have hapart : ∀ m ∈ [2, 2], ∀ n ∈ [0], items.root m ≠ items.root n := by
    have hparent : ∀ n : Fin 4, n ∈ [2, 2, 0] → items.parent n = none := by decide
    intro m hm n hn
    rw [root_of_parent_eq_none (hparent m (List.mem_append_left [0] hm)),
      root_of_parent_eq_none (hparent n (List.mem_append_right [2, 2] hn))]
    have hne : ∀ m : Fin 4, m ∈ [2, 2] → ∀ n ∈ [0], m ≠ n := by decide
    exact hne m hm n hn
  -- In each context one item is met, whose only child is selected.
  have hchild (context : List (Fin 4)) (c : Fin 4)
      (hc : ∀ n, n ∈ [c] ↔ ∃ m ∈ context, (items.children m)[0]? = some n) :
      items.Lists context (items.images [.child 0] {n | n ∈ context}) [c] := by
    refine ⟨fun n => (hc n).trans ?_, List.pairwise_singleton _ _⟩
    constructor
    · rintro ⟨m, hm, hn⟩
      exact ⟨m, hm, 0, hn, rfl⟩
    · rintro ⟨m, hm, position, hn, hposition⟩
      obtain rfl : position = 0 := by simpa using hposition
      exact ⟨m, hm, hn⟩
  have hfirst := hchild [2, 2] 3 (by decide)
  have hsecond := hchild [0] 1 (by decide)
  obtain ⟨⟨ns, ms, hns, hms, hnodes⟩, htexts⟩ :=
    items_consistent.evaluate_append_context hapart [.child 0]
  obtain ⟨s, t, hs, ht, htext⟩ := htexts .text
  rw [items_consistent.evaluate_selections_iff] at hns hms
  rw [items_consistent.evaluate_extract_iff] at hs ht
  obtain rfl := hns.unique hfirst
  obtain rfl := hms.unique hsecond
  obtain ⟨ns, hns, rfl⟩ := hs
  obtain ⟨ms, hms, rfl⟩ := ht
  obtain rfl := hns.unique hfirst
  obtain rfl := hms.unique hsecond
  exact ⟨hapart, hnodes, htext⟩

end Forest

end MarkupQuery
