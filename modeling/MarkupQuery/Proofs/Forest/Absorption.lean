import MarkupQuery.Proofs.Forest.Resume

/-!
# Selections that are absorbed

To go from some nodes to all that is in and below them is to close a set of nodes: it adds nothing
the second time. A path that looks for a tag in and below some nodes finds in the closed set what it
finds in the set itself, and looking for the tag once more finds the same elements again. Runs list
many nodes twice on the way, or sort many that the next stage drops, but the reference knows
sets only, and by the reference a stage that changes no set can be left out.

## Main definitions

* `Forest.Absorbs`: a selection gives the same set whether or not another comes before it

## Main results

* `Forest.image_flat_image_flat`: the nodes in and below a set are a closed set
* `Forest.Denotes.append_mono`: what the end of a pipeline may be replaced by
* `Forest.Consistent.evaluate_absorbed`: a stage that the next one absorbs can be left out
* `Forest.Consistent.evaluate_subtree_absorbed`: of two stages that look below their nodes one is
  enough
-/

namespace MarkupQuery

namespace Forest

variable {ν : Type} {F : Forest ν} {S T : Set ν} {tag : Text}

/-! ## Closed sets -/

/-- A node is in the set of those in and below it. -/
theorem subset_image_flat (S : Set ν) : S ⊆ F.image .flat S :=
  fun n hn => ⟨n, hn, Below.refl⟩

theorem image_flat_mono (h : S ⊆ T) : F.image .flat S ⊆ F.image .flat T := by
  rintro m ⟨n, hn, hm⟩
  exact ⟨n, h hn, hm⟩

/-- **What is in and below a set of nodes is a closed set.** -/
theorem image_flat_image_flat (F : Forest ν) (S : Set ν) :
    F.image .flat (F.image .flat S) = F.image .flat S := by
  apply Set.Subset.antisymm _ (subset_image_flat _)
  rintro m ⟨n, ⟨a, ha, hn⟩, hm⟩
  exact ⟨a, ha, hn.trans hm⟩

/-- A path that looks for a tag closes the set and keeps the elements with the tag. -/
theorem image_descendant (F : Forest ν) (tag : Text) (S : Set ν) :
    F.image (.path ⟨.descendant, tag⟩) S = F.image .flat S ∩ F.elementsNamed tag := rfl

/-! ## Absorption -/

/-- The second selection gives the same set of nodes after the first as it gives alone. -/
def Absorbs (F : Forest ν) (first second : Selection) : Prop :=
  ∀ S, F.image second (F.image first S) = F.image second S

theorem absorbs_flat_flat (F : Forest ν) : F.Absorbs .flat .flat := F.image_flat_image_flat

theorem absorbs_flat_descendant (F : Forest ν) (tag : Text) :
    F.Absorbs .flat (.path ⟨.descendant, tag⟩) := by
  intro S
  rw [image_descendant, image_descendant, image_flat_image_flat]

theorem absorbs_descendant_descendant (F : Forest ν) (tag : Text) :
    F.Absorbs (.path ⟨.descendant, tag⟩) (.path ⟨.descendant, tag⟩) := by
  intro S
  rw [image_descendant, image_descendant]
  apply Set.Subset.antisymm
  · -- What is below the elements that were found is below the set.
    apply Set.inter_subset_inter_left
    have h : F.image .flat S ∩ F.elementsNamed tag ⊆ F.image .flat S := Set.inter_subset_left
    exact (image_flat_mono h).trans (image_flat_image_flat F S).subset
  · -- The elements that were found are in and below themselves.
    intro m hm
    exact ⟨subset_image_flat _ hm, hm.2⟩

/-! ## Pipelines -/

variable [BEq ν] {context : List ν} {first second : Selection} {p q q' : Pipeline} {v : Value ν}
  {outcome : Outcome ν}

/-- The end of a pipeline may be replaced by one that gives the value whenever the end does. -/
theorem Denotes.append_mono (h : ∀ o, F.Denotes context o q v → F.Denotes context o q' v)
    (hv : F.Denotes context outcome (p ++ q) v) : F.Denotes context outcome (p ++ q') v := by
  induction p generalizing outcome with
  | nil => exact h outcome hv
  | cons stage p ih =>
    cases hv with
    | select hrest => exact .select (ih hrest)
    | extract hlists hrest => exact .extract hlists (ih hrest)
    | edit hsplit hcuts hrest => exact .edit hsplit hcuts (ih hrest)

/-- At the beginning of a pipeline, a selection that is absorbed can be left out. -/
theorem denotes_absorbed (h : F.Absorbs first second) :
    F.Denotes context outcome (.select first :: .select second :: q) v ↔
      F.Denotes context outcome (.select second :: q) v := by
  cases outcome with
  | nodes S =>
    constructor
    · intro hv
      cases hv with
      | select hfirst =>
        cases hfirst with
        | select hrest =>
          rw [h S] at hrest
          exact .select hrest
    · intro hv
      cases hv with
      | select hrest =>
        rw [← h S] at hrest
        exact .select (.select hrest)
  | text t => exact ⟨nofun, nofun⟩

variable [Hashable ν] [LawfulBEq ν]

namespace Consistent

variable (hF : F.Consistent)
include hF

/-- **A stage that the next one absorbs can be left out**, wherever the two stand in a pipeline. -/
theorem evaluate_absorbed (h : F.Absorbs first second) (p q : Pipeline) (context : List ν)
    (v : Value ν) :
    F.evaluate (p ++ .select first :: .select second :: q) context = .ok v ↔
      F.evaluate (p ++ .select second :: q) context = .ok v := by
  have hdenotes (p : Pipeline) : F.evaluate p context = .ok v ↔
      F.Denotes context (.nodes {n | n ∈ context}) p v :=
    hF.steps_eq_ok_iff_denotes (hF.agrees_start context)
  rw [hdenotes, hdenotes]
  constructor
  · apply Denotes.append_mono
    intro o
    exact (denotes_absorbed h).mp
  · apply Denotes.append_mono
    intro o
    exact (denotes_absorbed h).mpr

/-- **Of two stages that look below their nodes one is enough.** In any pipeline a second `flat`
changes nothing, nor does a `flat` before a path to descendants, nor the same path to descendants
again: with and without it there is the same value, or none. -/
theorem evaluate_subtree_absorbed (p q : Pipeline) (context : List ν) (tag : Text) (v : Value ν) :
    (F.evaluate (p ++ .select .flat :: .select .flat :: q) context = .ok v ↔
        F.evaluate (p ++ .select .flat :: q) context = .ok v) ∧
      (F.evaluate (p ++ .select .flat :: .select (.path ⟨.descendant, tag⟩) :: q) context = .ok v ↔
        F.evaluate (p ++ .select (.path ⟨.descendant, tag⟩) :: q) context = .ok v) ∧
      (F.evaluate (p ++ .select (.path ⟨.descendant, tag⟩) ::
          .select (.path ⟨.descendant, tag⟩) :: q) context = .ok v ↔
        F.evaluate (p ++ .select (.path ⟨.descendant, tag⟩) :: q) context = .ok v) :=
  ⟨hF.evaluate_absorbed F.absorbs_flat_flat p q context v,
    hF.evaluate_absorbed (F.absorbs_flat_descendant tag) p q context v,
    hF.evaluate_absorbed (F.absorbs_descendant_descendant tag) p q context v⟩

end Consistent

/-- Both items are found by every one of the longer pipelines, that of the tree met first before the
other. -/
theorem evaluate_subtree_absorbed_items :
    items.evaluate [.select .flat, .select .flat, .select (.path ⟨.descendant, "LI"⟩)] [2, 0, 2] =
        .ok (.nodes [2, 0]) ∧
      items.evaluate [.select .flat, .select (.path ⟨.descendant, "LI"⟩)] [2, 0, 2] =
        .ok (.nodes [2, 0]) ∧
      items.evaluate [.select (.path ⟨.descendant, "LI"⟩), .select (.path ⟨.descendant, "LI"⟩)]
        [2, 0, 2] = .ok (.nodes [2, 0]) := by
  have hpath : items.evaluate [.select (.path ⟨.descendant, "LI"⟩)] [2, 0, 2] =
      .ok (.nodes [2, 0]) := by
    apply (items_consistent.steps_eq_ok_iff_denotes (items_consistent.agrees_start _)).mpr
    refine .select (.nodes ⟨?_, ?_⟩)
    · have hitem : ∀ n : Fin 4, n ∈ [2, 0] ↔ items.kind n = .element := by decide
      have hcase : Text.Recases "li" "LI" := Text.lower_eq_lower_iff.mp (by decide)
      intro n
      rw [hitem]
      constructor
      · intro hn
        have hcontext : n ∈ [2, 0, 2] := List.mem_append_left [2] ((hitem n).mpr hn)
        exact ⟨⟨n, hcontext, Below.refl⟩, hn, hcase⟩
      · rintro ⟨-, hn, -⟩
        exact hn
    · have hsorted := items_consistent.pairwise_precedes_treeOrder [2, 0, 2]
      rw [treeOrder_items] at hsorted
      exact hsorted.sublist (by decide)
  have h (p q : Pipeline) :=
    items_consistent.evaluate_subtree_absorbed p q [2, 0, 2] "LI" (.nodes [2, 0])
  have hflat := (h [] []).2.1.mpr hpath
  exact ⟨(h [] [.select (.path ⟨.descendant, "LI"⟩)]).1.mpr hflat, hflat, (h [] []).2.2.mpr hpath⟩

end Forest

end MarkupQuery
