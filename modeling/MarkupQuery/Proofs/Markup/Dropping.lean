import MarkupQuery.Proofs.Markup.Content
import MarkupQuery.Proofs.Markup.Normal

/-!
# Markup that is written and read again without blanks

When blanks are not kept, a text is dropped if it is nothing but blanks as it is written. A blank
can also be written as a reference; then it is not dropped, and the tree has a text that is nothing
but blanks. In the markup of that tree the text stands as itself, and reading it once more does drop
it. That is all that is lost: elements, attributes and every other text are read back where they
were.

## Main results

* `Node.editTexts_eq_some_iff`: an edited tree is the same only if every text in it is
* `Node.AreTidy.parseAll_false_flatMap_renderIn`: what is read back of tidy siblings
* `Node.parse_render_parse_false`: what is read back of the tree of a markup
* `Node.parse_render_parse_reference`: a blank written as a reference is lost
-/

namespace MarkupQuery

namespace Node

variable {edit : Text → Option Text} {keepWhitespace : Bool} {nodes : List Node}

/-! ## Trees that are not changed -/

/-- Elements that a function may change or drop are all left alone if the list is. -/
theorem filterMap_eq_self_iff {α : Type} {f : α → Option α} {xs : List α} :
    xs.filterMap f = xs ↔ ∀ x ∈ xs, f x = some x := by
  induction xs with
  | nil => exact iff_of_true rfl nofun
  | cons x xs ih =>
    rw [List.forall_mem_cons]
    cases hx : f x with
    | none =>
      -- What is left of the others is too short.
      refine iff_of_false (fun h => ?_) (fun h => nomatch h.1)
      have hlength := List.length_filterMap_le f xs
      rw [List.filterMap_cons_none hx] at h
      rw [h, List.length_cons] at hlength
      exact Nat.not_succ_le_self _ hlength
    | some y => rw [List.filterMap_cons_some hx, List.cons.injEq, ih, Option.some.injEq]

mutual

/-- **An edited tree is the same only if every text in it is.** -/
theorem editTexts_eq_some_iff (n : Node) :
    n.editTexts edit = some n ↔ ∀ value, text value ∈ n.preorder → edit value = some value := by
  cases n with
  | document children =>
    rw [editTexts_document, Option.some.injEq, document.injEq, filterMap_eq_self_iff,
      forall_editTexts_eq_some_iff, preorder]
    simp only [List.mem_cons, reduceCtorEq, false_or]
  | element tag attributes children =>
    rw [editTexts_element, Option.some.injEq, element.injEq, filterMap_eq_self_iff,
      forall_editTexts_eq_some_iff, preorder]
    simp only [List.mem_cons, reduceCtorEq, false_or, true_and]
  | text value =>
    rw [editTexts_text, preorder]
    simp only [List.mem_singleton, text.injEq, forall_eq, Option.map_eq_some_iff, exists_eq_right]

theorem forall_editTexts_eq_some_iff (nodes : List Node) :
    (∀ n ∈ nodes, n.editTexts edit = some n) ↔
      ∀ value, text value ∈ preorderAll nodes → edit value = some value := by
  cases nodes with
  | nil => exact iff_of_true nofun nofun
  | cons n nodes =>
    rw [List.forall_mem_cons, editTexts_eq_some_iff n, forall_editTexts_eq_some_iff nodes,
      preorderAll]
    simp only [List.mem_append, or_imp, forall_and]

end

/-! ## Reading back -/

mutual

/-- An edit that removes empty texts removes those that complete a tree. -/
theorem editTexts_completed (hedit : edit [] = none) (n : Node) :
    n.completed.editTexts edit = n.editTexts edit := by
  cases n with
  | document children =>
    rw [completed, editTexts_document, editTexts_document, filterMap_completedAll hedit children]
  | element tag attributes children =>
    rw [completed]
    split
    · next h =>
      obtain ⟨-, rfl⟩ := h
      rw [editTexts_element, editTexts_element, List.filterMap_nil, List.filterMap_cons_none,
        List.filterMap_nil]
      rw [editTexts_text, hedit, Option.map_none]
    · rw [editTexts_element, editTexts_element, filterMap_completedAll hedit children]
  | text value => rw [completed]

theorem filterMap_completedAll (hedit : edit [] = none) (nodes : List Node) :
    (completedAll nodes).filterMap (editTexts edit) = nodes.filterMap (editTexts edit) := by
  cases nodes with
  | nil => rfl
  | cons n nodes =>
    rw [completedAll, List.filterMap_cons, List.filterMap_cons, editTexts_completed hedit n,
      filterMap_completedAll hedit nodes]

end

/-- What is written for tidy siblings is read back without the texts that are nothing but blanks. -/
theorem AreTidy.parseAll_false_flatMap_renderIn (h : AreTidy keepWhitespace nodes) :
    parseAll false (nodes.flatMap (renderIn false)) =
      nodes.filterMap (editTexts (Builder.kept false)) := by
  rw [← flatMap_renderIn_completedAll, parseAll_flatMap_renderIn_eq_filterMap _
    h.textsApart.completedAll, filterMap_completedAll rfl]
  exact forall_mem_completedAll.mpr fun n hn => (h.isTidy n hn).isReadable_completed

theorem editTexts_parse_eq_some (keepWhitespace : Bool) (markup : Text) :
    (parse keepWhitespace markup).editTexts (Builder.kept false) =
      some (parse false (parse keepWhitespace markup).render) := by
  rw [parse, parse, editTexts_document, render_document,
    (areTidy_parseAll keepWhitespace markup).parseAll_false_flatMap_renderIn]

/-- **What is written for the tree of a markup is read back but for texts of blanks.** When blanks
are not kept, the tree that is read back is the tree of the markup without the texts that are
nothing but blanks; so it is the same tree if and only if there are none. -/
theorem parse_render_parse_false (markup : Text) :
    some (parse false (parse false markup).render) =
        (parse false markup).editTexts (Builder.kept false) ∧
      (parse false (parse false markup).render = parse false markup ↔
        ∀ value, text value ∈ (parse false markup).preorder → ¬ value ⊆ CodeUnit.whitespace) := by
  have hread := editTexts_parse_eq_some false markup
  refine ⟨hread.symm, ?_⟩
  rw [← Option.some_inj, ← hread, editTexts_eq_some_iff]
  apply forall_congr'
  intro value
  apply imp_congr_right
  intro _
  rw [Builder.kept, Option.ite_none_left_eq_some, and_iff_left rfl, and_iff_right rfl]

/-- **A blank written as a reference is lost**: its text is all that the document has, and what is
written for it is a blank, which is dropped. -/
theorem parse_render_parse_reference :
    parse false (parse false "&#32;").render ≠ parse false "&#32;" := by
  have hparse : parse false "&#32;" = document [text [CodeUnit.space]] := by
    have hscan : Event.scan "&#32;" = [.text "&#32;"] := by
      have hne : ("&#32;" : Text) ≠ [] := by decide
      have h := Event.scan_text hne (by decide) Text.stopsAt_nil
      rw [List.append_nil, Event.scan] at h
      exact h
    have hdecoded : Text.decoded "&#32;" = [CodeUnit.space] := by
      have hread : Reference.read? "#32;" = some (.decimal "32", []) := by decide
      have h := Text.decoded_of_read? hread
      rw [Text.decoded] at h
      exact h
    rw [parse, parseAll, hscan, List.foldl_cons, List.foldl_nil, Builder.add, hdecoded]
    rfl
  intro h
  have hread := editTexts_parse_eq_some false "&#32;"
  rw [h, hparse, editTexts_document] at hread
  -- The text of one blank is left out on the one side only.
  exact List.cons_ne_nil _ _ (document.inj (Option.some.inj hread)).symm

end Node

end MarkupQuery
