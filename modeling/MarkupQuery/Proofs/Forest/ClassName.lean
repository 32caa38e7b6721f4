import MarkupQuery.Proofs.Forest.Filters
import MarkupQuery.Proofs.Forest.Traversal
import MarkupQuery.Proofs.Text.Word

/-!
# Class names

A selection by class keeps the elements that have the class among the words of their class
attribute. The words are cut out one by one, and case is taken out of each word and out of the class
when it does not matter. Neither is seen from outside: an element is kept when the class stands
between separators or ends somewhere in the attribute, and with another case of the letters in the
class, or in the attributes, the same elements are kept in the same order.

## Main definitions

* `Forest.HasClass`: an element with one of several classes
* `Forest.RecasesClasses`: forests that differ in the case of letters in classes

## Main results

* `Forest.sort_congr`: how nodes are sorted depends on children and parents only
* `Forest.mem_select_className`: a selection by class keeps the elements with the class
* `Forest.step_className`: the elements that a stage keeps, and on what they depend
-/

namespace MarkupQuery

namespace Forest

variable {ν : Type} {F G : Forest ν} {n : ν}

/-! ## What the order depends on -/

theorem root_congr (h : F.parent = G.parent) : F.root = G.root := by
  funext n
  induction n using F.parent_wf.induction with
  | _ n ih =>
    cases hp : F.parent n with
    | none =>
      have hp' : G.parent n = none := h ▸ hp
      rw [root_of_parent_eq_none hp, root_of_parent_eq_none hp']
    | some p =>
      have hp' : G.parent n = some p := h ▸ hp
      rw [root_of_parent_eq_some hp, root_of_parent_eq_some hp', ih p hp]

theorem subtree_congr (h : F.children = G.children) : F.subtree = G.subtree := by
  funext n
  rw [subtree_eq_preorder, subtree_eq_preorder, preorder_congr h]

section

variable [BEq ν] [Hashable ν]

theorem number_congr (hchildren : F.children = G.children) (hparent : F.parent = G.parent)
    (order nodes : List ν) : F.number order nodes = G.number order nodes := by
  have htree : F.numberTree = G.numberTree := by
    funext order n
    rw [numberTree, numberTree, subtree_congr hchildren, root_congr hparent]
  fun_induction F.number order nodes with
  | case1 order nodes known hdrop =>
    rw [number]
    split
    · rfl
    · next hcons => exact absurd (hdrop.symm.trans hcons) (List.cons_ne_nil _ _).symm
  | case2 order nodes known n rest hdrop ih =>
    rw [ih, htree, number.eq_def G order nodes]
    dsimp only
    split
    · next hnil => exact absurd (hdrop.symm.trans hnil) (List.cons_ne_nil _ _)
    · next hcons =>
      obtain ⟨rfl, rfl⟩ := List.cons.inj (hdrop.symm.trans hcons)
      rfl

/-- **How nodes are sorted depends on children and parents only.** -/
theorem sort_congr (hchildren : F.children = G.children) (hparent : F.parent = G.parent) :
    F.sort = G.sort := by
  funext order nodes
  rw [sort, sort, number_congr hchildren hparent]

end

/-! ## Elements with a class -/

/-- The node is an element, and a word of its class attribute is one of the names. The word is not
empty: it is made of other units than separators, and there is nothing but a separator or an end of
the attribute on either side. -/
def HasClass (F : Forest ν) (names : Text → Prop) (n : ν) : Prop :=
  F.kind n = .element ∧ ∃ classes, F.attr n "class" = some classes ∧
    ∃ word : Text, word ≠ [] ∧ word.IsWordOf CodeUnit.separators classes ∧ names word

/-- **A selection by class keeps the elements with the class.** -/
theorem mem_select_className {expected : Text} {caseSensitive : Bool} {nodes : List ν} :
    n ∈ F.select (.className expected caseSensitive) nodes ↔
      n ∈ nodes ∧ F.HasClass (· ∈ textsLike caseSensitive expected) n := by
  rw [select, List.mem_filter, hasAttr_iff, elementsWith, Set.mem_ofPred_eq, HasClass]
  refine and_congr_right fun _ => and_congr_right fun _ => exists_congr fun classes => ?_
  rw [and_comm, Set.mem_ofPred_eq, hasWord_iff, textsWithWord, Set.mem_ofPred_eq]
  refine and_congr_right fun _ => exists_congr fun word => ?_
  rw [and_comm, and_assoc]

/-- No element has a class that is empty, or that has a separator in it. -/
theorem not_hasClass {expected : Text}
    (h : expected = [] ∨ ∃ c ∈ expected, c ∈ CodeUnit.separators) :
    ¬ F.HasClass (Text.Recases · expected) n := by
  rintro ⟨-, classes, -, word, hne, ⟨hword, -⟩, hrecases⟩
  have heq : word.lower = expected.lower := Text.lower_eq_lower_iff.mpr hrecases
  rcases h with rfl | ⟨c, hc, hseparator⟩
  · exact hne (List.map_eq_nil_iff.mp heq)
  · -- The word would have a separator, in lower case as in its own.
    simp only [← CodeUnit.isSeparator_iff, Bool.not_eq_true] at hword hseparator
    rw [← Text.forall_mem_lower CodeUnit.isSeparator_lower, heq,
      Text.forall_mem_lower CodeUnit.isSeparator_lower] at hword
    rw [hword c hc] at hseparator
    contradiction

/-! ## Case -/

/-- When case does not matter, words may be cut from the lower case of an attribute. -/
theorem hasWord_eq_any_lower (expected classes : Text) :
    hasWord false expected classes = (Text.words CodeUnit.isSeparator classes.lower).any
      fun word => !word.isEmpty && word == expected.lower := by
  rw [Text.words_lower CodeUnit.isSeparator_lower, List.any_map, hasWord]
  refine List.any_congr rfl fun word => ?_
  simp [sameText, Text.lower]

/-- The forests have the same elements and texts with the same children and parents, and their class
attributes differ in the case of letters only. Tags, contents and other attributes may differ. -/
structure RecasesClasses (F G : Forest ν) : Prop where
  kind_eq : F.kind = G.kind
  children_eq : F.children = G.children
  parent_eq : F.parent = G.parent
  attr_recases : ∀ n, Option.Rel Text.Recases (F.attr n "class") (G.attr n "class")

/-- When case does not matter, it does not in the class and not in the attributes. -/
theorem select_className_congr (h : F.RecasesClasses G) {expected expected' : Text}
    (hexpected : expected.Recases expected') (nodes : List ν) :
    F.select (.className expected false) nodes = G.select (.className expected' false) nodes := by
  refine List.filter_congr fun n _ => ?_
  rw [hasAttr, hasAttr, isElement, isElement, h.kind_eq]
  have hattr := h.attr_recases n
  generalize F.attr n "class" = classes at hattr ⊢
  generalize G.attr n "class" = classes' at hattr ⊢
  cases hattr with
  | none => rfl
  | some hclasses =>
    rw [Option.any_some, Option.any_some, hasWord_eq_any_lower, hasWord_eq_any_lower,
      Text.lower_eq_lower_iff.mpr hclasses, Text.lower_eq_lower_iff.mpr hexpected]

theorem recasesClasses_refl (F : Forest ν) : F.RecasesClasses F where
  kind_eq := rfl
  children_eq := rfl
  parent_eq := rfl
  attr_recases n := by
    cases F.attr n "class" with
    | none => exact .none
    | some classes => exact .some (Text.lower_eq_lower_iff.mp rfl)

/-! ## Stages -/

variable [BEq ν] [LawfulBEq ν] [Hashable ν]

/-- **A stage by class keeps the elements with the class**, whatever the forest, the nodes and the
class are. When case matters, the word is the class itself; when it does not, it is the class with
letters from `A` to `Z` in the one case or the other, and with no other unit changed. More elements
are kept when it does not matter; and then the same are kept, and listed in the same order, with the
letters of the class or of the attributes in other cases. With a class that is empty, or with a
separator in it, none are. In a run the nodes come in order, and those that are kept stay as they
were listed. -/
theorem step_className (F : Forest ν) (order ns : List ν) (expected : Text) :
    ∃ order₁ order₂ strict folded : List ν,
      F.step ⟨order, .nodes ns⟩ (.select (.className expected true)) =
        .ok ⟨order₁, .nodes strict⟩ ∧
      F.step ⟨order, .nodes ns⟩ (.select (.className expected false)) =
        .ok ⟨order₂, .nodes folded⟩ ∧
      (∀ n, n ∈ strict ↔ n ∈ ns ∧ F.HasClass (· = expected) n) ∧
      (∀ n, n ∈ folded ↔ n ∈ ns ∧ F.HasClass (Text.Recases · expected) n) ∧
      strict ⊆ folded ∧
      (∀ (G : Forest ν) (expected' : Text), F.RecasesClasses G → expected.Recases expected' →
        G.step ⟨order, .nodes ns⟩ (.select (.className expected' false)) =
          .ok ⟨order₂, .nodes folded⟩) ∧
      ((expected = [] ∨ ∃ c ∈ expected, c ∈ CodeUnit.separators) → strict = [] ∧ folded = []) ∧
      (Run.IsOrdered ⟨order, .nodes ns⟩ →
        order₁ = order ∧ order₂ = order ∧ strict.Sublist ns ∧ folded.Sublist ns) := by
  have hstrict (n : ν) : n ∈ (F.sort order (F.select (.className expected true) ns)).1 ↔
      n ∈ ns ∧ F.HasClass (· = expected) n := mem_sort.trans mem_select_className
  have hfolded (n : ν) : n ∈ (F.sort order (F.select (.className expected false) ns)).1 ↔
      n ∈ ns ∧ F.HasClass (Text.Recases · expected) n := mem_sort.trans mem_select_className
  -- A word that is the class is so in whatever case.
  have hsubset : (F.sort order (F.select (.className expected true) ns)).1 ⊆
      (F.sort order (F.select (.className expected false) ns)).1 := by
    intro n hn
    obtain ⟨hmem, hkind, classes, hclasses, word, hne, hword, rfl⟩ := (hstrict n).mp hn
    have hrecases : word.Recases word := Text.lower_eq_lower_iff.mp rfl
    exact (hfolded n).mpr ⟨hmem, hkind, classes, hclasses, word, hne, hword, hrecases⟩
  refine ⟨_, _, _, _, rfl, rfl, hstrict, hfolded, hsubset, ?_, ?_, ?_⟩
  · intro G expected' hG hexpected
    show Except.ok (G.arrange order (G.select (.className expected' false) ns)) = _
    rw [← select_className_congr hG hexpected, arrange,
      ← sort_congr hG.children_eq hG.parent_eq]
  · intro hexpected
    have hnil : (F.sort order (F.select (.className expected false) ns)).1 = [] :=
      List.eq_nil_iff_forall_not_mem.mpr fun n hn =>
        not_hasClass hexpected ((hfolded n).mp hn).2
    exact ⟨List.subset_nil.mp (hnil ▸ hsubset), hnil⟩
  · intro hrun
    have hfilter (caseSensitive : Bool) :
        F.sort order (F.select (.className expected caseSensitive) ns) =
          (F.select (.className expected caseSensitive) ns, order) := by
      have hstep := Except.ok.inj (step_filter (F := F) hrun (.className expected caseSensitive))
      obtain ⟨horder, hnodes⟩ := Run.mk.inj hstep
      exact Prod.ext (Value.nodes.inj hnodes) horder
    rw [hfilter, hfilter]
    exact ⟨rfl, rfl, F.select_sublist (.className _ _) ns, F.select_sublist (.className _ _) ns⟩

/-- The letter is in the attributes of two nodes, in lower case. -/
theorem step_className_marked : ∃ order₁ order₂ strict folded : List (Fin 3),
    marked.step ⟨[1, 2, 0], .nodes [1, 2, 0]⟩ (.select (.className "A" true)) =
      .ok ⟨order₁, .nodes strict⟩ ∧
    marked.step ⟨[1, 2, 0], .nodes [1, 2, 0]⟩ (.select (.className "a" false)) =
      .ok ⟨order₂, .nodes folded⟩ ∧ 2 ∉ strict ∧ 2 ∈ folded := by
  obtain ⟨order₁, order₂, strict, folded, hstrict, -, hmem, hmem', -, hrecased, -⟩ :=
    step_className marked [1, 2, 0] [1, 2, 0] "A"
  have hrecases : Text.Recases "A" "a" := Text.lower_eq_lower_iff.mp (by decide)
  refine ⟨order₁, order₂, strict, folded, hstrict,
    hrecased marked "a" (recasesClasses_refl _) hrecases, ?_, ?_⟩
  · rw [hmem]
    rintro ⟨-, -, classes, hclasses, word, -, ⟨-, before, after, hword, -⟩, rfl⟩
    have hin : (0x41 : CodeUnit) ∈ ("a" : Text) := by
      rw [Option.some.inj hclasses, hword]
      exact List.mem_append_left _ (List.mem_append_right _ List.mem_cons_self)
    revert hin
    decide
  · rw [hmem']
    have hword : Text.IsWordOf "a" CodeUnit.separators "a" :=
      (Text.mem_words_iff CodeUnit.isSeparator_iff).mp (by decide)
    have hrecases : Text.Recases "a" "A" := Text.lower_eq_lower_iff.mp (by decide)
    exact ⟨by decide, rfl, "a", rfl, "a", by decide, hword, hrecases⟩

end Forest

end MarkupQuery
