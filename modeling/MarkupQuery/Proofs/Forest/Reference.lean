import Mathlib.Data.Set.Basic
import MarkupQuery.Forest.Evaluate
import MarkupQuery.Proofs.Forest.Editing
import MarkupQuery.Proofs.Forest.Numbering
import MarkupQuery.Proofs.Text.Word

/-!
# What a pipeline means

By the reference, a selection maps a set of nodes to a set of nodes: it does not know of lists,
of repetitions or of an order. Only where a set is shown, or where its texts are joined, is it
listed, and then in the one order that the context gives. In a consistent forest the runs give
exactly the values of the reference, although they sort after every stage and extend the order
only when they must.

## Main definitions

* `Forest.image`: the set of nodes that a selection gives
* `Forest.contribution`: what a node adds to an extracted text
* `Forest.Denotes`: the value of a pipeline by the reference

## Main results

* `Forest.mem_select`: a selection from a list gives the image of the set of its nodes
* `Forest.Consistent.evaluate_eq_ok_iff_denotes`: runs give the values of the reference
-/

namespace MarkupQuery

namespace Forest

variable {ν : Type}

/-! ## The image of a set -/

/-- The elements with a tag, in whichever case. -/
def elementsNamed (F : Forest ν) (tag : Text) : Set ν :=
  {n | F.kind n = .element ∧ Text.Recases (F.tag n) tag}

/-- The elements that have an attribute with a value in `accepts`. -/
def elementsWith (F : Forest ν) (field : Text) (accepts : Set Text) : Set ν :=
  {n | F.kind n = .element ∧ ∃ actual ∈ accepts, F.attr n field = some actual}

/-- The texts that are equal to a text, or to its letters in either case. -/
def textsLike (caseSensitive : Bool) (expected : Text) : Set Text :=
  {actual | if caseSensitive then actual = expected else Text.Recases actual expected}

/-- The texts that have one of some texts as a word. -/
def textsWithWord (accepts : Set Text) : Set Text :=
  {t | ∃ word ∈ accepts, word ≠ [] ∧ word.IsWordOf CodeUnit.separators t}

/-- The set of nodes that a selection gives. -/
def image (F : Forest ν) : Selection → Set ν → Set ν
  | .flat, S => {m | ∃ n ∈ S, F.Below n m}
  | .path ⟨.child, tag⟩, S => {m | ∃ n ∈ S, m ∈ F.children n} ∩ F.elementsNamed tag
  | .path ⟨.descendant, tag⟩, S => {m | ∃ n ∈ S, F.Below n m} ∩ F.elementsNamed tag
  | .attr field none, S => S ∩ F.elementsWith field Set.univ
  | .attr field (some expected), S => S ∩ F.elementsWith field {expected}
  | .identifier expected caseSensitive, S =>
    S ∩ F.elementsWith "id" (textsLike caseSensitive expected)
  | .className expected caseSensitive, S =>
    S ∩ F.elementsWith "class" (textsWithWord (textsLike caseSensitive expected))
  | .child index, S =>
    {m | ∃ n ∈ S, ∃ position : Nat, (F.children n)[position]? = some m ∧
      position = if index < 0 then (F.children n).length + index else index}

/-! ## The values of a pipeline -/

/-- What a node adds to an extracted text. -/
def contribution (F : Forest ν) : Extraction → ν → Text
  | .text, n =>
    if F.kind n = .text then F.content n
    else ((F.preorder n).filter (F.kind · = .text)).flatMap F.content
  | .attr field, n => (F.attr n field).getD []

/-- What flows through a pipeline by the reference: a set of nodes, or a text. -/
inductive Outcome (ν : Type) where
  | nodes (S : Set ν)
  | text (value : Text)

/-- The value that the stages of a pipeline give from a set of nodes or a text. A stage that is
given the other kind than it takes gives nothing. -/
inductive Denotes [BEq ν] (F : Forest ν) (context : List ν) :
    Outcome ν → Pipeline → Value ν → Prop
  | nodes {S : Set ν} {ns : List ν} (hlists : F.Lists context S ns) :
      Denotes F context (.nodes S) [] (.nodes ns)
  | text (t : Text) : Denotes F context (.text t) [] (.text t)
  | select {S : Set ν} {selection : Selection} {p : Pipeline} {v : Value ν}
      (hrest : Denotes F context (.nodes (F.image selection S)) p v) :
      Denotes F context (.nodes S) (.select selection :: p) v
  | extract {S : Set ν} {ns : List ν} {extraction : Extraction} {p : Pipeline} {v : Value ν}
      (hlists : F.Lists context S ns)
      (hrest : Denotes F context (.text (ns.flatMap (F.contribution extraction))) p v) :
      Denotes F context (.nodes S) (.extract extraction :: p) v
  | edit {t lead kept tail : Text} {edit : Edit} {p : Pipeline} {v : Value ν}
      (hsplit : t = lead ++ kept ++ tail) (hcuts : edit.Cuts lead kept tail)
      (hrest : Denotes F context (.text kept) p v) :
      Denotes F context (.text t) (.edit edit :: p) v

/-! ## Selections -/

variable {F : Forest ν} {context nodes : List ν} {m n : ν}

theorem sameText_iff {caseSensitive : Bool} {actual expected : Text} :
    sameText caseSensitive actual expected = true ↔ actual ∈ textsLike caseSensitive expected := by
  cases caseSensitive <;> simp [sameText, textsLike, Text.lower_eq_lower_iff]

theorem hasTag_iff {tag : Text} : F.hasTag tag n = true ↔ n ∈ F.elementsNamed tag := by
  simp [hasTag, isElement, elementsNamed, sameText, Text.lower_eq_lower_iff]

theorem hasAttr_iff {field : Text} {accepts : Text → Bool} :
    F.hasAttr field accepts n = true ↔ n ∈ F.elementsWith field {t | accepts t = true} := by
  rw [hasAttr, isElement, Bool.and_eq_true, beq_iff_eq, Option.any_eq_true]
  refine and_congr_right fun _ => exists_congr fun actual => ?_
  rw [and_comm]
  rfl

theorem hasWord_iff {caseSensitive : Bool} {expected actual : Text} :
    hasWord caseSensitive expected actual = true ↔
      actual ∈ textsWithWord (textsLike caseSensitive expected) := by
  rw [hasWord, List.any_eq_true, textsWithWord, Set.mem_ofPred_eq]
  refine exists_congr fun word => ?_
  rw [Text.mem_words_iff CodeUnit.isSeparator_iff, Bool.and_eq_true, sameText_iff,
    Bool.not_eq_true', List.isEmpty_eq_false_iff]
  constructor
  · rintro ⟨hword, hne, haccepted⟩
    exact ⟨haccepted, hne, hword⟩
  · rintro ⟨haccepted, hne, hword⟩
    exact ⟨hword, hne, haccepted⟩

theorem childAt_eq_some_iff {index : Int} :
    F.childAt index n = some m ↔ ∃ position : Nat, (F.children n)[position]? = some m ∧
      position = if index < 0 then (F.children n).length + index else index := by
  rw [childAt]
  generalize (if index < 0 then ((F.children n).length : Int) + index else index) = position
  by_cases hposition : position < 0
  · -- An index before the first child is no position.
    rw [if_pos hposition]
    constructor
    · intro h
      contradiction
    · rintro ⟨k, -, hk⟩
      omega
  · rw [if_neg hposition]
    constructor
    · intro h
      exact ⟨position.toNat, h, Int.toNat_of_nonneg (by omega)⟩
    · rintro ⟨k, hk, rfl⟩
      exact hk

/-- **A selection from a list gives the image of the set of its nodes.** -/
theorem mem_select {selection : Selection} :
    m ∈ F.select selection nodes ↔ m ∈ F.image selection {n | n ∈ nodes} := by
  cases selection with
  | flat =>
    simp [select, image, mem_subtree]
  | path step =>
    rcases step with ⟨_ | _, tag⟩
    · simp [select, image, reach, hasTag_iff]
    · simp [select, image, reach, hasTag_iff, mem_subtree]
  | attr field value =>
    cases value with
    | none => simp [select, image, hasAttr_iff, elementsWith]
    | some expected => simp [select, image, hasAttr_iff, elementsWith]
  | identifier expected caseSensitive =>
    simp [select, image, hasAttr_iff, sameText_iff]
  | className expected caseSensitive =>
    simp [select, image, hasAttr_iff, hasWord_iff]
  | child index =>
    simp [select, image, childAt_eq_some_iff]

/-- A selection stays in the trees of its nodes. -/
theorem exists_below_of_mem_image {selection : Selection} {S : Set ν}
    (h : m ∈ F.image selection S) : ∃ n ∈ S, F.Below n m := by
  cases selection with
  | flat => exact h
  | path step =>
    rcases step with ⟨_ | _, tag⟩
    · obtain ⟨⟨n, hn, hm⟩, -⟩ := h
      exact ⟨n, hn, Below.head hm Below.refl⟩
    · exact h.1
  | attr field value =>
    rcases value with _ | expected
    · exact ⟨m, h.1, Below.refl⟩
    · exact ⟨m, h.1, Below.refl⟩
  | identifier expected caseSensitive => exact ⟨m, h.1, Below.refl⟩
  | className expected caseSensitive => exact ⟨m, h.1, Below.refl⟩
  | child index =>
    obtain ⟨n, hn, position, hm, -⟩ := h
    exact ⟨n, hn, Below.head (List.mem_of_getElem? hm) Below.refl⟩

theorem extractFrom_eq_contribution (F : Forest ν) (extraction : Extraction) :
    F.extractFrom extraction = F.contribution extraction := by
  funext n
  cases extraction with
  | text => simp only [extractFrom, contribution, textOf, subtree_eq_preorder]
  | attr field => rfl

/-! ## Runs -/

variable [BEq ν] [Hashable ν] [LawfulBEq ν]

/-- The state of a run over the trees of a context agrees with what the reference has. -/
inductive Agrees (F : Forest ν) (context : List ν) : Run ν → Outcome ν → Prop
  | nodes {order ns : List ν} {S : Set ν} (horder : F.IsOrderOf context order)
      (hlists : F.Lists context S ns) (htrees : ∀ n ∈ ns, F.root n ∈ context.map F.root) :
      Agrees F context ⟨order, .nodes ns⟩ (.nodes S)
  | text (order : List ν) (t : Text) : Agrees F context ⟨order, .text t⟩ (.text t)

namespace Consistent

variable (hF : F.Consistent)
include hF

/-- The first state of a run agrees with the set of context nodes. -/
theorem agrees_start (context : List ν) :
    F.Agrees context (F.start context) (.nodes {n | n ∈ context}) := by
  obtain ⟨hlists, horder⟩ := hF.lists_sort_context context
  refine Agrees.nodes horder hlists ?_
  intro n hn
  exact List.mem_map_of_mem (mem_sort.mp hn)

/-- A selection keeps the agreement. -/
theorem agrees_arrange {order ns : List ν} {S : Set ν} (selection : Selection)
    (h : F.Agrees context ⟨order, .nodes ns⟩ (.nodes S)) :
    F.Agrees context (F.arrange order (F.select selection ns)) (.nodes (F.image selection S)) := by
  rcases h with ⟨horder, hlists, htrees⟩
  -- The selection sees the list, which has the nodes of the set.
  have himage : F.image selection S = {n | n ∈ F.select selection ns} := by
    have hS : S = {n | n ∈ ns} := Set.ext fun n => (hlists.mem_iff n).symm
    rw [hS]
    exact Set.ext fun n => mem_select.symm
  -- What is selected is below a node of the list, and so in its tree.
  have hselected : ∀ m ∈ F.select selection ns, F.root m ∈ context.map F.root := by
    intro m hm
    obtain ⟨n, hn, hbelow⟩ := exists_below_of_mem_image (mem_select.mp hm)
    rw [hF.root_eq_of_below hbelow]
    exact htrees n hn
  obtain ⟨hlists, horder⟩ := hF.lists_sort horder hselected
  rw [himage]
  refine Agrees.nodes horder hlists ?_
  intro n hn
  exact hselected n (mem_sort.mp hn)

/-- From states that agree, the stages give the values of the reference. -/
theorem steps_eq_ok_iff_denotes {p : Pipeline} {run : Run ν} {outcome : Outcome ν} {v : Value ν}
    (h : F.Agrees context run outcome) :
    (F.steps run p).map Run.value = .ok v ↔ F.Denotes context outcome p v := by
  induction p generalizing run outcome with
  | nil =>
    cases h with
    | nodes horder hlists htrees =>
      constructor
      · intro hrun
        obtain rfl := Except.ok.inj hrun
        exact Denotes.nodes hlists
      · intro hv
        cases hv with
        | nodes hlists' => rw [hlists.unique hlists']; rfl
    | text order t =>
      constructor
      · intro hrun
        obtain rfl := Except.ok.inj hrun
        exact Denotes.text t
      · intro hv
        cases hv
        rfl
  | cons stage p ih =>
    rw [steps, List.foldlM_cons]
    cases h with
    | nodes horder hlists htrees =>
      cases stage with
      | select selection =>
        -- Both go on with the image of the set, the run with a listing of it.
        refine (ih (hF.agrees_arrange selection (Agrees.nodes horder hlists htrees))).trans ?_
        constructor
        · exact Denotes.select
        · intro hv
          cases hv with
          | select hrest => exact hrest
      | extract extraction =>
        refine (ih (Agrees.text _ _)).trans ?_
        rw [extract, extractFrom_eq_contribution]
        -- The texts are joined in the same order, for the set is listed in one way only.
        constructor
        · exact Denotes.extract hlists
        · intro hv
          cases hv with
          | extract hlists' hrest => rwa [hlists.unique hlists']
      | edit edit =>
        -- An edit of a set of nodes ends the run, and the reference has no value for it.
        exact iff_of_false (by rintro ⟨⟩) (by rintro ⟨⟩)
    | text order t =>
      cases stage with
      | select selection => exact iff_of_false (by rintro ⟨⟩) (by rintro ⟨⟩)
      | extract extraction => exact iff_of_false (by rintro ⟨⟩) (by rintro ⟨⟩)
      | edit edit =>
        refine (ih (Agrees.text _ _)).trans ?_
        -- What the edit gives is what is kept by the one cut that there is.
        constructor
        · intro hrest
          obtain ⟨lead, tail, hsplit, hcuts⟩ := edit.cuts_apply t
          exact .edit hsplit hcuts hrest
        · intro hv
          cases hv with
          | edit hsplit hcuts hrest =>
            rwa [← (edit.exists_cuts_iff t _).mp ⟨_, _, hsplit, hcuts⟩]

/-- **A run over a consistent forest gives exactly the value of the reference**, whatever the order
and the repetitions of its context nodes and however many trees they are in. -/
theorem evaluate_eq_ok_iff_denotes (p : Pipeline) (context : List ν) (v : Value ν) :
    F.evaluate p context = .ok v ↔ F.Denotes context (.nodes {n | n ∈ context}) p v :=
  hF.steps_eq_ok_iff_denotes (hF.agrees_start context)

end Consistent

/-- Two items with a text in each, `1` in `0` and `3` in `2`. -/
def items : Forest (Fin 4) where
  kind n := if n = 0 ∨ n = 2 then .element else .text
  tag _ := "li"
  content n := if n = 1 then "a" else "b"
  attr _ _ := none
  children n := if n = 0 then [1] else if n = 2 then [3] else []
  parent n := if n = 1 then some 0 else if n = 3 then some 2 else none
  children_wf :=
    have hlt : ∀ c n : Fin 4, c ∈ (if n = 0 then [1] else if n = 2 then [3] else []) →
        3 - c.val < 3 - n.val := by decide
    Subrelation.wf (hlt _ _) (InvImage.wf (fun n : Fin 4 => 3 - n.val) Nat.lt_wfRel.wf)
  parent_wf :=
    have hlt : ∀ p n : Fin 4, (if n = 1 then some 0 else if n = 3 then some 2 else none) = some p →
        p.val < n.val := by decide
    Subrelation.wf (hlt _ _) (InvImage.wf Fin.val Nat.lt_wfRel.wf)

theorem items_consistent : items.Consistent where
  nodup_children := by decide
  mem_children_iff := by decide

/-- The tree of `2` is met first, so its text comes before that of the other. -/
theorem evaluate_items_child :
    items.evaluate [.select (.child 0)] [2, 0, 2] = .ok (.nodes [3, 1]) := by
  refine (items_consistent.evaluate_eq_ok_iff_denotes _ _ _).mpr (.select (.nodes ⟨?_, ?_⟩))
  · intro n
    rw [image, Set.mem_ofPred]
    constructor
    · intro hn
      rw [List.mem_pair] at hn
      rcases hn with rfl | rfl
      · exact ⟨2, by simp, 0, rfl, rfl⟩
      · exact ⟨0, by simp, 0, rfl, rfl⟩
    · rintro ⟨m, hm, position, hn, hposition⟩
      obtain rfl : position = 0 := by simpa using hposition
      have : ∀ m n : Fin 4, (items.children m)[0]? = some n → n ∈ [3, 1] := by decide
      exact this m n hn
  · have hfirst : items.root 0 = 0 := root_of_parent_eq_none rfl
    have hsecond : items.root 2 = 2 := root_of_parent_eq_none rfl
    have hbefore : items.Precedes [2, 0, 2] 3 1 := by
      rw [precedes_iff, root_of_parent_eq_some (n := 1) (a := 0) rfl,
        root_of_parent_eq_some (n := 3) (a := 2) rfl, hfirst, hsecond]
      exact Or.inl (by simp [hfirst, hsecond])
    simpa using hbefore

end Forest

end MarkupQuery
