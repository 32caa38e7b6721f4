import Mathlib.Control.Monad.Basic
import MarkupQuery.Proofs.Forest.Kinds
import MarkupQuery.Proofs.Forest.Positions
import MarkupQuery.Proofs.Markup.Tidy
import MarkupQuery.Proofs.Pipeline.RoundTrip

/-!
# The document among the nodes

A query runs from the document of a markup, which reads as an element and flows through the stages
like one. But no query can ask for it. It is a child of nothing and has no attributes, and its tag
has a hash, which no tag in a path has in any case. So every selection but `@flat` leaves it out,
and since selections only go down, nothing brings it back.

## Main definitions

* `Forest.ReadsAsDocument`: a node that stands above all others, with the tag of a document
* `Value.Has`, `Index.HasDocument`: a node, and a document, among the nodes of a value

## Main results

* `Forest.ReadsAsDocument.mem_select_iff`: which selections give the document
* `Forest.ReadsAsDocument.has_steps_iff`: a run has the document as long as it has only taken all
  nodes
* `Index.node_eq_document_iff`: a markup has one document
* `Index.hasDocument_query_iff`: the queries on a markup that give its document
-/

namespace MarkupQuery

variable {ν : Type}

/-- The node is among the nodes of the value. -/
def Value.Has (v : Value ν) (n : ν) : Prop := ∃ ns, v = .nodes ns ∧ n ∈ ns

namespace Value

variable {n : ν}

@[simp] theorem has_nodes {ns : List ν} : (nodes ns).Has n ↔ n ∈ ns := by
  simp [Has]

@[simp] theorem not_has_text {t : Text} : ¬ (text t).Has n := by
  simp [Has]

end Value

/-! ## The tag of a document -/

/-- No path asks for a document: in neither case the tag of a step has a hash. -/
theorem Step.IsValid.sameText_documentTag {s : Step} (hs : s.IsValid) :
    sameText false Index.documentTag s.tag = false := by
  rw [Bool.eq_false_iff]
  intro hsame
  have hlower : Index.documentTag.lower = s.tag.lower := beq_iff_eq.mp hsame
  have hhash : CodeUnit.hash ∈ s.tag.lower := hlower ▸ (by decide)
  obtain ⟨c, hc, heq⟩ := List.mem_map.mp hhash
  have htag : c.lower.isTagUnit = true := by
    refine CodeUnit.lower_of_class (fun d hd => ?_) ((Step.isValid_iff.mp hs).2 c hc)
    rw [CodeUnit.isTagUnit, CodeUnit.isAlpha_of_isLower hd]
    rfl
  rw [heq] at htag
  contradiction

/-! ## Stages -/

namespace Forest

/-- The node reads as a document does: it is the child of no node, it has the tag of a document, and
it has no attributes. -/
structure ReadsAsDocument (F : Forest ν) (n : ν) : Prop where
  notMem_children : ∀ m, n ∉ F.children m
  tag_eq : F.tag n = Index.documentTag
  attr_eq_none : ∀ field, F.attr n field = none

namespace ReadsAsDocument

variable {F : Forest ν} {m n : ν}

/-- Such a node is below itself only. -/
theorem below_iff (hn : F.ReadsAsDocument n) : F.Below m n ↔ m = n := by
  constructor
  · intro h
    cases h with
    | refl => rfl
    | tail _ hchild => exact absurd hchild (hn.notMem_children _)
  · rintro rfl
    exact Below.refl

theorem hasAttr_eq_false (hn : F.ReadsAsDocument n) (field : Text) (accepts : Text → Bool) :
    F.hasAttr field accepts n = false := by
  rw [hasAttr, hn.attr_eq_none, Option.any_none, Bool.and_false]

theorem hasTag_eq_false (hn : F.ReadsAsDocument n) {s : Step} (hs : s.IsValid) :
    F.hasTag s.tag n = false := by
  rw [hasTag, hn.tag_eq, hs.sameText_documentTag, Bool.and_false]

/-- **All nodes are the only selection that gives the document**, and it gives it where it is
given. -/
theorem mem_select_iff (hn : F.ReadsAsDocument n) {s : Selection} (hs : (Stage.select s).IsValid)
    {ns : List ν} : n ∈ F.select s ns ↔ s = .flat ∧ n ∈ ns := by
  have hfilter {keeps : ν → Bool} {nodes : List ν} (h : keeps n = false) :
      n ∉ nodes.filter keeps := by
    rw [List.mem_filter, h]
    exact fun hmem => Bool.false_ne_true hmem.2
  cases s with
  | flat =>
    simp only [select, List.mem_flatMap, mem_subtree, hn.below_iff, exists_eq_right, true_and]
  | path step => exact iff_of_false (hfilter (hn.hasTag_eq_false hs)) (by simp)
  | attr field value =>
    cases value with
    | none => exact iff_of_false (hfilter (hn.hasAttr_eq_false _ _)) (by simp)
    | some value => exact iff_of_false (hfilter (hn.hasAttr_eq_false _ _)) (by simp)
  | identifier value caseSensitive =>
    exact iff_of_false (hfilter (hn.hasAttr_eq_false _ _)) (by simp)
  | className value caseSensitive =>
    exact iff_of_false (hfilter (hn.hasAttr_eq_false _ _)) (by simp)
  | child index =>
    refine iff_of_false ?_ (by simp)
    intro hmem
    obtain ⟨m, -, hchild⟩ := List.mem_filterMap.mp hmem
    obtain ⟨position, hposition, -⟩ := childAt_eq_some_iff.mp hchild
    exact hn.notMem_children m (List.mem_of_getElem? hposition)

variable [BEq ν] [LawfulBEq ν] [Hashable ν] {before after : Run ν} {stage : Stage} {p : Pipeline}

/-- After a stage the document is there if the stage takes all nodes, and it was there before. -/
theorem has_step_iff (hn : F.ReadsAsDocument n) (hstage : stage.IsValid)
    (h : F.step before stage = .ok after) :
    after.value.Has n ↔ stage = .select .flat ∧ before.value.Has n := by
  rcases step_cases h with ⟨s, ns, rfl, hbefore, rfl⟩ | ⟨e, ns, rfl, -, rfl⟩ | ⟨e, t, rfl, -, rfl⟩
  · rw [hbefore, Stage.select.injEq, Value.has_nodes, ← hn.mem_select_iff hstage, arrange,
      Value.has_nodes, mem_sort]
  · exact iff_of_false Value.not_has_text (by simp)
  · exact iff_of_false Value.not_has_text (by simp)

/-- **Along a run the document is there as long as all stages take all nodes.** -/
theorem has_steps_iff (hn : F.ReadsAsDocument n) (hp : ∀ stage ∈ p, stage.IsValid)
    (h : F.steps before p = .ok after) :
    after.value.Has n ↔ (∀ stage ∈ p, stage = .select .flat) ∧ before.value.Has n := by
  induction p generalizing before with
  | nil =>
    obtain rfl : before = after := Except.ok.inj h
    exact (and_iff_right (List.forall_mem_nil _)).symm
  | cons stage p ih =>
    rw [List.forall_mem_cons] at hp
    rw [steps, List.foldlM_cons, bind_eq_ok_iff] at h
    obtain ⟨between, hstage, hrest⟩ := h
    rw [ih hp.2 hrest, hn.has_step_iff hp.1 hstage, List.forall_mem_cons, ← and_assoc,
      and_comm (a := ∀ stage ∈ p, stage = .select .flat)]

end ReadsAsDocument

/-- A run starts with the context. -/
theorem has_start_iff [BEq ν] [LawfulBEq ν] [Hashable ν] {F : Forest ν} {context : List ν} {n : ν} :
    (F.start context).value.Has n ↔ n ∈ context := by
  rw [start, arrange, Value.has_nodes, mem_sort]

end Forest

/-! ## The document of a markup -/

/-- Below an element that reading gives, or below a text, there are such elements and texts. The
text of a raw element is not one that reading gives elsewhere when it is empty. -/
theorem Node.isTidy_or_isText_of_mem_children {keepWhitespace : Bool} {m n : Node}
    (hn : n.IsTidy keepWhitespace ∨ n.IsText) (hm : m ∈ n.children) :
    m.IsTidy keepWhitespace ∨ m.IsText := by
  rcases hn with hn | hn
  · cases hn with
    | text _ => contradiction
    | childless _ _ => contradiction
    | raw _ _ _ _ =>
      obtain rfl := List.mem_singleton.mp hm
      exact Or.inr trivial
    | element _ _ _ _ hchildren _ => exact Or.inl (hchildren m hm)
  · cases n with
    | text _ => contradiction
    | document _ => exact hn.elim
    | element _ _ _ => exact hn.elim

namespace Index

variable {keepWhitespace : Bool} {markup : Text} {n : Nat}

/-- The numbered nodes of a markup. -/
def ofMarkup (keepWhitespace : Bool) (markup : Text) : Index :=
  ofDocuments [Node.parse keepWhitespace markup]

/-- Below the document there are elements and texts only. -/
theorem isTidy_or_isText_node (keepWhitespace : Bool) (markup : Text) (hn : 0 < n) :
    ((ofMarkup keepWhitespace markup).node n).IsTidy keepWhitespace ∨
      ((ofMarkup keepWhitespace markup).node n).IsText := by
  obtain ⟨nodes, hparse, htidy, htree⟩ := Node.exists_areTidy_parse keepWhitespace markup
  -- From a node to its parent, which has a lower number, up to the document.
  induction n using Nat.strongRecOn with
  | _ n ih =>
    rcases Nat.lt_or_ge n (ofMarkup keepWhitespace markup).entries.size with hlt | hle
    · obtain ⟨p, hp, -⟩ := htree.exists_parent n hn (htree.size_entries ▸ hlt)
      have hchild := (htree.consistent.mem_children_iff n p).mpr hp
      have hmem : (ofMarkup keepWhitespace markup).node n ∈
          ((ofMarkup keepWhitespace markup).node p).children := by
        rw [ofMarkup, ← htree.map_node_children]
        exact List.mem_map_of_mem hchild
      rcases Nat.eq_zero_or_pos p with rfl | hpos
      · have hzero : (ofMarkup keepWhitespace markup).node 0 = .document nodes :=
          htree.node_zero.trans hparse
        rw [hzero] at hmem
        exact Or.inl (htidy.isTidy _ hmem)
      · exact Node.isTidy_or_isText_of_mem_children (ih p (lt_of_parent hp) hpos) hmem
    · rw [node, entry_of_size_le hle]
      exact Or.inr trivial

/-- **A markup has one document**, which has the first number. -/
theorem node_eq_document_iff :
    (∃ children, (ofMarkup keepWhitespace markup).node n = .document children) ↔ n = 0 := by
  constructor
  · rintro ⟨children, hnode⟩
    by_contra hn
    have hbelow := isTidy_or_isText_node keepWhitespace markup (Nat.pos_of_ne_zero hn)
    rw [hnode] at hbelow
    rcases hbelow with htidy | htext
    · cases htidy
    · exact htext
  · rintro rfl
    obtain ⟨nodes, hparse, -, htree⟩ := Node.exists_areTidy_parse keepWhitespace markup
    exact ⟨nodes, htree.node_zero.trans hparse⟩

theorem readsAsDocument_zero (keepWhitespace : Bool) (markup : Text) :
    (ofMarkup keepWhitespace markup).forest.ReadsAsDocument 0 := by
  obtain ⟨children, hnode⟩ :
      ∃ children, (ofMarkup keepWhitespace markup).node 0 = .document children :=
    node_eq_document_iff.mpr rfl
  refine ⟨fun m hchild => Nat.not_lt_zero m (lt_of_mem_children hchild), ?_, fun field => ?_⟩
  · simp only [forest, hnode]
  · simp only [forest, hnode]

/-- There is a document among the nodes of the value. -/
def HasDocument (ix : Index) (v : Value Nat) : Prop :=
  ∃ n, v.Has n ∧ ∃ children, ix.node n = .document children

theorem hasDocument_iff {v : Value Nat} :
    (ofMarkup keepWhitespace markup).HasDocument v ↔ v.Has 0 := by
  simp only [HasDocument, node_eq_document_iff, exists_eq_right]

/-! ## Queries -/

/-- **A query gives the document only if all its stages take all nodes.** A query of selections
gives nodes, on any markup, with blanks kept or not, and the document is among them exactly then. No
other stage of a query gives the document, whatever it is given, and no stage brings it back: it is
there after a stage that takes all nodes, if it was there before. So it is there after the first
stages of a run if it was in the context and all of them have taken all nodes. -/
theorem hasDocument_query_iff {text : Text} {p : Pipeline} (h : Pipeline.compile text = .ok p)
    (keepWhitespace : Bool) (markup : Text) :
    ((∃ selections : List Selection, p = selections.map .select) →
      ∃ ns, query text markup keepWhitespace = .ok (.nodes ns) ∧
        ((ofMarkup keepWhitespace markup).HasDocument (.nodes ns) ↔
          ∀ stage ∈ p, stage = .select .flat)) ∧
    (∀ stage ∈ p, ∀ before after,
      (ofMarkup keepWhitespace markup).forest.step before stage = .ok after →
        ((ofMarkup keepWhitespace markup).HasDocument after.value ↔
          stage = .select .flat ∧ (ofMarkup keepWhitespace markup).HasDocument before.value)) ∧
    ∀ context i run,
      (ofMarkup keepWhitespace markup).forest.stateAfter context p i = .ok run →
        ((ofMarkup keepWhitespace markup).HasDocument run.value ↔
          (∀ stage ∈ p.take i, stage = .select .flat) ∧ 0 ∈ context) := by
  have hvalid := (Pipeline.isValid_of_compile h).2
  have hdocument := readsAsDocument_zero keepWhitespace markup
  refine ⟨fun hp => ?_, fun stage hstage before after hstep => ?_, fun context i run hrun => ?_⟩
  · obtain ⟨ns, hns⟩ :=
      ((ofMarkup keepWhitespace markup).forest.evaluate_eq_nodes_iff p [0]).mpr hp
    obtain ⟨run, hsteps, hrun⟩ := map_eq_ok_iff.mp hns
    refine ⟨ns, ?_, ?_⟩
    · rw [query, h]
      show ((ofMarkup keepWhitespace markup).forest.evaluate p [0]).mapError _ = _
      rw [hns]
      rfl
    · rw [hasDocument_iff, ← hrun, hdocument.has_steps_iff hvalid hsteps, Forest.has_start_iff]
      exact and_iff_left (List.mem_singleton_self 0)
  · rw [hasDocument_iff, hasDocument_iff, hdocument.has_step_iff (hvalid stage hstage) hstep]
  · have hstages : ∀ stage ∈ p.take i, stage.IsValid :=
      fun stage hs => hvalid stage (List.mem_of_mem_take hs)
    rw [hasDocument_iff, hdocument.has_steps_iff hstages hrun, Forest.has_start_iff]

/-- The document is among all nodes, and not among all nodes of those with an identifier. -/
theorem hasDocument_query_iff_flat :
    (∃ ns, query "@flat()" "<p>a" false = .ok (.nodes ns) ∧
      (ofMarkup false "<p>a").HasDocument (.nodes ns)) ∧
    ∃ ns, query "@id(`a`)|@flat()" "<p>a" false = .ok (.nodes ns) ∧
      ¬ (ofMarkup false "<p>a").HasDocument (.nodes ns) := by
  have hflat : Pipeline.compile "@flat()" = .ok [.select .flat] := by decide +kernel
  have hnamed : Pipeline.compile "@id(`a`)|@flat()" =
      .ok [.select (.identifier "a" true), .select .flat] := by decide +kernel
  obtain ⟨ns, hns, hdocument⟩ := (hasDocument_query_iff hflat false "<p>a").1 ⟨[.flat], rfl⟩
  obtain ⟨ms, hms, hdocument'⟩ :=
    (hasDocument_query_iff hnamed false "<p>a").1 ⟨[.identifier "a" true, .flat], rfl⟩
  refine ⟨⟨ns, hns, hdocument.mpr (by decide)⟩, ms, hms, ?_⟩
  rw [hdocument']
  decide

end Index

end MarkupQuery
