import MarkupQuery.Proofs.Markup.Tidy

/-!
# Normalised markup

Writing what has been read normalises a markup: tags are closed, names are in lower case, values are
in double quotes and everything is escaped. A tidy tree is almost one that is read back. The only
element that is not is a raw element without children, in which reading finds an empty body; but it
is written like one with an empty text, and with that text in its place the tree is read back. So
the markup is normalised once and for all.

## Main definitions

* `Node.completed`: the tree with an empty text in every raw element that has no children

## Main results

* `Node.render_completed`: the texts that are put in are not seen in the markup
* `Node.IsTidy.isReadable_completed`: with them a tidy tree is readable
* `Node.parse_render_parse`: what is read back from a normalised markup
-/

namespace MarkupQuery

namespace Node

mutual

/-- The tree with an empty text in every raw element that has no children, and otherwise the
same. -/
def completed : Node → Node
  | document children => document (completedAll children)
  | element tag attributes children =>
    if Tag.IsRawName tag ∧ children = [] then element tag attributes [text []]
    else element tag attributes (completedAll children)
  | text value => text value

/-- Several trees with the same texts put in. -/
def completedAll : List Node → List Node
  | [] => []
  | n :: nodes => n.completed :: completedAll nodes

end

variable {keepWhitespace : Bool} {nodes : List Node} {n : Node}

theorem completedAll_eq_map (nodes : List Node) : completedAll nodes = nodes.map completed := by
  induction nodes with
  | nil => rfl
  | cons n nodes ih => rw [completedAll, ih, List.map_cons]

theorem forall_mem_completedAll {p : Node → Prop} :
    (∀ m ∈ completedAll nodes, p m) ↔ ∀ n ∈ nodes, p n.completed := by
  rw [completedAll_eq_map, List.forall_mem_map]

/-! ## Writing a completed tree -/

mutual

/-- The texts that are put in are not seen in the markup. -/
theorem renderIn_completed (raw : Bool) (n : Node) : n.completed.renderIn raw = n.renderIn raw := by
  cases n with
  | document children =>
    rw [completed, renderIn_document, renderIn_document, flatMap_renderIn_completedAll]
  | element tag attributes children =>
    rw [completed]
    split
    · next h =>
      obtain ⟨hraw, rfl⟩ := h
      -- The text is written as it is, and nothing is in it.
      rw [renderIn_element, renderIn_element, List.flatMap_singleton, renderIn_text,
        Tag.isRaw_iff.mpr hraw]
      rfl
    · rw [renderIn_element, renderIn_element, flatMap_renderIn_completedAll]
  | text value => rw [completed]

theorem flatMap_renderIn_completedAll (raw : Bool) (nodes : List Node) :
    (completedAll nodes).flatMap (renderIn raw) = nodes.flatMap (renderIn raw) := by
  cases nodes with
  | nil => rfl
  | cons n nodes =>
    rw [completedAll, List.flatMap_cons, List.flatMap_cons, renderIn_completed,
      flatMap_renderIn_completedAll]

end

theorem render_completed (n : Node) : n.completed.render = n.render :=
  renderIn_completed false n

/-! ## Reading a completed tree -/

theorem isText_completed : n.completed.IsText ↔ n.IsText := by
  cases n with
  | document children => rfl
  | element tag attributes children =>
    rw [completed]
    split <;> rfl
  | text value => rfl

theorem TextsApart.completedAll (h : TextsApart nodes) : TextsApart (completedAll nodes) := by
  rw [completedAll_eq_map, TextsApart, List.isChain_map]
  refine h.imp fun m n hmn => ?_
  rwa [isText_completed, isText_completed]

/-- **A completed tidy tree is readable.** -/
theorem IsTidy.isReadable_completed (hn : n.IsTidy keepWhitespace) : n.completed.IsReadable := by
  induction hn with
  | text hvalue => exact .text hvalue
  | @childless tag attributes hname hattributes =>
    rw [completed]
    split
    · next hraw =>
      -- An end tag is not empty.
      refine .raw hraw.1 hattributes fun t ht hpart => ?_
      obtain ⟨_, _, _, rfl, -⟩ := ht
      exact List.cons_ne_nil _ _ (List.eq_nil_of_infix_nil hpart)
    · next hraw =>
      have hraw : ¬ Tag.IsRawName tag := fun h => hraw ⟨h, rfl⟩
      by_cases hvoid : Tag.IsVoidName tag
      · exact .void hvoid hattributes
      · exact .element hname hvoid hraw hattributes nofun List.isChain_nil
  | raw htag hattributes hbody _ =>
    rw [completed, if_neg fun h => List.cons_ne_nil _ _ h.2]
    exact .raw htag hattributes hbody
  | @element tag attributes children hname hvoid hraw hattributes _ hapart ih =>
    rw [completed, if_neg fun h => hraw h.1]
    exact .element hname hvoid hraw hattributes (forall_mem_completedAll.mpr ih)
      hapart.completedAll

/-- What is written for tidy siblings is read back completed. -/
theorem AreTidy.parseAll_flatMap_renderIn (h : AreTidy keepWhitespace nodes) :
    parseAll true (nodes.flatMap (renderIn false)) = completedAll nodes := by
  rw [← flatMap_renderIn_completedAll]
  apply Node.parseAll_flatMap_renderIn _ h.textsApart.completedAll
  exact forall_mem_completedAll.mpr fun n hn => (h.isTidy n hn).isReadable_completed

/-- **Markup is normalised once and for all.** What is written for the tree of a markup is read back
as the same tree but for the empty texts, and is what is written for that tree too. -/
theorem parse_render_parse (keepWhitespace : Bool) (markup : Text) :
    parse true (parse keepWhitespace markup).render = (parse keepWhitespace markup).completed ∧
      (parse true (parse keepWhitespace markup).render).render =
        (parse keepWhitespace markup).render := by
  have hread : parse true (parse keepWhitespace markup).render =
      (parse keepWhitespace markup).completed := by
    rw [parse, parse, render_document, completed,
      (areTidy_parseAll keepWhitespace markup).parseAll_flatMap_renderIn]
  refine ⟨hread, ?_⟩
  rw [hread, render_completed]

end Node

end MarkupQuery
