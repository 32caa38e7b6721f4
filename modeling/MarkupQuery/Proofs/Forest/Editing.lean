import MarkupQuery.Forest.Evaluate
import MarkupQuery.Proofs.Text.Alphabet
import MarkupQuery.Proofs.Text.Trim

/-!
# Edits of a text

A run that has come to a text goes on with edits only. An edit takes something off the two ends of
its text and keeps what stands between, so that after any number of edits a part of the first text
is left. What each of them takes off is said here of texts alone: trimming takes off layout as far
as it goes, and a given text is taken off once if it stands at its end, and else nothing is. This
leaves no choice at any edit, and every run of edits gives what is left.

## Main definitions

* `Edit.Cuts`: what an edit may take off at the start of a text and at its end
* `Edit.CutsInTurn`: what several edits take off, one after the other

## Main results

* `Edit.exists_cuts_iff`: an edit makes the one cut that there is
* `Edit.exists_cutsInTurn_iff`: so do edits one after the other
* `Forest.steps_edits`: the part of a text that edits leave
-/

namespace MarkupQuery

namespace Edit

variable {e : Edit} {edits : List Edit} {lead kept tail : Text}

/-! ## One edit -/

/-- From the text that is made up of `lead`, `kept` and `tail`, the edit takes `lead` off the start
and `tail` off the end. -/
inductive Cuts : Edit → Text → Text → Text → Prop
  /-- Layout is taken off, and neither end of what is kept is layout. -/
  | trim {lead kept tail : Text} (h : Text.Trims CodeUnit.layout lead kept tail) :
      Cuts .trim lead kept tail
  | leading (lead kept : Text) : Cuts (.trimPrefix lead) lead kept []
  /-- The text does not begin with what would be taken off, and stays as it is. -/
  | notLeading {lead kept : Text} (h : ¬ lead <+: kept) : Cuts (.trimPrefix lead) [] kept []
  | trailing (kept tail : Text) : Cuts (.trimSuffix tail) [] kept tail
  /-- The text does not end with what would be taken off, and stays as it is. -/
  | notTrailing {kept tail : Text} (h : ¬ tail <:+ kept) : Cuts (.trimSuffix tail) [] kept []

theorem cuts_trim_iff : Edit.trim.Cuts lead kept tail ↔ (∀ c ∈ lead, c.isLayout = true) ∧
    (∀ c ∈ tail, c.isLayout = true) ∧ Text.IsTrimmed CodeUnit.isLayout kept := by
  rw [← Text.trims_iff CodeUnit.isLayout_iff]
  exact ⟨fun | .trim h => h, .trim⟩

/-- What an edit leaves of a text is cut out of it as the edit says. -/
theorem cuts_apply (e : Edit) (t : Text) :
    ∃ lead tail, t = lead ++ e.apply t ++ tail ∧ e.Cuts lead (e.apply t) tail := by
  cases e with
  | trim =>
    obtain ⟨lead, tail, hsplit, hlead, htail, hkept⟩ := Text.exists_trim_eq CodeUnit.isLayout t
    exact ⟨lead, tail, hsplit, cuts_trim_iff.mpr ⟨hlead, htail, hkept⟩⟩
  | trimPrefix lead =>
    by_cases h : lead <+: t
    · obtain ⟨rest, rfl⟩ := h
      rw [apply, Text.dropLead_append]
      exact ⟨lead, [], (List.append_nil _).symm, .leading lead rest⟩
    · rw [apply, Text.dropLead_of_not_prefix h]
      exact ⟨[], [], (List.append_nil t).symm, .notLeading h⟩
  | trimSuffix tail =>
    by_cases h : tail <:+ t
    · obtain ⟨rest, rfl⟩ := h
      rw [apply, Text.dropTail_append]
      exact ⟨[], tail, rfl, .trailing rest tail⟩
    · rw [apply, Text.dropTail_of_not_suffix h]
      exact ⟨[], [], (List.append_nil t).symm, .notTrailing h⟩

/-- An edit leaves nothing else of a text than what a cut keeps. -/
theorem Cuts.apply_eq (h : e.Cuts lead kept tail) : e.apply (lead ++ kept ++ tail) = kept := by
  cases h with
  | trim h =>
    obtain ⟨hlead, htail, hkept⟩ := cuts_trim_iff.mp (.trim h)
    exact Text.trim_append_append hlead htail hkept
  | leading => rw [List.append_nil, apply, Text.dropLead_append]
  | notLeading h => rw [List.append_nil, List.nil_append, apply, Text.dropLead_of_not_prefix h]
  | trailing => rw [List.nil_append, apply, Text.dropTail_append]
  | notTrailing h => rw [List.append_nil, List.nil_append, apply, Text.dropTail_of_not_suffix h]

/-- A text can be cut in one way only, and the edit keeps what the cut keeps. -/
theorem exists_cuts_iff (e : Edit) (t r : Text) :
    (∃ lead tail, t = lead ++ r ++ tail ∧ e.Cuts lead r tail) ↔ r = e.apply t := by
  constructor
  · rintro ⟨lead, tail, rfl, hcuts⟩
    exact hcuts.apply_eq.symm
  · rintro rfl
    exact e.cuts_apply t

/-- What trimming leaves is trimmed, so that nothing can be taken off it. -/
theorem apply_trim_apply_trim (t : Text) :
    Edit.trim.apply (Edit.trim.apply t) = Edit.trim.apply t := by
  obtain ⟨lead, tail, -, hcuts⟩ := Edit.trim.cuts_apply t
  obtain ⟨-, -, hkept⟩ := cuts_trim_iff.mp hcuts
  exact Text.trim_of_isTrimmed hkept

/-! ## Edits one after the other -/

/-- From the text that is made up of `lead`, `kept` and `tail`, the edits take `lead` off the start
and `tail` off the end, each edit from what those before it have kept. -/
inductive CutsInTurn : List Edit → Text → Text → Text → Prop
  | nil (t : Text) : CutsInTurn [] [] t []
  | cons {e : Edit} {edits : List Edit} {lead lead' kept tail' tail : Text}
      (hfirst : e.Cuts lead (lead' ++ kept ++ tail') tail)
      (hrest : CutsInTurn edits lead' kept tail') :
      CutsInTurn (e :: edits) (lead ++ lead') kept (tail' ++ tail)

/-- Two cuts one within the other. -/
theorem append_nested (lead lead' kept tail' tail : Text) :
    (lead ++ lead') ++ kept ++ (tail' ++ tail) = lead ++ (lead' ++ kept ++ tail') ++ tail := by
  simp only [List.append_assoc]

theorem exists_cutsInTurn (edits : List Edit) (t : Text) :
    ∃ lead tail, t = lead ++ edits.foldl (fun t e => e.apply t) t ++ tail ∧
      CutsInTurn edits lead (edits.foldl (fun t e => e.apply t) t) tail := by
  induction edits generalizing t with
  | nil => exact ⟨[], [], (List.append_nil t).symm, .nil t⟩
  | cons e edits ih =>
    obtain ⟨lead, tail, hsplit, hcuts⟩ := e.cuts_apply t
    obtain ⟨lead', tail', hsplit', hcuts'⟩ := ih (e.apply t)
    rw [List.foldl_cons]
    refine ⟨lead ++ lead', tail' ++ tail, ?_, .cons ?_ hcuts'⟩
    · rw [append_nested, ← hsplit', ← hsplit]
    · rwa [← hsplit']

theorem CutsInTurn.foldl_apply (h : CutsInTurn edits lead kept tail) :
    edits.foldl (fun t e => e.apply t) (lead ++ kept ++ tail) = kept := by
  induction h with
  | nil t => rw [List.nil_append, List.append_nil, List.foldl_nil]
  | cons hfirst _ ih => rw [append_nested, List.foldl_cons, hfirst.apply_eq, ih]

theorem exists_cutsInTurn_iff (edits : List Edit) (t r : Text) :
    (∃ lead tail, t = lead ++ r ++ tail ∧ CutsInTurn edits lead r tail) ↔
      r = edits.foldl (fun t e => e.apply t) t := by
  constructor
  · rintro ⟨lead, tail, rfl, hcuts⟩
    exact hcuts.foldl_apply.symm
  · rintro rfl
    exact exists_cutsInTurn edits t

end Edit

namespace Forest

variable {ν : Type} [BEq ν] [Hashable ν]

theorem step_edit (F : Forest ν) (order : List ν) (e : Edit) (t : Text) :
    F.step ⟨order, .text t⟩ (.edit e) = .ok ⟨order, .text (e.apply t)⟩ := rfl

theorem steps_map_edit (F : Forest ν) (order : List ν) (edits : List Edit) (t : Text) :
    F.steps ⟨order, .text t⟩ (edits.map .edit) =
      .ok ⟨order, .text (edits.foldl (fun t e => e.apply t) t)⟩ := by
  induction edits generalizing t with
  | nil => rfl
  | cons e edits ih =>
    rw [List.map_cons, steps, List.foldlM_cons, step_edit]
    exact ih (e.apply t)

/-- **A text is trimmed in one way, and edits leave a part of a text.** Trimming leaves the one text
that is had by taking only spaces, tabs, carriage returns and line feeds off the ends and that
neither begins nor ends with such a unit. Trimming it again changes nothing, and every part of the
first text that neither begins nor ends with such a unit is a part of it. Any edits leave the one
part of the text that is left when each of them takes off what it says, from what those before it
have left. -/
theorem steps_edits (F : Forest ν) (order : List ν) (s : Text) :
    (∃ r, F.step ⟨order, .text s⟩ (.edit .trim) = .ok ⟨order, .text r⟩ ∧
      (∀ r', (∃ lead tail, s = lead ++ r' ++ tail ∧ Edit.trim.Cuts lead r' tail) ↔ r' = r) ∧
      F.step ⟨order, .text r⟩ (.edit .trim) = .ok ⟨order, .text r⟩ ∧
      ∀ part, (∀ c ∈ part.head?, c ∉ CodeUnit.layout) →
        (∀ c ∈ part.getLast?, c ∉ CodeUnit.layout) → part <:+: s → part <:+: r) ∧
    ∀ edits : List Edit, ∃ r, F.steps ⟨order, .text s⟩ (edits.map .edit) = .ok ⟨order, .text r⟩ ∧
      ∀ r', (∃ lead tail, s = lead ++ r' ++ tail ∧ Edit.CutsInTurn edits lead r' tail) ↔
        r' = r := by
  constructor
  · refine ⟨Edit.trim.apply s, F.step_edit order .trim s, Edit.trim.exists_cuts_iff s, ?_, ?_⟩
    · rw [step_edit, Edit.apply_trim_apply_trim]
    · intro part hfirst hlast hpart
      have hkept : Text.IsTrimmed CodeUnit.isLayout part :=
        ⟨fun c hc => CodeUnit.isLayout_eq_false_iff.mpr (hfirst c hc),
          fun c hc => CodeUnit.isLayout_eq_false_iff.mpr (hlast c hc)⟩
      exact Text.isInfix_trim hkept hpart
  · intro edits
    exact ⟨_, F.steps_map_edit order edits s, Edit.exists_cutsInTurn_iff edits s⟩

end Forest

end MarkupQuery
