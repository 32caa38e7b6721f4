import MarkupQuery.Proofs.Text.Run
import Mathlib.Data.List.Infix

/-!
# Taking off what stands at the ends of a text

To trim a text of a class of units is to cut it in three: units of the class at its start, a text
that neither begins nor ends with one, and units of the class at its end. There is only one way to
do so, also for a text that has no other units than those of the class. What is left is the largest
part of the text that neither begins nor ends with a unit of the class.

A given text, in contrast, is taken off an end once, and only where it stands there.

## Main definitions

* `Text.IsTrimmed`: a text that neither begins nor ends with a unit of a class
* `Text.Trims`: a text that is cut in three by trimming it

## Main results

* `Text.exists_trim_eq`: what trimming takes off and what it leaves
* `Text.trim_append_append`, `Text.exists_trims_iff`: only one text is left
* `Text.isInfix_trim`: parts of the text that are left
* `Text.dropLead_append`, `Text.dropTail_append`: a text that stands at an end is taken off
* `Text.dropLead_of_not_prefix`, `Text.dropTail_of_not_suffix`: one that does not leaves all as it
  is
-/

namespace MarkupQuery

namespace Text

variable {p : CodeUnit → Bool} {lead kept tail t : Text}

/-! ## Units of a class -/

theorem StopsAt.append {s : Text} (h : StopsAt p s) (hs : s ≠ []) (t : Text) :
    StopsAt p (s ++ t) := by
  cases s with
  | nil => contradiction
  | cons c s => exact stopsAt_cons.mpr (stopsAt_cons.mp h)

theorem StopsAt.of_append {s : Text} (h : StopsAt p (s ++ t)) : StopsAt p s := by
  cases s with
  | nil => exact stopsAt_nil
  | cons c s => exact stopsAt_cons.mpr (stopsAt_cons.mp h)

/-- The text is empty, or neither begins nor ends with a unit in `p`. -/
def IsTrimmed (p : CodeUnit → Bool) (t : Text) : Prop :=
  (∀ c ∈ t.head?, p c = false) ∧ ∀ c ∈ t.getLast?, p c = false

theorem IsTrimmed.stopsAt_reverse (h : IsTrimmed p t) : StopsAt p t.reverse := by
  rw [StopsAt, List.head?_reverse]
  exact h.2

theorem trim_of_isTrimmed (h : IsTrimmed p t) : t.trim p = t := by
  rw [trim, dropWhile_of_stopsAt h.1, dropWhile_of_stopsAt h.stopsAt_reverse, List.reverse_reverse]

/-- What trimming takes off at the ends are units of the class, and what it leaves is trimmed. -/
theorem exists_trim_eq (p : CodeUnit → Bool) (t : Text) :
    ∃ lead tail, t = lead ++ t.trim p ++ tail ∧
    (∀ c ∈ lead, p c = true) ∧ (∀ c ∈ tail, p c = true) ∧ IsTrimmed p (t.trim p) := by
  have hsplit := List.takeWhile_append_dropWhile (p := p) (l := t)
  have hrest := List.takeWhile_append_dropWhile (p := p) (l := (t.dropWhile p).reverse)
  rw [← List.reverse_inj, List.reverse_append, List.reverse_reverse, ← trim] at hrest
  refine ⟨t.takeWhile p, ((t.dropWhile p).reverse.takeWhile p).reverse, ?_, ?_, ?_, ?_, ?_⟩
  · rw [List.append_assoc, hrest, hsplit]
  · exact List.all_eq_true.mp List.all_takeWhile
  · intro c hc
    exact List.all_eq_true.mp List.all_takeWhile c (List.mem_reverse.mp hc)
  · -- What is left begins as the text does without its first units of the class.
    have hstop := stopsAt_dropWhile p t
    rw [← hrest] at hstop
    exact hstop.of_append
  · rw [trim, List.getLast?_reverse]
    exact stopsAt_dropWhile p _

/-- There is only one way to trim a text. -/
theorem trim_append_append (hlead : ∀ c ∈ lead, p c = true) (htail : ∀ c ∈ tail, p c = true)
    (hkept : IsTrimmed p kept) : (lead ++ kept ++ tail).trim p = kept := by
  rw [trim_append hlead htail, trim_of_isTrimmed hkept]

/-- What is kept neither begins nor ends with a blank, and there are only blanks before it and
behind it. -/
structure Trims (blanks lead kept tail : Text) : Prop where
  lead_subset : lead ⊆ blanks
  tail_subset : tail ⊆ blanks
  notMem_of_head? : ∀ c ∈ kept.head?, c ∉ blanks
  notMem_of_getLast? : ∀ c ∈ kept.getLast?, c ∉ blanks

variable {blanks : Text}

theorem trims_iff (hp : ∀ {c}, p c = true ↔ c ∈ blanks) : Trims blanks lead kept tail ↔
    (∀ c ∈ lead, p c = true) ∧ (∀ c ∈ tail, p c = true) ∧ IsTrimmed p kept := by
  simp only [IsTrimmed, ← Bool.not_eq_true, hp]
  constructor
  · rintro ⟨hlead, htail, hfirst, hlast⟩
    exact ⟨fun _ hc => hlead hc, fun _ hc => htail hc, hfirst, hlast⟩
  · rintro ⟨hlead, htail, hfirst, hlast⟩
    exact ⟨fun c hc => hlead c hc, fun c hc => htail c hc, hfirst, hlast⟩

/-- **Trimming keeps the one text that is left when blanks are taken off both ends.** -/
theorem exists_trims_iff (hp : ∀ {c}, p c = true ↔ c ∈ blanks) :
    (∃ lead tail, t = lead ++ kept ++ tail ∧ Trims blanks lead kept tail) ↔ kept = t.trim p := by
  constructor
  · rintro ⟨lead, tail, rfl, htrims⟩
    obtain ⟨hlead, htail, hkept⟩ := (trims_iff hp).mp htrims
    exact (trim_append_append hlead htail hkept).symm
  · rintro rfl
    obtain ⟨lead, tail, hsplit, htrims⟩ := exists_trim_eq p t
    exact ⟨lead, tail, hsplit, (trims_iff hp).mpr htrims⟩

/-- **What is left is the largest trimmed part of a text.** -/
theorem isInfix_trim {part : Text} (hpart : IsTrimmed p part) (h : part <:+: t) :
    part <:+: t.trim p := by
  obtain ⟨before, after, rfl⟩ := h
  by_cases hnil : part = []
  · rw [hnil]
    exact List.nil_infix
  have hstart : StopsAt p (part ++ after) := StopsAt.append hpart.1 hnil after
  have hend : StopsAt p (part.reverse ++ (before.dropWhile p).reverse) :=
    hpart.stopsAt_reverse.append (mt List.reverse_eq_nil_iff.mp hnil) _
  refine ⟨before.dropWhile p, (after.reverse.dropWhile p).reverse, ?_⟩
  rw [trim, List.append_assoc before, dropWhile_append_of_stop fun _ => hstart,
    List.reverse_append, List.reverse_append, List.append_assoc after.reverse,
    dropWhile_append_of_stop fun _ => hend]
  simp

/-! ## A given text -/

theorem dropLead_append (lead t : Text) : dropLead lead (lead ++ t) = t := by
  rw [dropLead, List.isPrefixOf?_eq_some_iff_append_eq.mpr rfl, Option.getD_some]

theorem dropLead_of_not_prefix (h : ¬ lead <+: t) : dropLead lead t = t := by
  cases hrest : lead.isPrefixOf? t with
  | none => rw [dropLead, hrest, Option.getD_none]
  | some rest => exact absurd ⟨rest, append_of_isPrefixOf? hrest⟩ h

/-- The end of a text is the start of the text read backwards. -/
theorem dropTail_eq_reverse (tail t : Text) :
    dropTail tail t = (dropLead tail.reverse t.reverse).reverse := by
  rw [dropTail, dropLead]
  cases tail.reverse.isPrefixOf? t.reverse with
  | none => simp
  | some rest => simp

theorem dropTail_append (t tail : Text) : dropTail tail (t ++ tail) = t := by
  rw [dropTail_eq_reverse, List.reverse_append, dropLead_append, List.reverse_reverse]

theorem dropTail_of_not_suffix (h : ¬ tail <:+ t) : dropTail tail t = t := by
  rw [← List.reverse_prefix] at h
  rw [dropTail_eq_reverse, dropLead_of_not_prefix h, List.reverse_reverse]

end Text

end MarkupQuery
