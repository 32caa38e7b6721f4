import Mathlib.Data.List.Forall2
import MarkupQuery.Proofs.Text.Alphabet
import MarkupQuery.Proofs.Text.Unit

/-!
# Words

A text is cut at its separators, and words are what is left between them. A word can also be told
without cutting: it stands in the text, holds no separator, and has an end of the text or a
separator on either side. Case is a matter of single letters, and no letter is the other case of a
separator, so that words are the same whether case is taken out of the text before or out of the
words after.

## Main definitions

* `Text.IsWordOf`: a text that stands in another between separators or ends
* `CodeUnit.SameLetter`, `Text.Recases`: units and texts that differ in the case of letters only

## Main results

* `Text.induction_on_words`: induction over the words of a text
* `Text.mem_words_iff`: the parts between separators are what stands between them
* `Text.lower_eq_lower_iff`: lower case is what texts have in common that differ in case only
* `Text.words_lower`: words in lower case
-/

namespace MarkupQuery

open CodeUnit

namespace Text

variable {p : CodeUnit → Bool} {word t : Text}

/-! ## Cutting -/

/-- A text holds no separator, or it is such a text, a separator and a text. -/
@[elab_as_elim]
theorem induction_on_words {motive : Text → Prop} (p : CodeUnit → Bool)
    (last : ∀ word, (∀ c ∈ word, p c = false) → motive word)
    (cut : ∀ word separator rest, (∀ c ∈ word, p c = false) → p separator = true → motive rest →
      motive (word ++ separator :: rest)) (t : Text) : motive t := by
  have hword : ∀ c ∈ t.takeWhile (! p ·), p c = false := by
    intro c hc
    simpa using List.all_eq_true.mp List.all_takeWhile c hc
  have hsplit := List.takeWhile_append_dropWhile (p := (! p ·)) (l := t)
  cases hrest : t.dropWhile (! p ·) with
  | nil =>
    rw [hrest, List.append_nil] at hsplit
    rw [← hsplit]
    exact last _ hword
  | cons separator rest =>
    have hstop := stopsAt_dropWhile (! p ·) t
    rw [hrest, stopsAt_cons, Bool.not_eq_false'] at hstop
    rw [hrest] at hsplit
    rw [← hsplit]
    exact cut _ separator rest hword hstop (induction_on_words p last cut rest)
termination_by t.length
decreasing_by
  have hlength := length_dropWhile_le (! p ·) t
  rw [hrest, List.length_cons] at hlength
  omega

/-- Words are cut as lists are split. -/
theorem words_eq_splitOnP (p : CodeUnit → Bool) (t : Text) : words p t = t.splitOnP p := by
  induction t with
  | nil => rfl
  | cons c rest ih =>
    rw [words, List.splitOnP_cons_eq_if_modifyHead, ih]
    split
    · rfl
    · cases hsplit : rest.splitOnP p with
      | nil => exact absurd hsplit (List.splitOnP_ne_nil p rest)
      | cons word more => rfl

theorem words_of_forall (h : ∀ c ∈ word, p c = false) : words p word = [word] := by
  rw [words_eq_splitOnP, List.splitOnP_eq_singleton h]

/-- A text is cut at a separator. -/
theorem words_append_cons {separator : CodeUnit} (h : p separator = true) (before after : Text) :
    words p (before ++ separator :: after) = words p before ++ words p after := by
  simp only [words_eq_splitOnP, List.splitOnP_append_cons before after h]

/-! ## Standing between separators -/

/-- The word holds no separator and stands in the text. Before it the text begins, or there is a
separator; and behind it there is a separator, or the text ends. -/
def IsWordOf (word separators t : Text) : Prop :=
  (∀ c ∈ word, c ∉ separators) ∧ ∃ before after, t = before ++ word ++ after ∧
    (∀ c ∈ before.getLast?, c ∈ separators) ∧ ∀ c ∈ after.head?, c ∈ separators

theorem isWordOf_of_mem_words {separators : Text} (hp : ∀ {c}, p c = true ↔ c ∈ separators)
    (h : word ∈ words p t) : word.IsWordOf separators t := by
  have hnot {part : Text} (hpart : ∀ c ∈ part, p c = false) : ∀ c ∈ part, c ∉ separators := by
    intro c hc hmem
    exact Bool.false_ne_true ((hpart c hc).symm.trans (hp.mpr hmem))
  induction t using induction_on_words p with
  | last only honly =>
    rw [words_of_forall honly, List.mem_singleton] at h
    subst h
    exact ⟨hnot honly, [], [], (List.append_nil _).symm, nofun, nofun⟩
  | cut first separator rest hfirst hseparator ih =>
    rw [words_append_cons hseparator, words_of_forall hfirst, List.singleton_append,
      List.mem_cons] at h
    rcases h with rfl | h
    · refine ⟨hnot hfirst, [], separator :: rest, rfl, nofun, ?_⟩
      rintro c ⟨⟩
      exact hp.mp hseparator
    · -- What stands in the rest has the separator before it when it stands at the start.
      obtain ⟨hword, before, after, rfl, hbefore, hafter⟩ := ih h
      refine ⟨hword, first ++ separator :: before, after, by simp, ?_, hafter⟩
      cases before with
      | nil => simpa using hp.mp hseparator
      | cons d before => simpa [List.getLast?_append, List.getLast?_cons_cons] using hbefore

theorem mem_words_append (hword : ∀ c ∈ word, p c = false) {after : Text}
    (hafter : ∀ c ∈ after.head?, p c = true) : word ∈ words p (word ++ after) := by
  cases after with
  | nil =>
    rw [List.append_nil, words_of_forall hword]
    exact List.mem_singleton_self word
  | cons separator after =>
    rw [words_append_cons (hafter separator rfl), words_of_forall hword]
    exact List.mem_cons_self

/-- **The parts between separators are what stands between them.** -/
theorem mem_words_iff {separators : Text} (hp : ∀ {c}, p c = true ↔ c ∈ separators) :
    word ∈ words p t ↔ word.IsWordOf separators t := by
  constructor
  · exact isWordOf_of_mem_words hp
  · rintro ⟨hword, before, after, rfl, hbefore, hafter⟩
    have hword : ∀ c ∈ word, p c = false := fun c hc =>
      Bool.eq_false_iff.mpr fun hc' => hword c hc (hp.mp hc')
    have hafter : ∀ c ∈ after.head?, p c = true := fun c hc => hp.mpr (hafter c hc)
    rcases List.eq_nil_or_concat before with rfl | ⟨front, separator, rfl⟩
    · exact mem_words_append hword hafter
    · have hseparator : p separator = true := hp.mpr (hbefore separator (by simp))
      rw [List.concat_eq_append, List.append_assoc, List.append_assoc, List.singleton_append,
        words_append_cons hseparator]
      exact List.mem_append_right _ (mem_words_append hword hafter)

end Text

/-! ## Case -/

/-- Two units are the same, or one is a letter from `A` to `Z` and the other its lower case. -/
def CodeUnit.SameLetter (c d : CodeUnit) : Prop :=
  c = d ∨ (c, d) ∈ upperLetters.zip lowerLetters ∨ (d, c) ∈ upperLetters.zip lowerLetters

namespace CodeUnit

variable {c d : CodeUnit}

/-- The lower case of a letter stands at the same place of the alphabet. -/
theorem mem_zip_letters_iff :
    (c, d) ∈ upperLetters.zip lowerLetters ↔ c.isUpper = true ∧ d = c + 0x20 := by
  have hzip : upperLetters.zip lowerLetters = upperLetters.map fun c => (c, c + 0x20) := by decide
  rw [hzip, List.mem_map, isUpper_iff]
  constructor
  · rintro ⟨e, he, hpair⟩
    obtain ⟨rfl, rfl⟩ := Prod.mk.inj hpair
    exact ⟨he, rfl⟩
  · rintro ⟨hc, rfl⟩
    exact ⟨c, hc, rfl⟩

theorem lower_of_isUpper (h : c.isUpper = true) : c.lower = c + 0x20 := if_pos h

theorem lower_lower (c : CodeUnit) : c.lower.lower = c.lower := by
  rw [lower, isUpper_lower, if_neg Bool.false_ne_true]

theorem lower_eq_lower_iff : c.lower = d.lower ↔ c.SameLetter d := by
  rw [SameLetter, mem_zip_letters_iff, mem_zip_letters_iff]
  constructor
  · intro h
    rw [lower, lower] at h
    split at h <;> split at h
    · exact Or.inl ((UInt16.add_left_inj _).mp h)
    · next hc _ => exact Or.inr (Or.inl ⟨hc, h.symm⟩)
    · next hd => exact Or.inr (Or.inr ⟨hd, h⟩)
    · exact Or.inl h
  · rintro (rfl | ⟨hc, rfl⟩ | ⟨hd, rfl⟩)
    · rfl
    · rw [← lower_of_isUpper hc, lower_lower]
    · rw [← lower_of_isUpper hd, lower_lower]

theorem isWhitespace_of_isSeparator (h : c.isSeparator = true) : c.isWhitespace = true := by
  rw [isSeparator, Bool.or_eq_true, beq_iff_eq] at h
  rcases h with h | rfl
  · exact isWhitespace_of_isLayout h
  · decide

theorem isSeparator_of_isAlpha (h : c.isAlpha = true) : c.isSeparator = false := by
  rw [Bool.eq_false_iff]
  intro hseparator
  have hblank := isWhitespace_of_isSeparator hseparator
  rw [isWhitespace_of_isNameUnit (isNameUnit_of_isAlpha h)] at hblank
  contradiction

/-- Letters are no separators, in either case. -/
theorem isSeparator_lower (c : CodeUnit) : c.lower.isSeparator = c.isSeparator := by
  cases hc : c.isUpper with
  | false => rw [lower, hc, if_neg Bool.false_ne_true]
  | true =>
    have halpha : c.isAlpha = true := by rw [isAlpha, hc, Bool.true_or]
    rw [isSeparator_of_isAlpha halpha, isSeparator_of_isAlpha (isAlpha_lower halpha)]

end CodeUnit

namespace Text

variable {p : CodeUnit → Bool} {s t : Text}

/-- The texts differ in the case of letters from `A` to `Z` only. -/
def Recases (s t : Text) : Prop := List.Forall₂ SameLetter s t

/-- **Lower case is what texts have in common that differ in case only.** -/
theorem lower_eq_lower_iff : s.lower = t.lower ↔ s.Recases t := by
  rw [lower, lower, ← List.forall₂_eq_eq_eq, List.forall₂_map_left_iff, List.forall₂_map_right_iff,
    Recases]
  exact iff_of_eq (by simp only [CodeUnit.lower_eq_lower_iff])

theorem recases_lower (t : Text) : t.Recases t.lower :=
  lower_eq_lower_iff.mp (lower_of_isLowerCase (isLowerCase_lower t)).symm

theorem Recases.lower_eq (h : s.Recases t) (ht : t.IsLowerCase) : s.lower = t :=
  (lower_eq_lower_iff.mpr h).trans (lower_of_isLowerCase ht)

/-- A text without a separator has none in lower case. -/
theorem forall_mem_lower (hp : ∀ c : CodeUnit, p c.lower = p c) {word : Text} :
    (∀ c ∈ word.lower, p c = false) ↔ ∀ c ∈ word, p c = false := by
  rw [lower, List.forall_mem_map]
  simp only [hp]

/-- **Words are cut alike in lower case**, if lower case makes no separators. -/
theorem words_lower (hp : ∀ c : CodeUnit, p c.lower = p c) (t : Text) :
    words p t.lower = (words p t).map lower := by
  induction t using induction_on_words p with
  | last word hword =>
    rw [words_of_forall hword, words_of_forall ((forall_mem_lower hp).mpr hword),
      List.map_singleton]
  | cut word separator rest hword hseparator ih =>
    have hlower : (word ++ separator :: rest).lower =
        word.lower ++ separator.lower :: rest.lower := List.map_append
    rw [hlower, words_append_cons ((hp separator).trans hseparator), words_append_cons hseparator,
      words_of_forall hword, words_of_forall ((forall_mem_lower hp).mpr hword), ih, List.map_append,
      List.map_singleton]

end Text

end MarkupQuery
