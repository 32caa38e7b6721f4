import Mathlib.Computability.Language
import MarkupQuery.Proofs.Pipeline.Path
import MarkupQuery.Proofs.Result

/-!
# Texts that are no path

The texts of paths are a regular language: a step is a slash or two and a tag, and a path is a step
or more. Slashes belong to the tag behind them, and two of them are never two steps, so that a text
is a path in one way only. Reading takes as much as it can and never goes back. Where it ends
nevertheless, it has come to the end of the longest part that is a path, and the reason that it
gives is about what follows there.

## Main definitions

* `Step.language`, `Path.language`: the texts of steps and of paths, as regular languages
* `Path.IsLongestPart`: the longest beginning of a text that is empty or a path
* `Path.Blames`: the reason that is given for what follows it

## Main results

* `Path.mem_language_iff`: the language is that of the texts that are written for paths
* `Path.exists_isLongestPart`: reading a text that is no path ends after the longest part that is
  one
* `Path.read_iff_language`: reading decides the language, and says what is wrong outside of it
-/

namespace MarkupQuery

open CodeUnit
open scoped Computability

/-! ## The language of paths -/

/-- The tags of steps: one tag unit or more. -/
def Step.tagLanguage : Language CodeUnit := {tag : Text | tag.IsMadeOf tagUnits}

/-- The texts of steps: one slash or two, and a tag. -/
def Step.language : Language CodeUnit := ({("/" : Text)} + {("//" : Text)}) * Step.tagLanguage

/-- The texts of paths: those of one step or more, one after the other. -/
def Path.language : Language CodeUnit := Step.language * Step.language∗

variable {t before after reason : Text}

theorem Step.mem_language_iff : t ∈ Step.language ↔ ∃ s : Step, s.IsValid ∧ s.toText = t := by
  constructor
  · rintro ⟨slashes, hslashes, tag, htag, rfl⟩
    rcases hslashes with rfl | rfl
    · exact ⟨⟨.child, tag⟩, htag, rfl⟩
    · exact ⟨⟨.descendant, tag⟩, htag, rfl⟩
  · rintro ⟨⟨axis, tag⟩, htag, rfl⟩
    have htag : tag ∈ Step.tagLanguage := htag
    cases axis with
    | child => exact Language.append_mem_mul (Or.inl rfl) htag
    | descendant => exact Language.append_mem_mul (Or.inr rfl) htag

namespace Path

variable {p q : Path}

/-- A sequence of texts of steps is the text of a path, which may be without steps. -/
theorem mem_kstar_language_iff :
    t ∈ Step.language∗ ↔ ∃ p : Path, (∀ s ∈ p, s.IsValid) ∧ toText p = t := by
  constructor
  · rintro ⟨texts, rfl, htexts⟩
    induction texts with
    | nil => exact ⟨[], nofun, rfl⟩
    | cons text texts ih =>
      rw [List.forall_mem_cons] at htexts
      obtain ⟨s, hs, rfl⟩ := Step.mem_language_iff.mp htexts.1
      obtain ⟨p, hp, htext⟩ := ih htexts.2
      exact ⟨s :: p, List.forall_mem_cons.mpr ⟨hs, hp⟩, by rw [toText_cons, htext]; rfl⟩
  · rintro ⟨p, hp, rfl⟩
    refine ⟨p.map Step.toText, List.flatMap_def, ?_⟩
    intro text htext
    obtain ⟨s, hs, rfl⟩ := List.mem_map.mp htext
    exact Step.mem_language_iff.mpr ⟨s, hp s hs, rfl⟩

/-- **The language of paths has the texts that are written for them.** -/
theorem mem_language_iff :
    t ∈ language ↔ ∃ p : Path, p ≠ [] ∧ (∀ s ∈ p, s.IsValid) ∧ toText p = t := by
  constructor
  · rintro ⟨first, hfirst, rest, hrest, rfl⟩
    obtain ⟨s, hs, rfl⟩ := Step.mem_language_iff.mp hfirst
    obtain ⟨p, hp, rfl⟩ := mem_kstar_language_iff.mp hrest
    exact ⟨s :: p, List.cons_ne_nil s p, List.forall_mem_cons.mpr ⟨hs, hp⟩, rfl⟩
  · rintro ⟨p, hne, hp, rfl⟩
    obtain ⟨s, p, rfl⟩ := List.exists_cons_of_ne_nil hne
    rw [List.forall_mem_cons] at hp
    exact Language.append_mem_mul (Step.mem_language_iff.mpr ⟨s, hp.1, rfl⟩)
      (mem_kstar_language_iff.mpr ⟨p, hp.2, rfl⟩)

/-- Being empty or a path is being written for steps, of which there may be none. -/
theorem eq_nil_or_mem_language_iff :
    t = [] ∨ t ∈ language ↔ ∃ p : Path, (∀ s ∈ p, s.IsValid) ∧ toText p = t := by
  rw [← mem_kstar_language_iff, ← Language.one_add_self_mul_kstar_eq_kstar]
  exact Iff.rfl

/-! ## Where reading ends -/

/-- The longest beginning of a text that is empty or a path. -/
structure IsLongestPart (before t : Text) : Prop where
  isPrefix : before <+: t
  eq_nil_or_mem : before = [] ∨ before ∈ language
  length_le : ∀ part, part <+: t → part = [] ∨ part ∈ language → part.length ≤ before.length

/-- The reason that is given for what follows the longest part. There is nothing behind it only when
the whole text is empty. -/
inductive Blames : Text → Text → Prop
  | empty : Blames [] "Empty path"
  | unexpected {unit : CodeUnit} (hunit : unit ≠ '/') (rest : Text) :
      Blames (unit :: rest)
        (("Unexpected \"" : Text) ++ [unit] ++ "\" in path, expected \"/\" or \"//\"")
  | emptyTag {rest : Text} (hrest : rest.head? ≠ some ('/' : CodeUnit)) :
      Blames ('/' :: rest) "Empty tag in path after \"/\""
  | emptyTagDescendant (rest : Text) :
      Blames ('/' :: '/' :: rest) "Empty tag in path after \"//\""

theorem IsLongestPart.unique {before' : Text} (h : IsLongestPart before t)
    (h' : IsLongestPart before' t) : before = before' :=
  (List.prefix_of_prefix_length_le h.isPrefix h'.isPrefix
    (h'.length_le before h.isPrefix h.eq_nil_or_mem)).eq_of_length
      (Nat.le_antisymm (h'.length_le before h.isPrefix h.eq_nil_or_mem)
        (h.length_le before' h'.isPrefix h'.eq_nil_or_mem))

theorem Blames.unique {reason' : Text} (h : Blames after reason) (h' : Blames after reason') :
    reason = reason' := by
  cases h with
  | empty => cases h'; rfl
  | unexpected hunit rest =>
    cases h' with
    | unexpected => rfl
    | emptyTag => contradiction
    | emptyTagDescendant => contradiction
  | emptyTag hrest =>
    cases h' with
    | unexpected hunit => contradiction
    | emptyTag => rfl
    | emptyTagDescendant => contradiction
  | emptyTagDescendant rest =>
    cases h' with
    | unexpected hunit => contradiction
    | emptyTag hrest => contradiction
    | emptyTagDescendant => rfl

/-- Slashes that no tag follows are blamed for their axis. -/
theorem blames_emptyTag (rest : Text) :
    Blames (slash :: rest) (Fault.emptyTag (Axis.read rest).1).reason := by
  cases rest with
  | nil => exact .emptyTag nofun
  | cons c rest =>
    rw [Axis.read]
    split
    · next hc =>
      subst hc
      exact .emptyTagDescendant rest
    · next hc => exact .emptyTag (by simpa using hc)

/-- A path at the beginning of a text that begins with a step: it is not longer than the step, or
begins with it and goes on in what follows. -/
theorem length_le_or_prefix {s : Step} (hs : s.IsValid) (ht : Text.StopsAt isTagUnit t)
    (hp : ∀ s ∈ p, s.IsValid) (h : toText p <+: s.toText ++ t) :
    (toText p).length ≤ s.toText.length ∨
      ∃ q : Path, (∀ s ∈ q, s.IsValid) ∧ toText p = s.toText ++ toText q ∧ toText q <+: t := by
  cases p with
  | nil => exact Or.inl (Nat.zero_le _)
  | cons s' q =>
    rw [List.forall_mem_cons] at hp
    obtain ⟨rest, hrest⟩ := h
    rw [toText_cons, List.append_assoc] at hrest
    obtain ⟨more, hmore⟩ := s.exists_toText_eq_cons
    have htext : slash :: (more ++ t) = s.toText ++ t := by rw [hmore, List.cons_append]
    -- Both steps are read from the same slashes, so that they have the same axis.
    have hread := hs.read_axis htext
    rw [hp.1.read_axis (htext.trans hrest.symm)] at hread
    obtain ⟨haxis, htags⟩ := Prod.mk.inj hread
    have htag := Text.takeWhile_run (Step.isValid_iff.mp hs).2 ht
    have hrun' := (Step.isValid_iff.mp hp.1).2
    rw [← htags] at htag
    cases q with
    | nil =>
      -- The tag of the one step may end within that of the other.
      left
      rw [List.takeWhile_append_of_pos hrun'] at htag
      rw [toText_cons, toText_nil, List.append_nil, Step.toText, Step.toText, haxis, ← htag]
      simp
    | cons s'' q =>
      -- The next step begins with a slash, which ends the tag.
      right
      rw [Text.takeWhile_run hrun' (stopsAt_toText_cons s'' q rest)] at htag
      refine ⟨s'' :: q, hp.2, ?_, rest, ?_⟩
      · rw [toText_cons, Step.toText, Step.toText, haxis, htag]
      · rwa [htag, List.append_right_inj] at htags

/-- Where no step begins, the longest part is empty. -/
theorem isLongestPart_nil (h : ∀ s : Step, s.IsValid → ¬ s.toText <+: t) : IsLongestPart [] t where
  isPrefix := List.nil_prefix
  eq_nil_or_mem := Or.inl rfl
  length_le part hpart hpath := by
    obtain ⟨p, hp, rfl⟩ := eq_nil_or_mem_language_iff.mp hpath
    cases p with
    | nil => exact Nat.le_refl 0
    | cons s p =>
      rw [List.forall_mem_cons] at hp
      exact absurd ((List.prefix_append s.toText (toText p)).trans hpart) (h s hp.1)

/-- A step in front of a text that does not go on with its tag makes the longest part longer. -/
theorem IsLongestPart.cons {s : Step} (hs : s.IsValid) (ht : Text.StopsAt isTagUnit t)
    (hp : ∀ s ∈ p, s.IsValid) (h : IsLongestPart (toText p) t) :
    IsLongestPart (toText (s :: p)) (s.toText ++ t) where
  isPrefix := List.prefix_append_right_inj s.toText |>.mpr h.isPrefix
  eq_nil_or_mem :=
    eq_nil_or_mem_language_iff.mpr ⟨s :: p, List.forall_mem_cons.mpr ⟨hs, hp⟩, rfl⟩
  length_le part hpart hpath := by
    obtain ⟨q, hq, rfl⟩ := eq_nil_or_mem_language_iff.mp hpath
    rw [toText_cons, List.length_append]
    rcases length_le_or_prefix hs ht hq hpart with hle | ⟨q, hq, htext, hprefix⟩
    · exact Nat.le_add_right_of_le hle
    · have hle := h.length_le _ hprefix (eq_nil_or_mem_language_iff.mpr ⟨q, hq, rfl⟩)
      rw [htext, List.length_append]
      exact Nat.add_le_add_left hle _

/-- **Reading a text ends after the longest part that is a path**, and when something follows there,
the reason is about that. -/
theorem exists_isLongestPart (t : Text) :
    ∃ p after, t = toText p ++ after ∧ (∀ s ∈ p, s.IsValid) ∧ IsLongestPart (toText p) t ∧
      (after = [] ∨ ∃ fault, steps t = .error fault ∧ Blames after fault.reason) := by
  fun_induction steps t with
  | case1 =>
    refine ⟨[], [], rfl, nofun, isLongestPart_nil fun s _ hprefix => ?_, Or.inl rfl⟩
    obtain ⟨more, hmore⟩ := s.exists_toText_eq_cons
    rw [hmore] at hprefix
    exact absurd (List.prefix_nil.mp hprefix) (List.cons_ne_nil _ _)
  | case2 rest axis tag htag =>
    -- A step would have a tag behind the slashes that are read.
    refine ⟨[], slash :: rest, rfl, nofun, isLongestPart_nil fun s hs hprefix => ?_,
      Or.inr ⟨_, rfl, blames_emptyTag rest⟩⟩
    obtain ⟨u, hu⟩ := hprefix
    obtain ⟨hne, hall⟩ := Step.isValid_iff.mp hs
    have hread := hs.read_axis hu.symm
    simp only [tag, hread, List.takeWhile_append_of_pos hall] at htag
    exact hne (List.append_eq_nil_iff.mp (List.isEmpty_iff.mp htag)).1
  | case3 rest axis tag htag ih =>
    obtain ⟨p, after, hafter, hp, hlongest, hblames⟩ := ih
    have hs : Step.IsValid ⟨axis, tag⟩ :=
      Step.isValid_iff.mpr ⟨by simpa using htag, List.all_eq_true.mp List.all_takeWhile⟩
    have htext : slash :: rest =
        Step.toText ⟨axis, tag⟩ ++ (Axis.read rest).2.dropWhile isTagUnit := by
      rw [Step.toText, List.append_assoc, List.takeWhile_append_dropWhile, Axis.toText_append_read]
    refine ⟨⟨axis, tag⟩ :: p, after, ?_, List.forall_mem_cons.mpr ⟨hs, hp⟩, ?_, ?_⟩
    · rw [htext, hafter, toText_cons, List.append_assoc]
    · rw [htext]
      exact hlongest.cons hs (Text.stopsAt_dropWhile _ _) hp
    · rcases hblames with hnil | ⟨fault, hsteps, hreason⟩
      · exact Or.inl hnil
      · refine Or.inr ⟨fault, ?_, hreason⟩
        rw [hsteps]
        rfl
  | case4 c rest hc =>
    refine ⟨[], c :: rest, rfl, nofun, isLongestPart_nil fun s _ hprefix => ?_,
      Or.inr ⟨_, rfl, .unexpected hc rest⟩⟩
    obtain ⟨more, hmore⟩ := s.exists_toText_eq_cons
    rw [hmore, List.cons_prefix_cons] at hprefix
    exact hc hprefix.1.symm

/-- A text outside of the language is refused for what follows its longest part. -/
theorem exists_fault_of_notMem (h : t ∉ language) : ∃ before after fault, t = before ++ after ∧
    IsLongestPart before t ∧ read t = .error fault ∧ Blames after fault.reason := by
  obtain ⟨p, after, ht, hp, hlongest, rfl | ⟨fault, hsteps, hblames⟩⟩ := exists_isLongestPart t
  · -- All of the text is steps, of which there can only be none.
    rw [List.append_nil] at ht
    obtain rfl : p = [] := by
      by_contra hne
      exact h (mem_language_iff.mpr ⟨p, hne, hp, ht.symm⟩)
    obtain rfl : t = [] := ht
    exact ⟨[], [], .empty, rfl, hlongest, rfl, .empty⟩
  · refine ⟨toText p, after, fault, ht, hlongest, ?_, hblames⟩
    cases t with
    | nil =>
      rw [steps] at hsteps
      contradiction
    | cons c rest => exact hsteps

/-- **Reading decides the language of paths**, and says what is wrong with any other text. A text in
the language is read as the one path that is written so. With any other, the reason is about what
follows the longest part that is empty or a path: the empty text is no path, a unit other than a
slash begins no step, and the slash or the two slashes there have no tag. -/
theorem read_iff_language (t : Text) :
    ((∃ p, read t = .ok p) ↔ t ∈ language) ∧
      (∀ p, read t = .ok p → toText p = t ∧ (∀ s ∈ p, s.IsValid) ∧
        ∀ q : Path, (∀ s ∈ q, s.IsValid) → toText q = t → q = p) ∧
      ∀ reason, (read t).mapError Fault.reason = .error reason ↔ t ∉ language ∧
        ∃ before after, t = before ++ after ∧ IsLongestPart before t ∧ Blames after reason := by
  have hok : (∃ p, read t = .ok p) ↔ t ∈ language := by
    rw [mem_language_iff]
    refine exists_congr fun p => read_eq_ok_iff.trans ?_
    rw [eq_comm, and_comm, and_assoc]
  refine ⟨hok, ?_, fun reason => ?_⟩
  · intro p hp
    obtain ⟨rfl, hne, hvalid⟩ := read_eq_ok_iff.mp hp
    refine ⟨rfl, hvalid, fun q hq htext => ?_⟩
    -- Both paths are what the steps of the text are read as.
    have hsteps := steps_eq_ok_iff.mpr ⟨rfl, hvalid⟩
    rw [steps_eq_ok_iff.mpr ⟨htext.symm, hq⟩] at hsteps
    exact Except.ok.inj hsteps
  · rw [mapError_eq_error_iff]
    constructor
    · rintro ⟨fault, hread, rfl⟩
      have hnot : t ∉ language := by
        rw [← hok, hread]
        rintro ⟨p, hp⟩
        contradiction
      obtain ⟨before, after, fault', ht, hlongest, hread', hblames⟩ := exists_fault_of_notMem hnot
      obtain rfl : fault = fault' := Except.error.inj (hread.symm.trans hread')
      exact ⟨hnot, before, after, ht, hlongest, hblames⟩
    · rintro ⟨hnot, before, after, ht, hlongest, hblames⟩
      obtain ⟨before', after', fault, ht', hlongest', hread, hblames'⟩ :=
        exists_fault_of_notMem hnot
      -- The longest part is one only, and so is what follows it.
      obtain rfl := hlongest.unique hlongest'
      obtain rfl := List.append_cancel_left (ht.symm.trans ht')
      exact ⟨fault, hread, hblames'.unique hblames⟩

end Path

end MarkupQuery
