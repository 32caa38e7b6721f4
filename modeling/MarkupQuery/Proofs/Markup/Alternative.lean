import Mathlib.Computability.Language
import MarkupQuery.Proofs.Markup.Content
import MarkupQuery.Proofs.Markup.Scanning

/-!
# Tokens by their pattern

What a markup is cut into is told by a pattern of four alternatives, which are tried one after the
other: a comment up to the first end of one, a tag, a text up to the next bracket, and a bracket
alone. A tag is told by its pieces, which are single units and texts in quotes. The pattern says
nothing of how a token is looked for, and a token may be one in one way only.

## Main definitions

* `Alternative`, `Alternative.Takes`: an alternative of a pattern, and what it takes of a text
* `Alternative.Choice`: what the first alternative takes that takes anything
* `Tag.pieceLanguage`: the pieces of a tag
* `Event.pattern`: the pattern of tokens

## Main results

* `Tag.mem_kstar_pieceLanguage`: the inside of a tag is made of pieces
* `Event.choice_pattern`: the pattern takes the token of the event that is read
-/

namespace MarkupQuery

open CodeUnit
open scoped Computability

/-! ## Patterns -/

/-- An alternative of a pattern. -/
structure Alternative where
  /-- The texts that it matches. -/
  language : Language CodeUnit
  /-- Whether it takes as much as it can, or else as little. -/
  greedy : Bool

namespace Alternative

variable {a : Alternative} {as : List Alternative} {t token other : Text}

/-- Of the beginnings of a text that the alternative matches, the token is the longest, or else the
shortest. -/
structure Takes (a : Alternative) (t token : Text) : Prop where
  isPrefix : token <+: t
  mem_language : token ∈ a.language
  length_le : ∀ other, other <+: t → other ∈ a.language →
    if a.greedy then other.length ≤ token.length else token.length ≤ other.length

/-- The token is what the first alternative takes that takes anything. -/
inductive Choice : List Alternative → Text → Text → Prop
  | first {a : Alternative} {as : List Alternative} {t token : Text} (h : a.Takes t token) :
      Choice (a :: as) t token
  | next {a : Alternative} {as : List Alternative} {t token : Text}
      (hnone : ∀ other, ¬ a.Takes t other) (h : Choice as t token) : Choice (a :: as) t token

/-- An alternative takes one token only. -/
theorem Takes.unique (h : a.Takes t token) (h' : a.Takes t other) : token = other := by
  have hle := h.length_le other h'.isPrefix h'.mem_language
  have hle' := h'.length_le token h.isPrefix h.mem_language
  have hlength : token.length = other.length := by
    split at hle
    · next hgreedy =>
      rw [if_pos hgreedy] at hle'
      exact Nat.le_antisymm hle' hle
    · next hlazy =>
      rw [if_neg hlazy] at hle'
      exact Nat.le_antisymm hle hle'
  exact (List.prefix_of_prefix_length_le h.isPrefix h'.isPrefix hlength.le).eq_of_length hlength

/-- So does a choice. -/
theorem Choice.unique (h : Choice as t token) (h' : Choice as t other) : token = other := by
  induction h with
  | first h =>
    cases h' with
    | first h' => exact h.unique h'
    | next hnone _ => exact absurd h (hnone _)
  | next hnone _ ih =>
    cases h' with
    | first h' => exact absurd h' (hnone _)
    | next _ h' => exact ih h'

/-- What a choice takes is a beginning of the text, and one of the alternatives matches it. -/
theorem Choice.exists_mem (h : Choice as t token) :
    token <+: t ∧ ∃ a ∈ as, token ∈ a.language := by
  induction h with
  | first h => exact ⟨h.isPrefix, _, List.mem_cons_self, h.mem_language⟩
  | next _ _ ih =>
    obtain ⟨hbegins, a, ha, hmem⟩ := ih
    exact ⟨hbegins, a, List.mem_cons_of_mem _ ha, hmem⟩

end Alternative

/-! ## The pieces of a tag -/

namespace Tag

/-- A unit that is no angle bracket and no quote. -/
def plainLanguage : Language CodeUnit :=
  {t : Text | ∃ c, t = [c] ∧ c ∉ ("<>\"'" : Text)}

/-- A text without the mark in it. -/
def unmarkedLanguage (mark : CodeUnit) : Language CodeUnit := {t : Text | mark ∉ t}

/-- A text without the mark in it, between two of it. -/
def quotedLanguage (mark : CodeUnit) : Language CodeUnit :=
  {[mark]} * unmarkedLanguage mark * {[mark]}

/-- The pieces that the inside of a tag is made of. -/
def pieceLanguage : Language CodeUnit :=
  plainLanguage + quotedLanguage '"' + quotedLanguage '\''

variable {s t inside after : Text} {mark : CodeUnit}

theorem singleton_mem_plainLanguage_iff {c : CodeUnit} :
    [c] ∈ plainLanguage ↔ c ≠ lessThan ∧ c ≠ greaterThan ∧ c ≠ quote ∧ c ≠ apostrophe := by
  have hmarks : ("<>\"'" : Text) = [lessThan, greaterThan, quote, apostrophe] := by decide
  have hmem : [c] ∈ plainLanguage ↔ c ∉ ("<>\"'" : Text) :=
    ⟨fun ⟨_, heq, h⟩ => (List.cons.inj heq).1 ▸ h, fun h => ⟨c, rfl, h⟩⟩
  simp [hmem, hmarks]

theorem passes_of_mem_quotedLanguage (hmark : mark = quote ∨ mark = apostrophe)
    (h : s ∈ quotedLanguage mark) : Passes s := by
  obtain ⟨_, ⟨_, rfl, value, hvalue, rfl⟩, _, rfl, rfl⟩ := h
  exact passes_quoted hmark hvalue

theorem passes_of_mem_pieceLanguage (h : s ∈ pieceLanguage) : Passes s := by
  rcases h with (⟨c, rfl, h⟩ | h) | h
  · obtain ⟨hless, hgreater, hquote⟩ := singleton_mem_plainLanguage_iff.mp ⟨c, rfl, h⟩
    exact passes_unit hgreater hless (not_or.mpr hquote)
  · exact passes_of_mem_quotedLanguage (Or.inl rfl) h
  · exact passes_of_mem_quotedLanguage (Or.inr rfl) h

theorem ne_nil_of_mem_pieceLanguage (h : s ∈ pieceLanguage) : s ≠ [] := by
  rcases h with (⟨c, rfl, -⟩ | ⟨_, ⟨_, rfl, _, _, rfl⟩, _, rfl, rfl⟩) |
    ⟨_, ⟨_, rfl, _, _, rfl⟩, _, rfl, rfl⟩
  all_goals exact List.cons_ne_nil _ _

/-- The search for the end of a tag goes through pieces. -/
theorem passes_of_mem_kstar (h : s ∈ pieceLanguage∗) : Passes s := by
  obtain ⟨pieces, rfl, hpieces⟩ := h
  rw [← List.flatMap_id]
  exact passes_flatMap fun piece hpiece => passes_of_mem_pieceLanguage (hpieces piece hpiece)

theorem append_mem_kstar {piece : Text} (hpiece : piece ∈ pieceLanguage)
    (h : s ∈ pieceLanguage∗) : piece ++ s ∈ pieceLanguage∗ := by
  obtain ⟨pieces, rfl, hpieces⟩ := h
  exact ⟨piece :: pieces, rfl, List.forall_mem_cons.mpr ⟨hpiece, hpieces⟩⟩

theorem mem_quotedLanguage {value : Text} (h : mark ∉ value) :
    mark :: value ++ [mark] ∈ quotedLanguage mark :=
  Language.append_mem_mul (Language.append_mem_mul (Set.mem_singleton _) h) (Set.mem_singleton _)

/-- What the search has gone through is made of pieces. If the search begins within quotes, the rest
of the quoted text comes before them. -/
theorem mem_kstar_of_upToEnd? (t : Text) {after : Text} :
    (∀ inside, upToEnd? none t = some (inside, after) → inside ∈ pieceLanguage∗) ∧
      ∀ mark inside, upToEnd? (some mark) t = some (inside, after) →
        ∃ value more, inside = value ++ mark :: more ∧ mark ∉ value ∧ more ∈ pieceLanguage∗ := by
  induction t with
  | nil => exact ⟨nofun, nofun⟩
  | cons c rest ih =>
    obtain ⟨ihOutside, ihWithin⟩ := ih
    constructor
    · intro inside h
      rw [upToEnd?] at h
      split at h
      · obtain rfl := (Prod.mk.inj (Option.some.inj h)).1
        exact Language.nil_mem_kstar _
      · next hgreater =>
        split at h
        · contradiction
        · next hless =>
          obtain ⟨⟨inside', after'⟩, hrest, heq⟩ := Option.map_eq_some_iff.mp h
          obtain ⟨rfl, rfl⟩ := Prod.mk.inj heq
          split at hrest
          · -- A quote begins a piece, which goes on to the next quote of its kind.
            next hquote =>
            obtain ⟨value, more, rfl, hvalue, hmore⟩ := ihWithin c inside' hrest
            have hpiece : c :: value ++ [c] ∈ pieceLanguage := by
              rcases hquote with rfl | rfl
              · exact Or.inl (Or.inr (mem_quotedLanguage hvalue))
              · exact Or.inr (mem_quotedLanguage hvalue)
            have hpieces := append_mem_kstar hpiece hmore
            rwa [List.append_assoc] at hpieces
          · next hquote =>
            rw [not_or] at hquote
            have hpiece : [c] ∈ pieceLanguage :=
              Or.inl (Or.inl (singleton_mem_plainLanguage_iff.mpr ⟨hless, hgreater, hquote⟩))
            exact append_mem_kstar hpiece (ihOutside inside' hrest)
    · intro mark inside h
      obtain ⟨⟨inside', after'⟩, hrest, heq⟩ := Option.map_eq_some_iff.mp h
      obtain ⟨rfl, rfl⟩ := Prod.mk.inj heq
      split at hrest
      · next hmark =>
        exact ⟨[], inside', by rw [hmark]; rfl, List.not_mem_nil, ihOutside inside' hrest⟩
      · next hmark =>
        obtain ⟨value, more, rfl, hvalue, hmore⟩ := ihWithin mark inside' hrest
        have hnotMem := List.not_mem_cons_of_ne_of_not_mem (Ne.symm hmark) hvalue
        exact ⟨c :: value, more, rfl, hnotMem, hmore⟩

/-- **The inside of a tag is made of pieces**, of one at least, and what is made of pieces is the
inside of a tag if a closing bracket follows. -/
theorem inside?_eq_some_iff : inside? t = some (inside, after) ↔
    inside ≠ [] ∧ inside ∈ pieceLanguage∗ ∧ t = inside ++ greaterThan :: after := by
  constructor
  · intro h
    have hsplit := eq_append_of_inside? h
    obtain ⟨hsearch, hne⟩ := Option.filter_eq_some_iff.mp h
    exact ⟨by simpa using hne, (mem_kstar_of_upToEnd? t).1 inside hsearch, hsplit⟩
  · rintro ⟨hne, hpieces, rfl⟩
    exact inside?_of_passes (passes_of_mem_kstar hpieces) hne after

end Tag

/-- A text is a beginning of what it stands before. -/
theorem Text.isPrefixOf?_append (needle t : Text) : needle.isPrefixOf? (needle ++ t) = some t := by
  induction needle with
  | nil => rfl
  | cons c needle ih =>
    rw [List.cons_append, isPrefixOf?_cons, if_pos (beq_self_eq_true c), ih]

/-! ## The pattern of tokens -/

namespace Alternative

/-- A comment, up to the first end of one. -/
def comment : Alternative where
  language := {("<!--" : Text)} * ⊤ * {("-->" : Text)}
  greedy := false

/-- A tag, with a piece or more between its brackets. -/
def tag : Alternative where
  language := {("<" : Text)} * (Tag.pieceLanguage * Tag.pieceLanguage∗) * {(">" : Text)}
  greedy := true

/-- A text up to the next bracket. -/
def run : Alternative where
  language := {t : Text | t ≠ [] ∧ ('<' : CodeUnit) ∉ t}
  greedy := true

/-- A bracket alone. -/
def bracket : Alternative where
  language := {("<" : Text)}
  greedy := false

variable {rest token other inner inside after : Text} {c : CodeUnit}

/-! ### Comments -/

/-- A comment that is no longer than another is read. -/
theorem exists_comment?_of_mem (hmem : other ∈ comment.language)
    (hbegins : other <+: lessThan :: rest) :
    ∃ inner after, Event.comment? rest = some (inner, after) ∧
      (lessThan :: inner).length ≤ other.length := by
  obtain ⟨_, ⟨_, rfl, body, -, rfl⟩, _, rfl, rfl⟩ := hmem
  obtain ⟨more, hmore⟩ := hbegins
  have hrest : ("!--" : Text) ++ (body ++ (("-->" : Text) ++ more)) = rest := by
    rw [List.append_assoc, List.append_assoc] at hmore
    exact (List.cons.inj hmore).2
  obtain ⟨before, after, hsearch, hle⟩ :=
    Text.exists_search body (Text.isPrefixOf?_append "-->" more)
  -- The end that is found first is that of the other comment, or stands before it.
  refine ⟨"!--" ++ before ++ "-->", after, ?_, ?_⟩
  · rw [← hrest, Event.comment?, Text.isPrefixOf?_append]
    show (Text.breakOn "-->" (body ++ (("-->" : Text) ++ more)) >>= _) = _
    rw [Text.breakOn, hsearch]
    rfl
  · have hlength : ("<!--" : Text).length = ("!--" : Text).length + 1 := rfl
    simp only [List.length_append, List.length_cons, hlength]
    omega

theorem takes_comment (h : Event.comment? rest = some (inner, after)) :
    comment.Takes (lessThan :: rest) (lessThan :: inner) where
  isPrefix := ⟨after, congrArg (lessThan :: ·) (Event.append_of_comment? h)⟩
  mem_language := by
    simp only [Event.comment?, Option.bind_eq_bind, Option.bind_eq_some_iff] at h
    obtain ⟨body, -, ⟨inner', after'⟩, -, heq⟩ := h
    obtain ⟨rfl, -⟩ := Prod.mk.inj (Option.some.inj heq)
    have hbody : inner' ∈ (⊤ : Language CodeUnit) := Set.mem_univ inner'
    exact Language.append_mem_mul
      (Language.append_mem_mul (Set.mem_singleton ("<!--" : Text)) hbody) (Set.mem_singleton _)
  length_le other hbegins hmem := by
    obtain ⟨inner', after', h', hle⟩ := exists_comment?_of_mem hmem hbegins
    obtain ⟨rfl, -⟩ := Prod.mk.inj (Option.some.inj (h.symm.trans h'))
    exact hle

theorem not_takes_comment (h : Event.comment? rest = none) (other : Text) :
    ¬ comment.Takes (lessThan :: rest) other := by
  intro htakes
  obtain ⟨inner, after, hread, -⟩ := exists_comment?_of_mem htakes.mem_language htakes.isPrefix
  rw [h] at hread
  contradiction

/-! ### Tags -/

theorem mem_mul_kstar_pieceLanguage_iff :
    inside ∈ Tag.pieceLanguage * Tag.pieceLanguage∗ ↔
      inside ≠ [] ∧ inside ∈ Tag.pieceLanguage∗ := by
  constructor
  · rintro ⟨piece, hpiece, rest, hrest, rfl⟩
    exact ⟨List.append_ne_nil_of_left_ne_nil (Tag.ne_nil_of_mem_pieceLanguage hpiece) rest,
      Tag.append_mem_kstar hpiece hrest⟩
  · rintro ⟨hne, pieces, rfl, hpieces⟩
    cases pieces with
    | nil => exact absurd rfl hne
    | cons piece pieces =>
      rw [List.forall_mem_cons] at hpieces
      exact Language.append_mem_mul hpieces.1 ⟨pieces, rfl, hpieces.2⟩

/-- What the pattern of tags matches is a tag that is read. -/
theorem exists_inside?_of_mem (hmem : other ∈ tag.language) (hbegins : other <+: lessThan :: rest) :
    ∃ inside after, Tag.inside? rest = some (inside, after) ∧
      other = lessThan :: inside ++ [greaterThan] := by
  obtain ⟨_, ⟨_, rfl, inside, hinside, rfl⟩, _, rfl, rfl⟩ := hmem
  obtain ⟨more, hmore⟩ := hbegins
  obtain ⟨hne, hpieces⟩ := mem_mul_kstar_pieceLanguage_iff.mp hinside
  have hrest : rest = inside ++ greaterThan :: more := by
    rw [List.append_assoc, List.append_assoc] at hmore
    exact (List.cons.inj hmore).2.symm
  exact ⟨inside, more, Tag.inside?_eq_some_iff.mpr ⟨hne, hpieces, hrest⟩, rfl⟩

theorem takes_tag (h : Tag.inside? rest = some (inside, after)) :
    tag.Takes (lessThan :: rest) (lessThan :: inside ++ [greaterThan]) := by
  obtain ⟨hne, hpieces, rfl⟩ := Tag.inside?_eq_some_iff.mp h
  refine ⟨⟨after, by simp⟩, ?_, ?_⟩
  · have hinside := mem_mul_kstar_pieceLanguage_iff.mpr ⟨hne, hpieces⟩
    exact Language.append_mem_mul (Language.append_mem_mul (Set.mem_singleton [lessThan]) hinside)
      (Set.mem_singleton _)
  · -- No other tag begins here, longer or shorter.
    intro other hbegins hmem
    obtain ⟨inside', after', h', rfl⟩ := exists_inside?_of_mem hmem hbegins
    obtain ⟨rfl, -⟩ := Prod.mk.inj (Option.some.inj (h.symm.trans h'))
    exact Nat.le_refl _

theorem not_takes_tag (h : Tag.inside? rest = none) (other : Text) :
    ¬ tag.Takes (lessThan :: rest) other := by
  intro htakes
  obtain ⟨inside, after, hread, -⟩ := exists_inside?_of_mem htakes.mem_language htakes.isPrefix
  rw [h] at hread
  contradiction

/-! ### Texts -/

theorem takes_run (hc : c ≠ lessThan) :
    run.Takes (c :: rest) (c :: rest.takeWhile (· != lessThan)) := by
  have htake : (c :: rest).takeWhile (· != lessThan) = c :: rest.takeWhile (· != lessThan) :=
    List.takeWhile_cons_of_pos (bne_iff_ne.mpr hc)
  rw [← htake]
  refine ⟨List.takeWhile_prefix _, ?_, ?_⟩
  · refine ⟨?_, fun hmem => ?_⟩
    · rw [htake]
      exact List.cons_ne_nil _ _
    · have hrun : ∀ d ∈ (c :: rest).takeWhile (· != lessThan), (d != lessThan) = true :=
        List.all_eq_true.mp List.all_takeWhile
      exact bne_iff_ne.mp (hrun _ hmem) rfl
  · rintro other ⟨after, hafter⟩ hmem
    have hrun : ∀ d ∈ other, (d != lessThan) = true := Text.bne_of_notMem hmem.2
    rw [← hafter, List.takeWhile_append_of_pos hrun, List.length_append]
    exact Nat.le_add_right _ _

theorem takes_bracket : bracket.Takes (lessThan :: rest) [lessThan] where
  isPrefix := ⟨rest, rfl⟩
  mem_language := Set.mem_singleton _
  length_le other _ hmem := by
    obtain rfl : other = [lessThan] := hmem
    exact Nat.le_refl _

/-- What does not begin with a bracket is neither a comment nor a tag. -/
theorem not_takes_of_ne (hc : c ≠ lessThan) (rest : Text) :
    (∀ other, ¬ comment.Takes (c :: rest) other) ∧ ∀ other, ¬ tag.Takes (c :: rest) other := by
  constructor
  · intro other h
    obtain ⟨_, ⟨_, rfl, body, -, rfl⟩, _, rfl, rfl⟩ := h.mem_language
    obtain ⟨more, hmore⟩ := h.isPrefix
    exact hc (List.cons.inj hmore).1.symm
  · intro other h
    obtain ⟨_, ⟨_, rfl, inside, -, rfl⟩, _, rfl, rfl⟩ := h.mem_language
    obtain ⟨more, hmore⟩ := h.isPrefix
    exact hc (List.cons.inj hmore).1.symm

theorem not_takes_run (other : Text) : ¬ run.Takes (lessThan :: rest) other := by
  intro h
  obtain ⟨hne, hnotMem⟩ := h.mem_language
  obtain ⟨d, more, rfl⟩ := List.exists_cons_of_ne_nil hne
  obtain ⟨after, hafter⟩ := h.isPrefix
  obtain rfl : d = lessThan := (List.cons.inj hafter).1
  exact hnotMem List.mem_cons_self

end Alternative

namespace Event

/-- The pattern of tokens: comments first, and brackets that open nothing last. -/
def pattern : List Alternative := [.comment, .tag, .run, .bracket]

/-- No token is empty. -/
theorem ne_nil_of_choice_pattern {t token : Text} (h : Alternative.Choice pattern t token) :
    token ≠ [] := by
  obtain ⟨-, a, ha, hmem⟩ := h.exists_mem
  simp only [pattern, List.mem_cons, List.not_mem_nil, or_false] at ha
  rcases ha with rfl | rfl | rfl | rfl
  · obtain ⟨_, ⟨_, rfl, _, _, rfl⟩, _, rfl, rfl⟩ := hmem
    exact List.cons_ne_nil _ _
  · obtain ⟨_, ⟨_, rfl, _, _, rfl⟩, _, rfl, rfl⟩ := hmem
    exact List.cons_ne_nil _ _
  · exact hmem.1
  · obtain rfl : token = [lessThan] := hmem
    exact List.cons_ne_nil _ _

/-- **What a tag is read as**: something that is passed over, an end tag, a start tag with what
belongs to it, or a text. The four are told by what comes after the bracket. -/
theorem ofTag_cases (inside after : Text) :
    (∃ c rest, inside = c :: rest ∧ (c = bang ∨ c = question) ∧
        ofTag inside after = (ignored (lessThan :: inside ++ [greaterThan]), after)) ∨
      (∃ rest, inside = slash :: rest ∧ ofTag inside after =
        (endTag (lessThan :: inside ++ [greaterThan]) (EndTag.name? rest), after)) ∨
      skips (lessThan :: inside ++ [greaterThan]) = false ∧
        ((∃ tag, StartTag.read? inside = some tag ∧
            ofTag inside after = ofStartTag (lessThan :: inside ++ [greaterThan]) tag after) ∨
          StartTag.read? inside = none ∧
            ofTag inside after = (text (lessThan :: inside ++ [greaterThan]), after)) := by
  cases inside with
  | nil => exact Or.inr (Or.inr ⟨rfl, Or.inr ⟨rfl, rfl⟩⟩)
  | cons c rest =>
    by_cases hc : c = bang ∨ c = question
    · exact Or.inl ⟨c, rest, rfl, hc, if_pos hc⟩
    by_cases hslash : c = slash
    · subst hslash
      exact Or.inr (Or.inl ⟨rest, rfl, rfl⟩)
    have hskips : skips (lessThan :: (c :: rest) ++ [greaterThan]) = false := by
      rw [not_or] at hc
      simp [skips, hslash, hc.1, hc.2]
    refine Or.inr (Or.inr ⟨hskips, ?_⟩)
    rw [ofTag, if_neg hc, if_neg hslash]
    cases StartTag.read? (c :: rest) with
    | some tag => exact Or.inl ⟨tag, rfl, rfl⟩
    | none => exact Or.inr ⟨rfl, rfl⟩

theorem token_ofTag (inside after : Text) :
    (ofTag inside after).1.token = lessThan :: inside ++ [greaterThan] := by
  rcases ofTag_cases inside after with
    ⟨_, _, _, _, h⟩ | ⟨_, _, h⟩ | ⟨-, ⟨tag, -, h⟩ | ⟨-, h⟩⟩
  · rw [h, token]
  · rw [h, token]
  · rw [h, ofStartTag]
    split <;> rfl
  · rw [h, token]

/-- **The pattern takes the token of the event that is read.** -/
theorem choice_pattern (c : CodeUnit) (rest : Text) :
    Alternative.Choice pattern (c :: rest) (read c rest).1.token := by
  rw [read]
  split
  · next hc =>
    subst hc
    split
    · next inner after hcomment => exact .first (Alternative.takes_comment hcomment)
    · next hcomment =>
      refine .next (Alternative.not_takes_comment hcomment) ?_
      split
      · next inside after hinside =>
        rw [token_ofTag]
        exact .first (Alternative.takes_tag hinside)
      · next hinside =>
        refine .next (Alternative.not_takes_tag hinside) (.next Alternative.not_takes_run ?_)
        exact .first Alternative.takes_bracket
  · next hc =>
    obtain ⟨hcomment, htag⟩ := Alternative.not_takes_of_ne hc rest
    exact .next hcomment (.next htag (.first (Alternative.takes_run hc)))

end Event

end MarkupQuery
