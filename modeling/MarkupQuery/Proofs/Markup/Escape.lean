import MarkupQuery.Markup.Reference
import MarkupQuery.Proofs.Text.Alphabet

/-!
# Escaped text

Every unit is escaped by itself, and what it is escaped to is decoded by itself: a reference ends
with its own semicolon, and no other unit than an ampersand begins one. Escaped text is therefore
decoded unit by unit, whatever the text was, and there is no unit in it that could end the text or
the attribute value it stands in.

## Main definitions

* `Text.escapes`: the units that are escaped, with the names of their references
* `Text.replaceUnit`: one pass that puts a text in place of a unit
* `Text.replaceMarks`: four passes, each of which writes the references for one unit

## Main results

* `Text.escapedUnit_cases`: a unit is escaped to a reference or kept
* `Reference.read?_named`: a name between an ampersand and a semicolon is read as a reference
* `Text.decoded_escaped`: escaped text is decoded to what it was
* `Text.decoded_of_notMem`: a text without an ampersand is decoded to itself
* `Text.notMem_escaped`: no angle bracket and no double quote is left
* `Text.isBlank_escaped`: what is nothing but blanks stays so, and nothing else becomes so
* `Text.escaped_eq_replaceMarks`: escaping is four passes over the text
* `Text.escaped_is_safe`: nothing that means something to markup is left but the references that
  were written
-/

namespace MarkupQuery

/-- A semicolon closes a reference that has a unit at least. -/
theorem Reference.closed?_semicolon {read : Text} (hread : read ≠ []) (r : Reference)
    (after : Text) : closed? r read (CodeUnit.semicolon :: after) = some (r, after) := by
  rw [closed?, if_pos rfl, if_neg (by simpa using hread)]

/-- A name in front of a semicolon is read, whatever follows. -/
theorem Reference.read?_named {name : Text} (hname : name.isRunOf CodeUnit.isAlpha = true)
    (t : Text) : read? (name ++ CodeUnit.semicolon :: t) = some (.named name, t) := by
  obtain ⟨hne, halpha⟩ := Text.isRunOf_iff.mp hname
  have hstop : Text.StopsAt CodeUnit.isAlpha (CodeUnit.semicolon :: t) := by
    rw [Text.stopsAt_cons]
    decide
  obtain ⟨c, rest, rfl⟩ := List.exists_cons_of_ne_nil hne
  -- A letter is no number sign, so that the reference is one by name.
  have hhash : c ≠ CodeUnit.hash := by
    rintro rfl
    exact absurd (halpha _ List.mem_cons_self) (by decide)
  rw [List.cons_append, read?, if_neg hhash, ← List.cons_append, Text.takeWhile_run halpha hstop,
    Text.dropWhile_run halpha hstop]
  exact closed?_semicolon hne _ _

namespace Text

/-! ## Escaping a unit at a time -/

/-- The units that are escaped, each with the name of the reference that is written for it. -/
def escapes : List (Text × CodeUnit) :=
  [("amp", CodeUnit.ampersand), ("lt", CodeUnit.lessThan), ("gt", CodeUnit.greaterThan),
    ("quot", CodeUnit.quote)]

/-- A unit is escaped to a reference, or kept when it is none of the four. -/
theorem escapedUnit_cases (c : CodeUnit) :
    (∃ name, (name, c) ∈ escapes ∧ escapedUnit c = (Reference.named name).source) ∨
      c ∉ escapes.map Prod.snd ∧ escapedUnit c = [c] := by
  rw [escapedUnit]
  split
  · next hc => exact .inl ⟨"amp", by rw [hc]; decide, by decide⟩
  split
  · next hc => exact .inl ⟨"lt", by rw [hc]; decide, by decide⟩
  split
  · next hc => exact .inl ⟨"gt", by rw [hc]; decide, by decide⟩
  split
  · next hc => exact .inl ⟨"quot", by rw [hc]; decide, by decide⟩
  · next hampersand hless hgreater hquote =>
    refine .inr ⟨?_, rfl⟩
    simp only [escapes, List.map_cons, List.map_nil, List.mem_cons, List.not_mem_nil, or_false,
      not_or]
    exact ⟨hampersand, hless, hgreater, hquote⟩

/-- What is written for a unit is a reference that is read as that unit. -/
theorem value?_of_mem_escapes : ∀ p ∈ escapes,
    p.1.isRunOf CodeUnit.isAlpha = true ∧ (Reference.named p.1).value? = some [p.2] := by
  decide

/-! ## Decoding a unit at a time -/

theorem decoded_cons_of_ne {c : CodeUnit} (hc : c ≠ CodeUnit.ampersand) (t : Text) :
    decoded (c :: t) = c :: decoded t := by
  rw [decoded, if_neg hc]

/-- A text without an ampersand is decoded to itself. -/
theorem decoded_of_notMem {t : Text} (h : CodeUnit.ampersand ∉ t) : t.decoded = t := by
  induction t with
  | nil => rw [decoded]
  | cons c t ih =>
    rw [List.mem_cons, not_or] at h
    rw [decoded_cons_of_ne (Ne.symm h.1), ih h.2]

/-- A reference that is read is replaced. -/
theorem decoded_of_read? {t after : Text} {r : Reference}
    (h : Reference.read? t = some (r, after)) :
    decoded (CodeUnit.ampersand :: t) = r.replacement ++ decoded after := by
  rw [decoded, if_pos rfl]
  split
  · next r' after' h' =>
    rw [h] at h'
    obtain ⟨rfl, rfl⟩ : r = r' ∧ after = after' := by simpa using h'
    rfl
  · next h' =>
    rw [h] at h'
    contradiction

/-- A reference to a named character is decoded to the character. -/
theorem decoded_named {name : Text} {c : CodeUnit} (hname : name.isRunOf CodeUnit.isAlpha = true)
    (hvalue : (Reference.named name).value? = some [c]) (t : Text) :
    decoded (CodeUnit.ampersand :: name ++ CodeUnit.semicolon :: t) = c :: decoded t := by
  rw [List.cons_append, decoded_of_read? (Reference.read?_named hname t),
    Reference.replacement, hvalue]
  rfl

/-- What a unit is escaped to is decoded to the unit, whatever follows. -/
theorem decoded_escapedUnit_append (c : CodeUnit) (t : Text) :
    decoded (escapedUnit c ++ t) = c :: decoded t := by
  rcases escapedUnit_cases c with ⟨name, hname, hunit⟩ | ⟨hc, hunit⟩
  · obtain ⟨hrun, hvalue⟩ := value?_of_mem_escapes _ hname
    rw [hunit, Reference.source, List.append_assoc]
    exact decoded_named hrun hvalue t
  · have hampersand : c ≠ CodeUnit.ampersand := by
      rintro rfl
      exact hc (by decide)
    rw [hunit, List.singleton_append, decoded_cons_of_ne hampersand]

/-- **Escaped text is decoded to what it was.** -/
theorem decoded_escaped (s : Text) : s.escaped.decoded = s := by
  induction s with
  | nil => rw [escaped, List.flatMap_nil, decoded]
  | cons c s ih =>
    rw [escaped, List.flatMap_cons, decoded_escapedUnit_append]
    exact congrArg (c :: ·) ih

/-! ## What is left in escaped text -/

/-- A unit that is escaped is not in what any unit is escaped to. -/
theorem notMem_escapedUnit {mark : CodeUnit}
    (hmark : mark = CodeUnit.lessThan ∨ mark = CodeUnit.greaterThan ∨ mark = CodeUnit.quote)
    (c : CodeUnit) : mark ∉ escapedUnit c := by
  have hmem : mark ∈ escapes.map Prod.snd := by
    rcases hmark with rfl | rfl | rfl <;> decide
  rcases escapedUnit_cases c with ⟨name, hname, hunit⟩ | ⟨hc, hunit⟩
  · -- None of the three is in the reference that is written for any of the four.
    have hsource : ∀ p ∈ escapes, CodeUnit.lessThan ∉ (Reference.named p.1).source ∧
        CodeUnit.greaterThan ∉ (Reference.named p.1).source ∧
        CodeUnit.quote ∉ (Reference.named p.1).source := by decide
    obtain ⟨hless, hgreater, hquote⟩ := hsource _ hname
    rw [hunit]
    rcases hmark with rfl | rfl | rfl
    · exact hless
    · exact hgreater
    · exact hquote
  · rw [hunit, List.mem_singleton]
    rintro rfl
    exact hc hmem

/-- No angle bracket and no double quote is left. -/
theorem notMem_escaped {mark : CodeUnit}
    (hmark : mark = CodeUnit.lessThan ∨ mark = CodeUnit.greaterThan ∨ mark = CodeUnit.quote)
    (s : Text) : mark ∉ s.escaped := by
  rw [escaped, List.mem_flatMap]
  rintro ⟨c, -, hc⟩
  exact notMem_escapedUnit hmark c hc

theorem escaped_ne_nil {s : Text} (hs : s ≠ []) : s.escaped ≠ [] := by
  intro hnil
  apply hs
  rw [← decoded_escaped s, hnil, decoded]

/-- A unit that is escaped is no blank, and neither is the ampersand that it begins with then. -/
theorem isBlank_escapedUnit (c : CodeUnit) : isBlank (escapedUnit c) = c.isWhitespace := by
  rcases escapedUnit_cases c with ⟨name, hname, hunit⟩ | ⟨-, hunit⟩
  · have hsource : ∀ p ∈ escapes, isBlank (Reference.named p.1).source = p.2.isWhitespace := by
      decide
    rw [hunit, hsource _ hname]
  · rw [hunit, isBlank, List.all_cons, List.all_nil, Bool.and_true]

/-- **Escaping a text makes no difference to whether it is nothing but blanks.** -/
theorem isBlank_escaped (s : Text) : s.escaped.isBlank = s.isBlank := by
  induction s with
  | nil => rfl
  | cons c s ih =>
    have hunit := isBlank_escapedUnit c
    rw [isBlank] at hunit ih
    rw [isBlank, escaped, List.flatMap_cons, List.all_append, hunit]
    exact congrArg (c.isWhitespace && ·) ih

/-! ## Escaping in passes -/

/-- The text with another text in place of every `mark`, in one pass. -/
def replaceUnit (t : Text) (mark : CodeUnit) (replacement : Text) : Text :=
  t.flatMap fun c => if c = mark then replacement else [c]

/-- The text after four passes, each of which writes the references for one unit. The first one is
for the ampersand, so that none of the ampersands that the passes write is replaced again. -/
def replaceMarks (t : Text) : Text :=
  (((t.replaceUnit '&' "&amp;").replaceUnit '<' "&lt;").replaceUnit '>' "&gt;").replaceUnit '"'
    "&quot;"

/-- Escaping a unit at a time comes to the same as the four passes. -/
theorem escaped_eq_replaceMarks (s : Text) : s.escaped = s.replaceMarks := by
  have hpasses : s.replaceMarks =
      (((s.replaceUnit CodeUnit.ampersand "&amp;").replaceUnit CodeUnit.lessThan "&lt;").replaceUnit
        CodeUnit.greaterThan "&gt;").replaceUnit CodeUnit.quote "&quot;" := rfl
  simp only [hpasses, escaped, replaceUnit, List.flatMap_assoc]
  congr 1
  funext c
  rcases escapedUnit_cases c with ⟨name, hname, hunit⟩ | ⟨hc, hunit⟩
  · simp only [escapes, List.mem_cons, Prod.mk.injEq, List.not_mem_nil, or_false] at hname
    rw [hunit]
    rcases hname with ⟨rfl, rfl⟩ | ⟨rfl, rfl⟩ | ⟨rfl, rfl⟩ | ⟨rfl, rfl⟩ <;> decide
  · simp only [escapes, List.map_cons, List.map_nil, List.mem_cons, List.not_mem_nil, or_false,
      not_or] at hc
    obtain ⟨hampersand, hless, hgreater, hquote⟩ := hc
    simp only [hunit, if_neg hampersand, if_neg hless, if_neg hgreater, if_neg hquote,
      List.flatMap_singleton]

/-! ## The ampersands of escaped text -/

/-- What a unit is escaped to has an ampersand at its start only, and then it is a reference to the
unit. -/
theorem source_of_escapedUnit_eq_append {c : CodeUnit} {before after : Text}
    (h : escapedUnit c = before ++ CodeUnit.ampersand :: after) :
    before = [] ∧ ∃ name, (Reference.named name).source = CodeUnit.ampersand :: after ∧
      (Reference.named name).value? = some [c] := by
  rcases escapedUnit_cases c with ⟨name, hname, hunit⟩ | ⟨hc, hunit⟩
  · have hsource : ∀ p ∈ escapes, CodeUnit.ampersand ∉ p.1 ++ [CodeUnit.semicolon] := by decide
    rw [hunit] at h
    rcases before with _ | ⟨d, before⟩
    · exact ⟨rfl, name, h, (value?_of_mem_escapes _ hname).2⟩
    · have htail : name ++ [CodeUnit.semicolon] = before ++ CodeUnit.ampersand :: after :=
        (List.cons.inj h).2
      refine absurd ?_ (hsource _ hname)
      rw [htail]
      exact List.mem_append_right before List.mem_cons_self
  · have hmem : CodeUnit.ampersand ∈ [c] := by
      rw [← hunit, h]
      exact List.mem_append_right before List.mem_cons_self
    rw [List.mem_singleton] at hmem
    exact absurd (hmem ▸ by decide) hc

/-- Wherever an ampersand stands in escaped text, it begins the reference that a unit is escaped
to. -/
theorem exists_unit_of_escaped_eq_append {s before after : Text}
    (h : s.escaped = before ++ CodeUnit.ampersand :: after) :
    ∃ (u : Text) (c : CodeUnit) (v name : Text), s = u ++ c :: v ∧ u.escaped = before ∧
      (Reference.named name).value? = some [c] ∧
      (Reference.named name).source ++ v.escaped = CodeUnit.ampersand :: after := by
  induction s generalizing before with
  | nil => exact absurd h (by simp [escaped])
  | cons c s ih =>
    rw [escaped, List.flatMap_cons, List.append_eq_append_iff] at h
    rcases h with ⟨more, rfl, hmore⟩ | ⟨more, hunit, hmore⟩
    · -- It stands in what the other units are escaped to.
      obtain ⟨u, d, v, name, rfl, hu, hname⟩ := ih hmore
      refine ⟨c :: u, d, v, name, rfl, ?_, hname⟩
      rw [escaped, List.flatMap_cons]
      exact congrArg _ hu
    · rcases more with _ | ⟨d, more⟩
      · obtain ⟨u, d, v, name, rfl, hu, hname⟩ := @ih [] hmore.symm
        refine ⟨c :: u, d, v, name, rfl, ?_, hname⟩
        rw [escaped, List.flatMap_cons, hunit, List.append_nil]
        exact (congrArg (before ++ ·) hu).trans (List.append_nil before)
      · obtain ⟨rfl, rfl⟩ := List.cons.inj hmore
        -- It stands in what the first unit is escaped to.
        obtain ⟨rfl, name, hsource, hvalue⟩ := source_of_escapedUnit_eq_append hunit
        refine ⟨[], c, s, name, rfl, rfl, hvalue, ?_⟩
        rw [hsource, escaped]
        rfl

/-- **Escaped text is decoded to what it was, and nothing in it means something to markup but the
references that were written**: every ampersand begins one, for the unit that stood there. It is the
text of four passes, of which each writes the references for one unit. -/
theorem escaped_is_safe (s : Text) :
    s.escaped = s.replaceMarks ∧ s.escaped.decoded = s ∧
      ('<' : CodeUnit) ∉ s.escaped ∧ ('>' : CodeUnit) ∉ s.escaped ∧ ('"' : CodeUnit) ∉ s.escaped ∧
      ∀ before after : Text, s.escaped = before ++ "&" ++ after →
        ∃ (u : Text) (c : CodeUnit) (v name : Text), s = u ++ c :: v ∧ u.escaped = before ∧
          (Reference.named name).value? = some [c] ∧
          "&" ++ name ++ ";" ++ v.escaped = "&" ++ after := by
  refine ⟨escaped_eq_replaceMarks s, decoded_escaped s, notMem_escaped (.inl rfl) s,
    notMem_escaped (.inr (.inl rfl)) s, notMem_escaped (.inr (.inr rfl)) s,
    fun before after h => ?_⟩
  rw [List.append_assoc] at h
  exact exists_unit_of_escaped_eq_append h

end Text

end MarkupQuery
