import MarkupQuery.Proofs.Markup.Escape

/-!
# Decoding in parts

A reference is one run of letters, digits, hashes and semicolons after its ampersand. No other unit
can stand within one, not even an ampersand, so that a text may be cut in front of any such unit and
decoded in parts: what looks like the beginning of a reference in the first part is not continued
in the second.

## Main definitions

* `CodeUnit.isReferenceUnit`: the units of references after the ampersand

## Main results

* `Reference.read?_append_cons`: whether a reference is read depends on the text up to the next unit
  of another kind
* `Text.decoded_append_cons`: a text is decoded in parts
-/

namespace MarkupQuery

open CodeUnit

/-- The units of references after the ampersand: letters, digits, the hash and the semicolon. -/
def CodeUnit.isReferenceUnit (c : CodeUnit) : Bool :=
  c.isAlpha || c.isDigit || c == hash || c == semicolon

namespace CodeUnit

variable {c : CodeUnit}

theorem isReferenceUnit_eq_false_iff :
    c.isReferenceUnit = false ↔
      c.isAlpha = false ∧ c.isDigit = false ∧ c ≠ hash ∧ c ≠ semicolon := by
  simp [isReferenceUnit, and_assoc]

/-- The digits above nine are letters. -/
theorem isHexDigit_eq_false (halpha : c.isAlpha = false) (hdigit : c.isDigit = false) :
    c.isHexDigit = false := by
  simp [isAlpha, isUpper, isLower, isDigit, isHexDigit, UInt16.le_iff_toNat_le] at *
  omega

/-- What makes a number hexadecimal is a letter. -/
theorem isHexLetter_eq_false (halpha : c.isAlpha = false) :
    Reference.isHexLetter c = false := by
  cases h : Reference.isHexLetter c with
  | false => rfl
  | true =>
    rw [Reference.isHexLetter, Bool.or_eq_true, beq_iff_eq, beq_iff_eq] at h
    rcases h with rfl | rfl <;> exact absurd halpha (by decide)

end CodeUnit

namespace Reference

variable {p : CodeUnit → Bool} {c : CodeUnit}

/-- A run that a reference is made of is closed by a semicolon in the first part or not at all. -/
theorem closed?_run_append_cons (hp : p c = false) (hc : c ≠ semicolon) (f : Text → Reference)
    (s t : Text) :
    closed? (f ((s ++ c :: t).takeWhile p)) ((s ++ c :: t).takeWhile p)
        ((s ++ c :: t).dropWhile p) =
      (closed? (f (s.takeWhile p)) (s.takeWhile p) (s.dropWhile p)).map
        fun (r, after) => (r, after ++ c :: t) := by
  have hstop : s.dropWhile p = [] → Text.StopsAt p (c :: t) := fun _ => Text.stopsAt_cons.mpr hp
  rw [Text.takeWhile_append_of_stop hstop, Text.dropWhile_append_of_stop hstop]
  -- What decides is the unit after the run: the first of the second part, or one of the first.
  cases s.dropWhile p with
  | nil => exact if_neg hc
  | cons d after =>
    rw [List.cons_append, closed?, closed?]
    split
    · split <;> rfl
    · rfl

/-- The same holds of a reference by number whose hash is read. -/
theorem numeric?_append_cons (hc : c.isReferenceUnit = false) (s t : Text) :
    numeric? (s ++ c :: t) = (numeric? s).map fun (r, after) => (r, after ++ c :: t) := by
  obtain ⟨halpha, hdigit, -, hsemicolon⟩ := isReferenceUnit_eq_false_iff.mp hc
  cases s with
  | nil =>
    refine Eq.trans ?_ (closed?_run_append_cons hdigit hsemicolon decimal [] t)
    rw [List.nil_append, numeric?, isHexLetter_eq_false halpha, if_neg Bool.false_ne_true]
  | cons d s =>
    rw [List.cons_append, numeric?, numeric?]
    split
    · have hhex := isHexDigit_eq_false halpha hdigit
      exact closed?_run_append_cons hhex hsemicolon (hexadecimal d) s t
    · exact closed?_run_append_cons hdigit hsemicolon decimal (d :: s) t

/-- **Whether a reference is read depends on the text up to the next unit of another kind**: what
follows from there on is left as it is. -/
theorem read?_append_cons (hc : c.isReferenceUnit = false) (s t : Text) :
    read? (s ++ c :: t) = (read? s).map fun (r, after) => (r, after ++ c :: t) := by
  obtain ⟨halpha, -, hhash, hsemicolon⟩ := isReferenceUnit_eq_false_iff.mp hc
  cases s with
  | nil =>
    refine Eq.trans ?_ (closed?_run_append_cons halpha hsemicolon named [] t)
    rw [List.nil_append, read?, if_neg hhash]
  | cons d s =>
    rw [List.cons_append, read?, read?]
    split
    · exact numeric?_append_cons hc s t
    · exact closed?_run_append_cons halpha hsemicolon named (d :: s) t

end Reference

namespace Text

/-- An ampersand that begins no reference stays. -/
theorem decoded_of_read?_eq_none {t : Text} (h : Reference.read? t = none) :
    decoded (ampersand :: t) = ampersand :: decoded t := by
  rw [decoded, if_pos rfl]
  split
  · next h' =>
    rw [h] at h'
    contradiction
  · rfl

/-- **A text is decoded in parts**: it may be cut in front of any unit that stands in no reference
after the ampersand. -/
theorem decoded_append_cons {c : CodeUnit} (hc : c.isReferenceUnit = false) (s t : Text) :
    decoded (s ++ c :: t) = decoded s ++ decoded (c :: t) := by
  -- The second part is passed along as the first is decoded, and no reference reaches into it.
  fun_induction decoded s with
  | case1 => rfl
  | case2 rest r after hread ih =>
    have hread' : Reference.read? (rest ++ c :: t) = some (r, after ++ c :: t) := by
      rw [Reference.read?_append_cons hc, hread, Option.map_some]
    rw [List.cons_append, decoded_of_read? hread', ih, List.append_assoc]
  | case3 rest hread ih =>
    have hread' : Reference.read? (rest ++ c :: t) = none := by
      rw [Reference.read?_append_cons hc, hread, Option.map_none]
    rw [List.cons_append, decoded_of_read?_eq_none hread', ih, List.cons_append]
  | case4 d rest hd ih =>
    rw [List.cons_append, decoded_cons_of_ne hd, ih, List.cons_append]

end Text

end MarkupQuery
