import MarkupQuery.Pipeline.Format
import MarkupQuery.Proofs.Pipeline.Grammar
import MarkupQuery.Proofs.Pipeline.Munch

/-!
# Lexemes that are read back

A text is cut into the same lexemes wherever it stands, for a position is only noted down and
never decided upon. Most lexemes are read back from their spelling in front of any text. A bare
run must not go on into what follows, and neither must the name of an operator.

## Main definitions

* `Text.Lexes`: the lexemes into which a text is cut, wherever it stands
* `Lexeme.IsPlain`: the literals and bare runs that are read back from their spelling

## Main results

* `Text.lexes_standsBefore`: a lexeme is read back in front of what it can stand before
* `Text.lexes_spelling`: an argument is read back in front of a delimiter
* `Text.lexes_applied`: an operator with its arguments is read back in front of any text
-/

namespace MarkupQuery

namespace Text

/-- The lexemes into which a text is cut, whatever its position and that of its stage. -/
def Lexes (t : Text) (lexemes : List Lexeme) : Prop :=
  ∀ stage start, ∃ tokens,
    Token.scan stage start t = .ok tokens ∧ tokens.map Token.lexeme = lexemes

variable {t : Text} {lexemes : List Lexeme}

theorem lexes_nil : Lexes [] [] := by
  intro stage start
  exact ⟨[], by rw [Token.scan], rfl⟩

/-- Layout makes no lexeme. -/
theorem lexes_layout {c : CodeUnit} (hc : c.isLayout = true) (h : Lexes t lexemes) :
    Lexes (c :: t) lexemes := by
  intro stage start
  rw [Token.scan_layout hc]
  exact h stage (start + 1)

/-- A lexeme at the start of a text is cut off. -/
theorem lexes_read {c : CodeUnit} {rest : Text} {l : Lexeme} (hc : c.isLayout = false)
    (hread : Lexeme.read c rest = some (l, t)) (h : Lexes t lexemes) :
    Lexes (c :: rest) (l :: lexemes) := by
  intro stage start
  obtain ⟨tokens, hscan, hmap⟩ :=
    h (if l = .pipe then start + l.spelling.length else stage) (start + l.spelling.length)
  refine ⟨⟨l, start, start + l.spelling.length⟩ :: tokens, ?_, by rw [List.map_cons, hmap]⟩
  rw [Token.scan_of_read_eq_some hc hread, hscan]
  rfl

/-! ## Single lexemes -/

/-- A lexeme is read back in front of what it can stand before. -/
theorem lexes_standsBefore {l : Lexeme} (hl : l.StandsBefore t) (h : Lexes t lexemes) :
    Lexes (l.spelling ++ t) (l :: lexemes) := by
  obtain ⟨c, rest, hspelling⟩ := List.exists_cons_of_ne_nil hl.spelling_ne_nil
  have happend : l.spelling ++ t = c :: (rest ++ t) := by rw [hspelling, List.cons_append]
  rw [happend]
  exact lexes_read (hl.isLayout_eq_false hspelling) (Lexeme.read_of_standsBefore hl happend) h

/-- A punctuation mark is read in front of any text. -/
theorem lexes_punctuation {c : CodeUnit} {mark : Lexeme}
    (hmark : Lexeme.punctuation? c = some mark) (h : Lexes t lexemes) :
    Lexes (c :: t) (mark :: lexemes) := by
  have := lexes_standsBefore (Lexeme.standsBefore_of_punctuation? hmark) h
  rwa [Lexeme.value_of_punctuation? hmark] at this

/-- The name of an operator, which is a sign and letters, is read up to where the letters stop. -/
theorem lexes_operator (operator : Operator) (hstop : StopsAt CodeUnit.isAlpha t)
    (h : Lexes t lexemes) : Lexes (operator.name ++ t) (.operator operator.name :: lexemes) := by
  obtain ⟨c, letters, hname, hsign, hne, hletters⟩ : ∃ c letters, operator.name = c :: letters ∧
      (c = CodeUnit.atSign ∨ c = CodeUnit.hash) ∧ letters ≠ [] ∧
      letters ⊆ CodeUnit.letters := by
    cases operator <;> exact ⟨_, _, rfl, by decide, by decide, by decide⟩
  rw [hname]
  have hstop := Lexeme.stopsAt_isAlpha_iff.mp hstop
  exact lexes_standsBefore (.operator hsign hne (fun _ => @hletters _) hstop) h

end Text

/-! ## Operators with arguments -/

/-- The arguments that are read back from their spelling: literals without a backtick, and bare
runs without a delimiter that begin with no sign. -/
inductive Lexeme.IsPlain : Lexeme → Prop
  | literal {content : Text} (h : CodeUnit.backtick ∉ content) : IsPlain (.literal content)
  | bare {content : Text} (hne : content ≠ [])
      (hplain : ∀ c ∈ content, isDelimiter c = false)
      (hsign : ∀ c ∈ content.head?, c ≠ CodeUnit.atSign ∧ c ≠ CodeUnit.hash) :
      IsPlain (.bare content)

namespace Text

variable {t : Text} {lexemes : List Lexeme}

/-- An argument is read back from its spelling in front of a delimiter. -/
theorem lexes_spelling {l : Lexeme} (hl : l.IsPlain) (hstop : StopsAt (!Lexeme.isDelimiter ·) t)
    (h : Lexes t lexemes) : Lexes (l.spelling ++ t) (l :: lexemes) := by
  refine lexes_standsBefore ?_ h
  cases hl with
  | literal hcontent => exact .literal hcontent
  | bare hne hplain hsign =>
    refine .bare hne (fun c hc => Lexeme.isDelimiter_eq_false_iff.mp (hplain c hc)) ?_
      (Lexeme.stopsAt_delimiter_iff.mp hstop)
    rintro sign letter rest rfl hsign'
    obtain ⟨hat, hhash⟩ := hsign sign rfl
    rcases hsign' with rfl | rfl <;> contradiction

/-- Arguments with a comma and a space between any two are read back in front of a closing
parenthesis. -/
theorem lexes_arguments {arguments : List Lexeme} (hall : ∀ l ∈ arguments, l.IsPlain)
    (h : Lexes t lexemes) :
    Lexes (List.intercalate ", " (arguments.map Lexeme.spelling) ++ CodeUnit.rparen :: t)
      (arguments.intersperse .comma ++ .rparen :: lexemes) := by
  have hclose : Lexes (CodeUnit.rparen :: t) (.rparen :: lexemes) := lexes_punctuation (by decide) h
  induction arguments with
  | nil => simpa using hclose
  | cons l arguments ih =>
    have hl := hall l List.mem_cons_self
    cases arguments with
    | nil => simpa using lexes_spelling hl (by simp; decide) hclose
    | cons m arguments =>
      have hrest := ih fun l' hl' => hall l' (List.mem_cons_of_mem l hl')
      have hcomma : Lexes (CodeUnit.comma :: CodeUnit.space :: _) (.comma :: _) :=
        lexes_punctuation (by decide) (lexes_layout (by decide) hrest)
      have htext : (", " : Text) = [CodeUnit.comma, CodeUnit.space] := by decide
      simpa [htext, List.append_assoc] using lexes_spelling hl (by simp; decide) hcomma

/-- An operator with its arguments is read back in front of any text. -/
theorem lexes_applied (operator : Operator) {arguments : List Lexeme}
    (hall : ∀ l ∈ arguments, l.IsPlain) (h : Lexes t lexemes) :
    Lexes (operator.applied (arguments.map Lexeme.spelling) ++ t)
      (Operator.lexemes operator.name arguments ++ lexemes) := by
  have hopen : ("(" : Text) = [CodeUnit.lparen] := by decide
  have hclose : (")" : Text) = [CodeUnit.rparen] := by decide
  have hinner := lexes_punctuation (by decide : Lexeme.punctuation? CodeUnit.lparen = some .lparen)
    (lexes_arguments hall h)
  simpa [Operator.applied, Operator.lexemes, hopen, hclose, List.append_assoc] using
    lexes_operator operator (by simp; decide) hinner

end Text

end MarkupQuery
