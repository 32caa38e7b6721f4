import MarkupQuery.Pipeline.Error

/-!
# Tokens

A query text is cut into lexemes: punctuation, literals in backticks, operators, and bare runs of
anything else. Blanks between them are dropped. The only text that cannot be cut is one with a
backtick that no other closes.

## Main definitions

* `Lexeme`, `Lexeme.spelling`: the lexemes and how they are written
* `Lexeme.read`: the lexeme at the start of a text
* `Token`: a lexeme and the positions where it starts and stops
* `tokenize`: the tokens of a text

## Main results

* `Lexeme.spelling_append_of_read`: a lexeme and what follows it make up the text
* `Token.scan_of_read_eq_some`: the tokens of a text that begins with a lexeme
-/

namespace MarkupQuery

/-! ## Lexemes -/

/-- A lexeme of a query. -/
inductive Lexeme where
  /-- A sign and letters: the name of an operator. -/
  | operator (name : Text)
  /-- What stands between two backticks. -/
  | literal (content : Text)
  /-- A run of units up to a blank, a punctuation mark or a backtick. -/
  | bare (content : Text)
  | lparen
  | rparen
  | comma
  | pipe
  deriving DecidableEq, Repr

namespace Lexeme

/-- The content of a lexeme, which for a literal leaves the backticks out. -/
def value : Lexeme → Text
  | operator name => name
  | literal content => content
  | bare content => content
  | lparen => [CodeUnit.lparen]
  | rparen => [CodeUnit.rparen]
  | comma => [CodeUnit.comma]
  | pipe => [CodeUnit.pipe]

/-- How a lexeme is written. -/
def spelling : Lexeme → Text
  | literal content => content.enclosed
  | lexeme => lexeme.value

/-- The punctuation mark that a unit is. -/
def punctuation? (c : CodeUnit) : Option Lexeme :=
  if c = CodeUnit.lparen then some lparen
  else if c = CodeUnit.rparen then some rparen
  else if c = CodeUnit.comma then some comma
  else if c = CodeUnit.pipe then some pipe
  else none

/-- Whether a unit ends a bare run. -/
def isDelimiter (c : CodeUnit) : Bool :=
  c.isLayout || (punctuation? c).isSome || c == CodeUnit.backtick

/-- Whether an operator begins with the unit `c` when `rest` follows: a sign and a letter. -/
def beginsOperator (c : CodeUnit) (rest : Text) : Bool :=
  (c == CodeUnit.atSign || c == CodeUnit.hash) && rest.head?.any CodeUnit.isAlpha

/-- The lexeme that begins with the unit `c` and goes on into `rest`, and what follows it; none
when it is a literal without an end. -/
def read (c : CodeUnit) (rest : Text) : Option (Lexeme × Text) :=
  match punctuation? c with
  | some mark => some (mark, rest)
  | none =>
    if c = CodeUnit.backtick then
      match rest.dropWhile (· != CodeUnit.backtick) with
      | [] => none
      | _ :: after => some (literal (rest.takeWhile (· != CodeUnit.backtick)), after)
    else if beginsOperator c rest then
      some (operator (c :: rest.takeWhile CodeUnit.isAlpha), rest.dropWhile CodeUnit.isAlpha)
    else
      some (bare (c :: rest.takeWhile (!isDelimiter ·)), rest.dropWhile (!isDelimiter ·))

theorem value_of_punctuation? {c : CodeUnit} {mark : Lexeme} (h : punctuation? c = some mark) :
    mark.spelling = [c] := by
  simp only [punctuation?] at h
  repeat' split at h
  all_goals simp_all [spelling, value]
  all_goals subst h; rfl

/-- A lexeme and what follows it make up the text. -/
theorem spelling_append_of_read {c : CodeUnit} {rest after : Text} {lexeme : Lexeme}
    (h : read c rest = some (lexeme, after)) : lexeme.spelling ++ after = c :: rest := by
  simp only [read] at h
  split at h
  · next mark hmark =>
    obtain ⟨rfl, rfl⟩ : mark = lexeme ∧ rest = after := by simpa using h
    simp [value_of_punctuation? hmark]
  · split at h
    · next hc =>
      split at h
      · exact absurd h (by simp)
      · next d after' hdrop =>
        obtain ⟨rfl, rfl⟩ : literal _ = lexeme ∧ after' = after := by simpa using h
        -- The run stops at the first backtick, so the unit dropped after it is one.
        have hd : d = CodeUnit.backtick := by
          have := List.head?_dropWhile_not (· != CodeUnit.backtick) rest
          simpa [hdrop] using this
        have := List.takeWhile_append_dropWhile (p := (· != CodeUnit.backtick)) (l := rest)
        rw [hdrop, hd] at this
        simp [spelling, Text.enclosed, hc, this]
    · split at h
      · obtain ⟨rfl, rfl⟩ : operator _ = lexeme ∧ _ = after := by simpa using h
        simp [spelling, value]
      · obtain ⟨rfl, rfl⟩ : bare _ = lexeme ∧ _ = after := by simpa using h
        simp [spelling, value]

theorem spelling_ne_nil_of_read {c : CodeUnit} {rest after : Text} {lexeme : Lexeme}
    (h : read c rest = some (lexeme, after)) : lexeme.spelling ≠ [] := by
  simp only [read] at h
  split at h
  · next mark hmark =>
    obtain ⟨rfl, -⟩ : mark = lexeme ∧ rest = after := by simpa using h
    simp [value_of_punctuation? hmark]
  · split at h
    · split at h
      · exact absurd h (by simp)
      · obtain ⟨rfl, -⟩ : literal _ = lexeme ∧ _ = after := by simpa using h
        simp [spelling, Text.enclosed]
    · split at h
      · obtain ⟨rfl, -⟩ : operator _ = lexeme ∧ _ = after := by simpa using h
        simp [spelling, value]
      · obtain ⟨rfl, -⟩ : bare _ = lexeme ∧ _ = after := by simpa using h
        simp [spelling, value]

/-- Reading a lexeme uses up at least one unit. -/
theorem length_le_of_read {c : CodeUnit} {rest after : Text} {lexeme : Lexeme}
    (h : read c rest = some (lexeme, after)) : after.length ≤ rest.length := by
  have h₁ := congrArg List.length (spelling_append_of_read h)
  have h₂ := List.length_pos_iff.mpr (spelling_ne_nil_of_read h)
  simp only [List.length_append, List.length_cons] at h₁
  omega

end Lexeme

/-! ## Tokens -/

/-- A lexeme and its place in the text. -/
structure Token where
  lexeme : Lexeme
  /-- The position of its first unit. -/
  start : Nat
  /-- The position after its last unit. -/
  stop : Nat
  deriving DecidableEq, Repr

/-- A literal without an end. -/
structure OpenLiteral where
  /-- The position where its stage begins: after the last pipe before it. -/
  stage : Nat
  /-- The position of its backtick. -/
  start : Nat

/-- The tokens of a text that begins at position `start`, in a stage that begins at position
`stage`. -/
def Token.scan (stage start : Nat) : Text → Except OpenLiteral (List Token)
  | [] => .ok []
  | c :: rest =>
    if c.isLayout then Token.scan stage (start + 1) rest
    else
      match _h : Lexeme.read c rest with
      | none => .error ⟨stage, start⟩
      | some (lexeme, after) =>
        let stop := start + lexeme.spelling.length
        let stage := if lexeme = .pipe then stop else stage
        (Token.scan stage stop after).map (⟨lexeme, start, stop⟩ :: ·)
termination_by t => t.length
decreasing_by
  · simp
  · have := Lexeme.length_le_of_read ‹_›
    simp only [List.length_cons]
    omega

theorem Token.scan_layout {c : CodeUnit} (hc : c.isLayout = true) (stage start : Nat)
    (rest : Text) :
    Token.scan stage start (c :: rest) = Token.scan stage (start + 1) rest := by
  rw [Token.scan, if_pos hc]

/-- A literal without an end ends the scan. -/
theorem Token.scan_of_read_eq_none {c : CodeUnit} {rest : Text} (hc : c.isLayout = false)
    (h : Lexeme.read c rest = none) (stage start : Nat) :
    Token.scan stage start (c :: rest) = .error ⟨stage, start⟩ := by
  rw [Token.scan, if_neg (by simp [hc])]
  split
  · rfl
  · next hsome => simp [h] at hsome

/-- A lexeme is cut off, and after a pipe a stage begins. -/
theorem Token.scan_of_read_eq_some {c : CodeUnit} {rest after : Text} {lexeme : Lexeme}
    (hc : c.isLayout = false) (h : Lexeme.read c rest = some (lexeme, after)) (stage start : Nat) :
    Token.scan stage start (c :: rest) =
      (Token.scan (if lexeme = .pipe then start + lexeme.spelling.length else stage)
        (start + lexeme.spelling.length) after).map
          (⟨lexeme, start, start + lexeme.spelling.length⟩ :: ·) := by
  rw [Token.scan, if_neg (by simp [hc])]
  split
  · next hnone => simp [h] at hnone
  · next lexeme' after' hsome =>
    obtain ⟨rfl, rfl⟩ : lexeme = lexeme' ∧ after = after' := by simpa [h] using hsome
    rfl

/-- The stage that a literal without an end stands in: from where the stage begins up to the first
pipe after the backtick, without the blanks at its ends. -/
def OpenLiteral.segment (text : Text) (o : OpenLiteral) : Text :=
  (text.slice o.stage (o.start + 1) ++
    (text.drop (o.start + 1)).takeWhile (· != CodeUnit.pipe)).trim CodeUnit.isWhitespace

/-- The tokens of a text. -/
def tokenize (text : Text) : Except ParseError (List Token) :=
  (Token.scan 0 0 text).mapError fun o =>
    { cause := .unterminatedLiteral, position := o.start, segment := o.segment text }

end MarkupQuery
