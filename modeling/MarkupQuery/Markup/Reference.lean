import MarkupQuery.Number.Decimal
import MarkupQuery.Text.Utf16

/-!
# Character references

A character may be written in markup as a reference: a name, or its code point in decimal or
hexadecimal, between an ampersand and a semicolon. Decoding replaces every reference that is known
by its character, in one pass; all other text, references to nothing included, stays as it is.
Escaping writes references for the four characters that mean something to markup.

## Main definitions

* `Reference`, `Reference.source`: references and how they are written
* `Reference.value?`: the character that a reference stands for
* `Text.decoded`: the text with its references replaced
* `Text.escaped`: the text with references in place of `&`, `<`, `>` and `"`
-/

namespace MarkupQuery

/-! ## References -/

/-- A reference to a character. -/
inductive Reference where
  /-- A code point in decimal. -/
  | decimal (digits : Text)
  /-- A code point in hexadecimal, after the letter `x` in either case. -/
  | hexadecimal (letter : CodeUnit) (digits : Text)
  | named (name : Text)
  deriving DecidableEq, Repr

namespace Reference

/-- What stands between the ampersand and the semicolon. -/
def content : Reference → Text
  | decimal digits => CodeUnit.hash :: digits
  | hexadecimal letter digits => CodeUnit.hash :: letter :: digits
  | named name => name

/-- How a reference is written. -/
def source (r : Reference) : Text :=
  CodeUnit.ampersand :: r.content ++ [CodeUnit.semicolon]

/-- The characters that have a name. -/
def names : List (Text × CodeUnit) :=
  [("amp", CodeUnit.ampersand), ("lt", CodeUnit.lessThan), ("gt", CodeUnit.greaterThan),
    ("quot", CodeUnit.quote), ("apos", CodeUnit.apostrophe), ("nbsp", CodeUnit.noBreakSpace)]

/-- The code units of a code point, if there is one with that number. -/
def character? (n : Nat) : Option Text :=
  if n ≤ 0x10FFFF then some (Text.ofCodePoint n) else none

/-- The character that a reference stands for, if it is known. -/
def value? : Reference → Option Text
  | decimal digits => character? (Decimal.value 10 digits)
  | hexadecimal _ digits => character? (Decimal.value 16 digits)
  | named name => (names.find? (·.1 == name)).map ([·.2])

/-- The character that a reference stands for, and the reference itself when it is not known. -/
def replacement (r : Reference) : Text := r.value?.getD r.source

/-! ## Reading -/

/-- A reference whose digits or letters are read: there is one at least, and a semicolon
follows. -/
def closed? (r : Reference) (read : Text) : Text → Option (Reference × Text)
  | [] => none
  | c :: after =>
    if c = CodeUnit.semicolon then
      if read.isEmpty then none else some (r, after)
    else none

/-- Whether a unit is the letter `x` in either case. -/
def isHexLetter (c : CodeUnit) : Bool := c == 0x78 || c == 0x58

/-- The reference whose number sign is read, and what follows it. -/
def numeric? : Text → Option (Reference × Text)
  | [] => none
  | c :: rest =>
    if isHexLetter c then
      let digits := rest.takeWhile CodeUnit.isHexDigit
      closed? (hexadecimal c digits) digits (rest.dropWhile CodeUnit.isHexDigit)
    else
      let digits := (c :: rest).takeWhile CodeUnit.isDigit
      closed? (decimal digits) digits ((c :: rest).dropWhile CodeUnit.isDigit)

/-- The reference whose ampersand is read, and what follows it. -/
def read? : Text → Option (Reference × Text)
  | [] => none
  | c :: rest =>
    if c = CodeUnit.hash then numeric? rest
    else
      let name := (c :: rest).takeWhile CodeUnit.isAlpha
      closed? (named name) name ((c :: rest).dropWhile CodeUnit.isAlpha)

theorem eq_of_closed? {r s : Reference} {read t after : Text}
    (h : closed? r read t = some (s, after)) :
    s = r ∧ t = CodeUnit.semicolon :: after ∧ read ≠ [] := by
  cases t with
  | nil => simp [closed?] at h
  | cons c t =>
    rw [closed?] at h
    split at h
    · next hc =>
      split at h
      · exact absurd h (by simp)
      · next hread =>
        obtain ⟨rfl, rfl⟩ : r = s ∧ t = after := by simpa using h
        exact ⟨rfl, by rw [hc], by simpa using hread⟩
    · exact absurd h (by simp)

/-- A reference that is read, and what follows it, make up the text. -/
theorem source_append_of_read? {t after : Text} {r : Reference} (h : read? t = some (r, after)) :
    CodeUnit.ampersand :: t = r.source ++ after := by
  cases t with
  | nil => simp [read?] at h
  | cons c rest =>
    rw [read?] at h
    split at h
    · next hc =>
      cases rest with
      | nil => simp [numeric?] at h
      | cons d rest =>
        rw [numeric?] at h
        split at h
        · obtain ⟨rfl, hafter, -⟩ := eq_of_closed? h
          have := List.takeWhile_append_dropWhile (p := CodeUnit.isHexDigit) (l := rest)
          rw [hafter] at this
          simp [source, content, hc, this]
        · obtain ⟨rfl, hafter, -⟩ := eq_of_closed? h
          have := List.takeWhile_append_dropWhile (p := CodeUnit.isDigit) (l := d :: rest)
          rw [hafter] at this
          simp only [source, content, hc, List.cons_append, List.append_assoc, List.nil_append,
            List.cons.injEq, true_and]
          exact this.symm
    · obtain ⟨rfl, hafter, -⟩ := eq_of_closed? h
      have := List.takeWhile_append_dropWhile (p := CodeUnit.isAlpha) (l := c :: rest)
      rw [hafter] at this
      simp only [source, content, List.cons_append, List.append_assoc, List.nil_append,
        List.cons.injEq, true_and]
      exact this.symm

theorem length_lt_of_read? {t after : Text} {r : Reference} (h : read? t = some (r, after)) :
    after.length < t.length := by
  have := congrArg List.length (source_append_of_read? h)
  simp only [source, List.length_cons, List.length_append] at this
  omega

end Reference

/-! ## Decoding and escaping -/

namespace Text

/-- The text with every reference replaced by what it stands for. What a reference stands for is
not looked at again. -/
def decoded : Text → Text
  | [] => []
  | c :: rest =>
    if c = CodeUnit.ampersand then
      match _h : Reference.read? rest with
      | some (reference, after) => reference.replacement ++ decoded after
      | none => c :: decoded rest
    else c :: decoded rest
termination_by t => t.length
decreasing_by
  · have := Reference.length_lt_of_read? ‹_›
    simp only [List.length_cons]
    omega
  · simp
  · simp

/-- A unit that means something to markup as a reference, and any other as it is. -/
def escapedUnit (c : CodeUnit) : Text :=
  if c = CodeUnit.ampersand then "&amp;"
  else if c = CodeUnit.lessThan then "&lt;"
  else if c = CodeUnit.greaterThan then "&gt;"
  else if c = CodeUnit.quote then "&quot;"
  else [c]

/-- The text with references in place of ampersands, angle brackets and double quotes. -/
def escaped (t : Text) : Text := t.flatMap escapedUnit

end Text

end MarkupQuery
