import MarkupQuery.Pipeline.Compile
import MarkupQuery.Proofs.Number.Numeral
import MarkupQuery.Proofs.Pipeline.Path
import MarkupQuery.Proofs.Result

/-!
# Reading arguments

An argument is accepted for what it is and for how it is written, never for where it stands. This
module says, for each way an operator takes an argument, which lexemes are accepted and as what,
and that an argument list is arguments with a comma between any two.

## Main definitions

* `Argument.lexeme`: the lexeme that an argument was read from
* `Lexeme.IsArgument`: the lexemes that are arguments
* `CaseFlag.toText`: how a case flag is written

## Main results

* `Argument.literal_eq_ok_iff`, `Argument.path_eq_ok_iff`, `Argument.caseFlag_eq_ok_iff`,
  `Argument.index_eq_ok_iff`: which arguments are accepted
* `Argument.list_induction`: two tokens of an argument list at a time
* `Argument.lexemes_of_list`, `Argument.exists_list`: the token lists that are argument lists
-/

namespace MarkupQuery

/-! ## Single arguments -/

/-- The text of a case flag. -/
def CaseFlag.toText : Bool → Text
  | true => "1"
  | false => "0"

theorem CaseFlag.read?_eq_some_iff {t : Text} {b : Bool} :
    CaseFlag.read? t = some b ↔ t = CaseFlag.toText b := by
  rw [CaseFlag.read?]
  constructor
  · intro h
    split at h
    · next ht =>
      obtain rfl : true = b := by simpa using h
      exact ht
    · split at h
      · next ht =>
        obtain rfl : false = b := by simpa using h
        exact ht
      · exact absurd h (by simp)
  · rintro rfl
    cases b with
    | false => decide
    | true => decide

/-- A literal or a bare run. -/
inductive Lexeme.IsArgument : Lexeme → Prop
  | literal (content : Text) : IsArgument (.literal content)
  | bare (content : Text) : IsArgument (.bare content)

namespace Argument

/-- The lexeme that an argument was read from. -/
def lexeme (a : Argument) : Lexeme := if a.quoted then .literal a.content else .bare a.content

theorem lexeme_eq_literal_iff {a : Argument} {t : Text} :
    a.lexeme = .literal t ↔ a.quoted = true ∧ a.content = t := by
  unfold lexeme
  split <;> simp_all

theorem lexeme_eq_bare_iff {a : Argument} {t : Text} :
    a.lexeme = .bare t ↔ a.quoted = false ∧ a.content = t := by
  unfold lexeme
  split <;> simp_all

theorem ofToken?_eq_some_iff {t : Token} {a : Argument} :
    ofToken? t = some a ↔ t.lexeme = a.lexeme ∧ t.start = a.position := by
  obtain ⟨quoted, content, position⟩ := a
  cases h : t.lexeme <;> cases quoted <;> simp [ofToken?, lexeme, h]

theorem ofToken?_isSome_of_isArgument {t : Token} (h : t.lexeme.IsArgument) :
    ∃ a, ofToken? t = some a := by
  cases hl : t.lexeme with
  | literal content => exact ⟨⟨true, content, t.start⟩, by simp [ofToken?, hl]⟩
  | bare content => exact ⟨⟨false, content, t.start⟩, by simp [ofToken?, hl]⟩
  | _ => rw [hl] at h; cases h

/-- A literal is accepted when its kind admits its content. -/
theorem literal_eq_ok_iff {kind : LiteralKind} {a : Argument} {t : Text} :
    a.literal kind = .ok t ↔ a.lexeme = .literal t ∧ kind.accepts t = true := by
  rw [literal, located, mapError_eq_ok_iff, lexeme_eq_literal_iff]
  cases a.quoted with
  | false => simp
  | true =>
    simp only [if_true, LiteralKind.check, true_and]
    split
    · next h =>
      rw [Except.ok.injEq]
      exact ⟨fun ht => ⟨ht, ht ▸ h⟩, fun ht => ht.1⟩
    · next h =>
      simp only [reduceCtorEq, false_iff]
      rintro ⟨rfl, ht⟩
      exact h ht

theorem field_eq_ok_iff {a : Argument} {t : Text} :
    a.literal .field = .ok t ↔ a.lexeme = .literal t ∧ t.IsMadeOf CodeUnit.fieldUnits := by
  rw [Text.isMadeOf_iff CodeUnit.isFieldUnit_iff]
  exact literal_eq_ok_iff

theorem text_eq_ok_iff {a : Argument} {t : Text} :
    a.literal .text = .ok t ↔ a.lexeme = .literal t ∧ t.IsMadeOf CodeUnit.letters := by
  rw [Text.isMadeOf_iff CodeUnit.isAlpha_iff]
  exact literal_eq_ok_iff

/-- A literal is accepted as a path when it is the text of one. -/
theorem path_eq_ok_iff {a : Argument} {p : Path} :
    a.path = .ok p ↔ a.lexeme = .literal (Path.toText p) ∧ p ≠ [] ∧ ∀ s ∈ p, s.IsValid := by
  rw [path, bind_eq_ok_iff]
  constructor
  · rintro ⟨content, hcontent, hp⟩
    rw [located, mapError_eq_ok_iff, mapError_eq_ok_iff, Path.read_eq_ok_iff] at hp
    obtain ⟨rfl, hne, hvalid⟩ := hp
    exact ⟨(literal_eq_ok_iff.mp hcontent).1, hne, hvalid⟩
  · rintro ⟨hlexeme, hne, hvalid⟩
    refine ⟨Path.toText p, literal_eq_ok_iff.mpr ⟨hlexeme, rfl⟩, ?_⟩
    rw [located, mapError_eq_ok_iff, mapError_eq_ok_iff, Path.read_eq_ok_iff]
    exact ⟨rfl, hne, hvalid⟩

/-- A bare run is accepted as a case flag when it is the text of one. -/
theorem caseFlag_eq_ok_iff {a : Argument} {b : Bool} :
    a.caseFlag = .ok b ↔ a.lexeme = .bare (CaseFlag.toText b) := by
  rw [caseFlag, located, mapError_eq_ok_iff, lexeme_eq_bare_iff]
  cases a.quoted with
  | true => simp
  | false =>
    simp only [Bool.false_eq_true, if_false, true_and]
    rw [← CaseFlag.read?_eq_some_iff]
    cases CaseFlag.read? a.content <;> simp

/-- A bare run is accepted as a child index when it is a numeral within the bound. -/
theorem index_eq_ok_iff {a : Argument} {n : Int} :
    a.index = .ok n ↔
      ∃ t, a.lexeme = .bare t ∧ Decimal.SignedNumeral t n ∧ n.natAbs ≤ 2 ^ 53 - 1 := by
  simp only [index, located, mapError_eq_ok_iff, lexeme_eq_bare_iff]
  cases a.quoted with
  | true => simp
  | false =>
    simp only [Bool.false_eq_true, if_false, true_and, exists_eq_left',
      ← Decimal.readIndex?_eq_some_iff]
    cases Decimal.readIndex? a.content <;> simp

/-! ## Argument lists -/

theorem list_cons_of_some {t : Token} {a : Argument} (h : ofToken? t = some a) (rest : List Token) :
    list (t :: rest) =
      match rest with
      | [] => .ok [a]
      | separator :: more =>
        if separator.lexeme = .comma then
          if more.isEmpty then .error ⟨.trailingComma, separator.start⟩
          else (list more).map (a :: ·)
        else .error ⟨.commaExpected separator.lexeme.value, separator.start⟩ := by
  cases rest with
  | nil => simp [list, h, bind, Except.bind, pure, Except.pure]
  | cons separator more =>
    simp only [list, h, bind, Except.bind]
    split
    · split
      · rfl
      · cases list more <;> rfl
    · rfl

theorem list_cons_of_none {t : Token} (h : ofToken? t = none) (rest : List Token) :
    list (t :: rest) = .error ⟨.argumentExpected t.lexeme.value, t.start⟩ := by
  cases rest <;> simp [list, h, bind, Except.bind]

/-- Every token list begins with no argument, is one argument, or has two tokens more than another
list, an argument first. -/
@[elab_as_elim]
theorem list_induction {motive : List Token → Prop} (nil : motive [])
    (stray : ∀ t rest, ofToken? t = none → motive (t :: rest))
    (single : ∀ t a, ofToken? t = some a → motive [t])
    (pair : ∀ t a separator more, ofToken? t = some a → motive more →
      motive (t :: separator :: more)) (tokens : List Token) : motive tokens := by
  induction hn : tokens.length using Nat.strongRecOn generalizing tokens with
  | ind n ih =>
    rcases tokens with _ | ⟨t, rest⟩
    · exact nil
    cases ht : ofToken? t with
    | none => exact stray t rest ht
    | some a =>
      rcases rest with _ | ⟨separator, more⟩
      · exact single t a ht
      · refine pair t a separator more ht (ih more.length ?_ more rfl)
        rw [← hn, List.length_cons, List.length_cons]
        omega

/-- What is read as an argument list are arguments with a comma between any two. -/
theorem lexemes_of_list {tokens : List Token} {arguments : List Argument}
    (h : list tokens = .ok arguments) :
    tokens.map Token.lexeme = (arguments.map lexeme).intersperse .comma := by
  induction tokens using list_induction generalizing arguments with
  | nil =>
    obtain rfl : [] = arguments := by simpa [list] using h
    rfl
  | stray t rest ht => simp [list_cons_of_none ht] at h
  | single t a ht =>
    obtain rfl : [a] = arguments := by simpa [list_cons_of_some ht] using h
    simp [(ofToken?_eq_some_iff.mp ht).1]
  | pair t a separator more ht ih =>
    obtain ⟨hlexeme, -⟩ := ofToken?_eq_some_iff.mp ht
    simp only [list_cons_of_some ht] at h
    split at h
    · next hcomma =>
      split at h
      · exact absurd h (by simp)
      · next hmore =>
        -- The rest is an argument list of its own, and not an empty one.
        obtain ⟨others, hothers, rfl⟩ := map_eq_ok_iff.mp h
        have hrest := ih hothers
        cases others with
        | nil =>
          have hnil : more = [] := by simpa using hrest
          exact absurd hnil (by simpa using hmore)
        | cons b others => simpa [hlexeme, hcomma] using hrest
    · exact absurd h (by simp)

/-- Arguments with a comma between any two are read as an argument list. -/
theorem exists_list {tokens : List Token} {lexemes : List Lexeme}
    (h : tokens.map Token.lexeme = lexemes.intersperse .comma)
    (hall : ∀ l ∈ lexemes, l.IsArgument) :
    ∃ arguments, list tokens = .ok arguments ∧ arguments.map lexeme = lexemes := by
  induction lexemes generalizing tokens with
  | nil =>
    obtain rfl : tokens = [] := by simpa using h
    exact ⟨[], by simp [list], rfl⟩
  | cons l lexemes ih =>
    obtain ⟨t, rest, rfl⟩ : ∃ t rest, tokens = t :: rest := by
      cases tokens with
      | nil => cases lexemes <;> simp at h
      | cons t rest => exact ⟨t, rest, rfl⟩
    have htl : t.lexeme = l := by cases lexemes <;> simp_all
    obtain ⟨a, ha⟩ := ofToken?_isSome_of_isArgument (htl ▸ hall l List.mem_cons_self)
    have hlexeme : a.lexeme = l := (ofToken?_eq_some_iff.mp ha).1.symm.trans htl
    rw [list_cons_of_some ha]
    cases lexemes with
    | nil =>
      obtain rfl : rest = [] := by simpa [htl] using h
      exact ⟨[a], rfl, by simp [hlexeme]⟩
    | cons m lexemes =>
      rcases rest with _ | ⟨separator, more⟩
      · simp [htl] at h
      simp only [List.map_cons, List.intersperse_cons_cons, List.cons.injEq] at h
      obtain ⟨-, hcomma, hmore⟩ := h
      obtain ⟨arguments, hlist, hmap⟩ :=
        ih hmore fun l hl => hall l (List.mem_cons_of_mem _ hl)
      have hne : more ≠ [] := by
        rintro rfl
        cases lexemes <;> simp at hmore
      exact ⟨a :: arguments, by simp [hcomma, hne, hlist, Except.map], by simp [hlexeme, hmap]⟩

end Argument

end MarkupQuery
