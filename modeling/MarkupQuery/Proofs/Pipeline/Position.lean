import MarkupQuery.Proofs.Pipeline.Grammar

/-!
# Reading elsewhere

A query is read from left to right, and where its text stands is never decided upon. A text that
begins at a later position is cut into the same lexemes and read as the same stages; all that
moves are the positions, those of its tokens and that of its error. Tokens may even be moved in any
way at all, and are read as before.

## Main definitions

* `Token.relocate`, `Argument.relocate`, `Segment.relocate`: the same at other positions
* `Token.shift`, `Segment.shift`: the same at a later position
* `OpenLiteral.shift`, `Fault.shift`, `ParseError.shift`: an error that shows at a later position

## Main results

* `Token.scan_shift`: scanning from a later position gives tokens at later positions
* `Segment.all_relocate`: moved tokens are cut into moved segments
* `Segment.stages_relocate`: moved tokens are read as the same stages, or refused where the fault is
  moved to
-/

namespace MarkupQuery

/-! ## Other positions -/

/-- The token at the positions that `f` gives for its own. -/
def Token.relocate (f : Nat → Nat) (t : Token) : Token := ⟨t.lexeme, f t.start, f t.stop⟩

def Argument.relocate (f : Nat → Nat) (a : Argument) : Argument :=
  { a with position := f a.position }

def Segment.relocate (f : Nat → Nat) (s : Segment) : Segment :=
  ⟨s.tokens.map (Token.relocate f), f s.stop⟩

/-- The fault that shows elsewhere, for the same cause. -/
def Fault.relocate (f : Nat → Nat) (e : Fault) : Fault := { e with position := f e.position }

@[simp] theorem Token.lexeme_relocate (f : Nat → Nat) (t : Token) :
    (t.relocate f).lexeme = t.lexeme := rfl

/-! ## Later positions -/

/-- The token at a position that is `d` units later. -/
def Token.shift (d : Nat) (t : Token) : Token := ⟨t.lexeme, t.start + d, t.stop + d⟩

def OpenLiteral.shift (d : Nat) (o : OpenLiteral) : OpenLiteral := ⟨o.stage + d, o.start + d⟩

def Segment.shift (d : Nat) (s : Segment) : Segment := ⟨s.tokens.map (Token.shift d), s.stop + d⟩

/-- The fault that shows `d` units later, for the same cause. -/
def Fault.shift (d : Nat) (f : Fault) : Fault := { f with position := f.position + d }

/-- The error that shows `d` units later, for the same cause and in the same stage. -/
def ParseError.shift (d : Nat) (e : ParseError) : ParseError :=
  { e with position := e.position + d }

@[simp] theorem Token.lexeme_shift (d : Nat) (t : Token) : (t.shift d).lexeme = t.lexeme := rfl

@[simp] theorem Token.start_shift (d : Nat) (t : Token) : (t.shift d).start = t.start + d := rfl

@[simp] theorem Token.stop_shift (d : Nat) (t : Token) : (t.shift d).stop = t.stop + d := rfl

/-! ## Tokens -/

/-- **Scanning from a later position gives tokens at later positions**, or the same open literal
there. -/
theorem Token.scan_shift (d stage start : Nat) (t : Text) :
    Token.scan (stage + d) (start + d) t =
      ((Token.scan stage start t).mapError (OpenLiteral.shift d)).map
        (List.map (Token.shift d)) := by
  fun_induction Token.scan stage start t with
  | case1 stage start => rw [Token.scan]; rfl
  | case2 stage start c rest hc ih =>
    rw [Token.scan_layout hc, ← ih]
    congr 1
    omega
  | case3 stage start c rest hc hread =>
    rw [Token.scan_of_read_eq_none (by simpa using hc) hread]
    rfl
  | case4 stage start c rest hc lexeme after hread stop stage' ih =>
    rw [Token.scan_of_read_eq_some (by simpa using hc) hread, mapError_map, map_map]
    -- After a pipe the next stage begins where the lexeme stops, in both scans.
    have hstop : start + d + lexeme.spelling.length = stop + d := by omega
    have hstage : (if lexeme = .pipe then stop + d else stage + d) = stage' + d := by
      unfold stage'
      split <;> rfl
    rw [hstop, hstage, ih, map_map]
    rfl

/-! ## Arguments -/

namespace Argument

variable (f : Nat → Nat) (a : Argument)

theorem ofToken?_relocate (t : Token) :
    ofToken? (t.relocate f) = (ofToken? t).map (relocate f) := by
  cases h : t.lexeme <;> simp [ofToken?, h, relocate, Token.relocate]

theorem located_relocate {α : Type} (result : Except Cause α) :
    (a.relocate f).located result = (a.located result).mapError (Fault.relocate f) := by
  cases result <;> rfl

theorem literal_relocate (kind : LiteralKind) :
    (a.relocate f).literal kind = (a.literal kind).mapError (Fault.relocate f) :=
  located_relocate f a _

theorem path_relocate : (a.relocate f).path = a.path.mapError (Fault.relocate f) := by
  rw [path, path, mapError_bind, literal_relocate]
  exact congrArg _ (funext fun content => located_relocate f a _)

theorem caseFlag_relocate : (a.relocate f).caseFlag = a.caseFlag.mapError (Fault.relocate f) :=
  located_relocate f a _

theorem index_relocate : (a.relocate f).index = a.index.mapError (Fault.relocate f) :=
  located_relocate f a _

theorem ofToken?_relocate_of_some {t : Token} {a : Argument} (h : ofToken? t = some a) :
    ofToken? (t.relocate f) = some (a.relocate f) := by
  rw [ofToken?_relocate, h]
  rfl

/-- Moved tokens list moved arguments. -/
theorem list_relocate (tokens : List Token) :
    list (tokens.map (Token.relocate f)) =
      ((list tokens).mapError (Fault.relocate f)).map (List.map (relocate f)) := by
  induction tokens using list_induction with
  | nil => rfl
  | stray t rest ht =>
    have hmoved : ofToken? (t.relocate f) = none := by rw [ofToken?_relocate, ht]; rfl
    rw [List.map_cons, list_cons_of_none ht, list_cons_of_none hmoved]
    rfl
  | single t a ht =>
    rw [List.map_singleton, list_cons_of_some ht,
      list_cons_of_some (ofToken?_relocate_of_some f ht)]
    rfl
  | pair t a separator more ht ih =>
    rw [List.map_cons, list_cons_of_some ht, list_cons_of_some (ofToken?_relocate_of_some f ht)]
    simp only [List.map_cons, Token.lexeme_relocate, List.isEmpty_map]
    split
    · split
      · rfl
      · rw [ih, mapError_map, map_map, map_map]
        rfl
    · rfl

end Argument

/-! ## Stages -/

/-- An operator makes the same stages of moved arguments. -/
theorem Operator.stages?_relocate (f : Nat → Nat) (operator : Operator)
    (arguments : List Argument) :
    operator.stages? (arguments.map (Argument.relocate f)) =
      (operator.stages? arguments).map (·.mapError (Fault.relocate f)) := by
  rcases arguments with _ | ⟨a, _ | ⟨b, _ | ⟨c, more⟩⟩⟩ <;> cases operator <;>
    simp only [List.map_cons, List.map_nil, stages?, Option.map_some, Option.map_none,
      Argument.literal_relocate, Argument.path_relocate, Argument.caseFlag_relocate,
      Argument.index_relocate, mapError_bind] <;> rfl

namespace Segment

variable (f : Nat → Nat)

theorem arguments_relocate (operator : Operator) (name : Token) (tokens : List Token) :
    arguments operator (name.relocate f) (tokens.map (Token.relocate f)) =
      ((arguments operator name tokens).mapError (Fault.relocate f)).map
        (List.map (Argument.relocate f)) := by
  rcases tokens with _ | ⟨opening, rest⟩
  · rfl
  rw [List.map_cons, arguments, arguments, Token.lexeme_relocate, List.getLast?_map]
  split
  · cases rest.getLast? with
    | none => rfl
    | some closing =>
      dsimp only [Option.map_some]
      by_cases hclosing : closing.lexeme = .rparen
      · rw [if_pos hclosing, if_pos (show (closing.relocate f).lexeme = _ from hclosing),
          ← List.map_dropLast, Argument.list_relocate]
      · rw [if_neg hclosing, if_neg (show ¬ (closing.relocate f).lexeme = _ from hclosing)]
        rfl
  · rfl

/-- **Moved tokens are read as the same stages**, or refused for the same cause where the fault is
moved to. -/
theorem stages_relocate (first : Token) (rest : List Token) :
    stages (first.relocate f) (rest.map (Token.relocate f)) =
      (stages first rest).mapError (Fault.relocate f) := by
  unfold stages
  rw [Token.lexeme_relocate]
  cases first.lexeme with
  | operator name =>
    cases hname : Operator.ofName? name with
    | none => simp only [hname]; rfl
    | some operator =>
      simp only [hname]
      rw [arguments_relocate, mapError_bind, map_bind]
      refine congrArg _ (funext fun as => ?_)
      rw [Operator.stages?_relocate, List.length_map]
      cases operator.stages? as <;> rfl
  | _ => rfl

/-- Moved tokens are cut into moved segments. -/
theorem all_relocate (length : Nat) (tokens : List Token) :
    all (f length) (tokens.map (Token.relocate f)) = (all length tokens).map (relocate f) := by
  have hcut : cut (f length) (tokens.map (Token.relocate f)) =
      ((cut length tokens).1.relocate f, (cut length tokens).2.map (relocate f)) := by
    induction tokens with
    | nil => rfl
    | cons t tokens ih =>
      rw [List.map_cons]
      by_cases ht : t.lexeme = .pipe
      · have hmoved : (t.relocate f).lexeme = .pipe := ht
        rw [cut_cons_of_pipe ht, cut_cons_of_pipe hmoved, all, ih]
        rfl
      · have hmoved : (t.relocate f).lexeme ≠ .pipe := ht
        rw [cut_cons_of_ne ht, cut_cons_of_ne hmoved, ih]
        rfl
  rw [all, hcut]
  rfl

/-- Tokens at a later position are read as the same stages, or refused at a later position. -/
theorem stages_shift (d : Nat) (first : Token) (rest : List Token) :
    stages (first.shift d) (rest.map (Token.shift d)) =
      (stages first rest).mapError (Fault.shift d) :=
  stages_relocate (· + d) first rest

theorem all_shift (d length : Nat) (tokens : List Token) :
    all (length + d) (tokens.map (Token.shift d)) = (all length tokens).map (shift d) :=
  all_relocate (· + d) length tokens

end Segment

end MarkupQuery
