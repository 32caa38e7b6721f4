import MarkupQuery.Number.Decimal
import MarkupQuery.Text.Utf16

/-!
# Operators and literals

A stage is written as an operator applied to arguments in parentheses. The name of an operator
begins with `@` when the operator gives nodes and with `#` when it gives text. Literal arguments
stand in backticks, and each kind of literal admits its own units.

## Main definitions

* `Operator`, `Operator.name`, `Operator.ofName?`: the operators and their names
* `Operator.arity`: how many arguments an operator takes
* `Operator.applied`: how an operator and its arguments are written
* `LiteralKind`, `LiteralKind.accepts`: the kinds of literal and what they admit
* `CaseFlag.read?`: whether letter case matters
-/

namespace MarkupQuery

/-- The text between backticks. -/
def Text.enclosed (t : Text) : Text := CodeUnit.backtick :: t ++ [CodeUnit.backtick]

/-! ## Operators -/

/-- The operators with which stages are written. -/
inductive Operator where
  | flat
  /-- Writes one `Selection.path` for each step. -/
  | path
  | attr
  | identifier
  | className
  | child
  | text
  | trim
  | trimPrefix
  | trimSuffix
  | attrText
  deriving DecidableEq, Repr

/-- The least and the greatest number of arguments. -/
structure Arity where
  least : Nat
  most : Nat

/-- The text of an arity: one number, or the two with a minus sign between them. -/
def Arity.toText (a : Arity) : Text :=
  if a.least = a.most then Decimal.ofNat a.least
  else Decimal.ofNat a.least ++ "-" ++ Decimal.ofNat a.most

namespace Operator

def all : List Operator :=
  [flat, path, attr, identifier, className, child, text, trim, trimPrefix, trimSuffix,
    attrText]

/-- The name of an operator, with its sign. -/
def name : Operator → Text
  | flat => "@flat"
  | path => "@path"
  | attr => "@attr"
  | identifier => "@id"
  | className => "@class"
  | child => "@child"
  | text => "#text"
  | trim => "#trim"
  | trimPrefix => "#trimPrefix"
  | trimSuffix => "#trimSuffix"
  | attrText => "#attr"

def ofName? (n : Text) : Option Operator := all.find? fun operator => operator.name == n

/-- How many arguments an operator takes. -/
def arity : Operator → Arity
  | flat => ⟨0, 0⟩
  | path => ⟨1, 1⟩
  | attr => ⟨1, 2⟩
  | identifier => ⟨1, 2⟩
  | className => ⟨1, 2⟩
  | child => ⟨1, 1⟩
  | text => ⟨0, 0⟩
  | trim => ⟨0, 0⟩
  | trimPrefix => ⟨1, 1⟩
  | trimSuffix => ⟨1, 1⟩
  | attrText => ⟨1, 1⟩

/-- An operator applied to arguments: its name, and the arguments in parentheses with a comma and
a space between them. -/
def applied (operator : Operator) (arguments : List Text) : Text :=
  operator.name ++ "(" ++ List.intercalate ", " arguments ++ ")"

end Operator

/-! ## Literals -/

/-- The kinds of literal argument. -/
inductive LiteralKind where
  | path
  /-- The name or value of an attribute, an identifier or a class. -/
  | field
  /-- A text to take off. -/
  | text
  deriving DecidableEq, Repr

namespace LiteralKind

/-- The word for a kind of literal. -/
def name : LiteralKind → Text
  | path => "path"
  | field => "field"
  | text => "text"

/-- Whether a literal of this kind may have the given content: a field is a run of field units, and
a text a run of letters. What a path admits is for reading it to say. -/
def accepts : LiteralKind → Text → Bool
  | path, _ => true
  | field, content => content.isRunOf CodeUnit.isFieldUnit
  | text, content => content.isRunOf CodeUnit.isAlpha

end LiteralKind

/-- The flag that says whether letter case matters: `1` when it does, `0` when it does not. -/
def CaseFlag.read? (t : Text) : Option Bool :=
  if t = [CodeUnit.one] then some true else if t = [CodeUnit.zero] then some false else none

end MarkupQuery
