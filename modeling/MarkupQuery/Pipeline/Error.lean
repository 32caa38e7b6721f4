import MarkupQuery.Number.Decimal
import MarkupQuery.Pipeline.Path
import MarkupQuery.Pipeline.Operator

/-!
# Errors in a query

A query text is refused at its first error: what is wrong, the position of the unit where it shows,
and the text of the stage that it stands in.

## Main definitions

* `Cause`: what is wrong
* `Cause.code`, `Cause.reason`: its class and its wording
* `LiteralKind.check`: the content of a literal, or why it is refused
* `Fault`: a cause and its position
* `ParseError`: a fault and the stage that it stands in
-/

namespace MarkupQuery

/-- What is wrong with a query. -/
inductive Cause where
  | unterminatedLiteral
  /-- There is nothing between two pipes, or before the first or after the last. -/
  | emptyStage
  /-- A stage does not begin with an operator. -/
  | operatorExpected (found : Text)
  | unknownOperator (name : Text)
  | openingExpected (operator : Operator)
  | closingExpected (operator : Operator)
  /-- Something else stands in the place of an argument. -/
  | argumentExpected (found : Text)
  /-- Something else stands between two arguments than a comma. -/
  | commaExpected (found : Text)
  | trailingComma
  /-- An operator has too few or too many arguments. -/
  | arity (operator : Operator) (count : Nat)
  /-- An argument that must be a literal is not. -/
  | literalExpected (kind : LiteralKind) (found : Text)
  /-- A literal holds units that its kind does not admit. -/
  | invalidLiteral (kind : LiteralKind) (content : Text)
  | path (fault : Path.Fault)
  /-- A case flag is neither `0` nor `1`. -/
  | invalidCaseFlag (found : Text)
  /-- A child index is no integer within the bound. -/
  | invalidIndex (found : Text)
  deriving DecidableEq, Repr

/-- The class of a cause. -/
inductive ErrorCode where
  | malformedStage
  | arityMismatch
  | invalidNumber
  | unterminatedLiteral
  | unknownOperator
  deriving DecidableEq, Repr

namespace Cause

/-- The class of a cause. -/
def code : Cause → ErrorCode
  | unterminatedLiteral => .unterminatedLiteral
  | unknownOperator _ => .unknownOperator
  | arity _ _ => .arityMismatch
  | invalidIndex _ => .invalidNumber
  | _ => .malformedStage

/-- A lead and a text in double quotes. -/
def quoting (lead found : Text) : Text := lead ++ " \"" ++ found ++ "\""

def reason : Cause → Text
  | unterminatedLiteral => "Unterminated literal"
  | emptyStage => "Empty stage"
  | operatorExpected found => quoting "Expected an operator, got" found
  | unknownOperator name => ("Unknown operator " : Text) ++ name
  | openingExpected operator => ("Expected \"(\" after " : Text) ++ operator.name
  | closingExpected operator => ("Expected \")\" to close " : Text) ++ operator.name
  | argumentExpected found => quoting "Expected an argument, got" found
  | commaExpected found => quoting "Expected \",\" between arguments, got" found
  | trailingComma => "Trailing comma in arguments"
  | arity operator count =>
    operator.name ++ " expects " ++ operator.arity.toText ++ " args, got " ++ Decimal.ofNat count
  | literalExpected kind found =>
    quoting (("Expected a backtick-quoted " : Text) ++ kind.name ++ ", got") found
  | invalidLiteral kind content =>
    ("Invalid " : Text) ++ kind.name ++ " literal " ++ content.enclosed
  | path fault => fault.reason
  | invalidCaseFlag found => quoting "Case flag must be 0 or 1, got" found
  | invalidIndex found => quoting "Invalid child index" found

end Cause

/-- The content of a literal of this kind, if it is admitted. -/
def LiteralKind.check (kind : LiteralKind) (content : Text) : Except Cause Text :=
  if kind.accepts content then .ok content else .error (.invalidLiteral kind content)

/-- A cause and the position where it shows. -/
structure Fault where
  cause : Cause
  /-- The position of the code unit where it shows. -/
  position : Nat
  deriving DecidableEq, Repr

/-- The error for which a query is refused. -/
structure ParseError extends Fault where
  /-- The text of the stage that the fault stands in, without the blanks around it. -/
  segment : Text
  deriving DecidableEq, Repr

namespace ParseError

def code (e : ParseError) : ErrorCode := e.cause.code

def reason (e : ParseError) : Text := e.cause.reason

/-- The error in words: the reason, the position and the stage. -/
def message (e : ParseError) : Text :=
  e.reason ++ " at position " ++ Decimal.ofNat e.position ++ ": " ++ e.segment

end ParseError

end MarkupQuery
