import MarkupQuery.Number.Basic
import MarkupQuery.Pipeline.Error

/-!
# Building stages

Stages can be built without writing a query: a call names an operator and gives its arguments as
values. They are held to the same rules as the arguments of a query, and a refusal quotes the
stage as a query would write it.

## Main definitions

* `Call`: an operator and its arguments
* `Call.stages`: the stages that a call builds
-/

namespace MarkupQuery

/-- An operator and the values of its arguments. -/
inductive Call where
  | flat
  /-- Builds a step for each step of a path. -/
  | path (path : Text)
  | attr (field : Text) (value : Option Text)
  | identifier (value : Text) (caseSensitive : Bool)
  | className (value : Text) (caseSensitive : Bool)
  | child (index : Number)
  | text
  | trim
  | trimPrefix (lead : Text)
  | trimSuffix (tail : Text)
  | attrText (field : Text)
  deriving DecidableEq, Repr

namespace Call

/-- A result, or a cause that is quoted with the operator and the arguments it was found in. -/
def quoted {α : Type} (operator : Operator) (arguments : List Text) (result : Except Cause α) :
    Except ParseError α :=
  result.mapError fun cause =>
    { cause, position := 0, segment := operator.applied arguments }

/-- The argument as a literal of a kind, quoted as the only argument of its operator. -/
def literal (operator : Operator) (kind : LiteralKind) (content : Text) :
    Except ParseError Text :=
  quoted operator [content.enclosed] (kind.check content)

/-- The stages that a call builds. -/
def stages : Call → Except ParseError Pipeline
  | flat => .ok [.select .flat]
  | path content => do
    let steps ← quoted .path [content.enclosed] ((Path.read content).mapError .path)
    return steps.map fun step => .select (.path step)
  | attr field none => do
    return [.select (.attr (← literal .attr .field field) none)]
  | attr field (some value) => do
    let field ← literal .attr .field field
    let value ←
      quoted .attr [field.enclosed, value.enclosed] (LiteralKind.field.check value)
    return [.select (.attr field (some value))]
  | identifier value caseSensitive => do
    return [.select (.identifier (← literal .identifier .field value) caseSensitive)]
  | className value caseSensitive => do
    return [.select (.className (← literal .className .field value) caseSensitive)]
  | child number =>
    match number.index? with
    | some index => .ok [.select (.child index)]
    | none => quoted .child [number.toText] (.error (.invalidIndex number.toText))
  | text => .ok [.extract .text]
  | trim => .ok [.edit .trim]
  | trimPrefix lead => do
    return [.edit (.trimPrefix (← literal .trimPrefix .text lead))]
  | trimSuffix tail => do
    return [.edit (.trimSuffix (← literal .trimSuffix .text tail))]
  | attrText field => do
    return [.extract (.attr (← literal .attrText .field field))]

end Call

end MarkupQuery
