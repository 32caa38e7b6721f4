import MarkupQuery.Pipeline.Token

/-!
# Reading a pipeline

The tokens of a query are cut at its pipes. Each segment is an operator, and arguments in
parentheses with commas between them; the operator makes stages of its arguments. Reading stops at
the first error from the left, and within a segment the shape is checked before the arguments are.

Whether the stages fit together is left for running them to find out.

## Main definitions

* `Argument`: a literal or a bare run between the parentheses
* `Operator.stages?`: the stages that an operator makes of its arguments
* `Segment.cut`: the segments of a token list
* `Pipeline.compile`: the pipeline that a text writes
-/

namespace MarkupQuery

/-! ## Arguments -/

/-- An argument of an operator. -/
structure Argument where
  /-- Whether the argument is a literal in backticks. -/
  quoted : Bool
  content : Text
  /-- The position of its first unit. -/
  position : Nat
  deriving DecidableEq, Repr

namespace Argument

/-- The argument that a token is: a literal or a bare run. -/
def ofToken? (t : Token) : Option Argument :=
  match t.lexeme with
  | .literal content => some ⟨true, content, t.start⟩
  | .bare content => some ⟨false, content, t.start⟩
  | _ => none

/-- A result, or a cause that shows at the argument. -/
def located {α : Type} (a : Argument) (result : Except Cause α) : Except Fault α :=
  result.mapError (⟨·, a.position⟩)

/-- The argument as a literal of a kind. -/
def literal (kind : LiteralKind) (a : Argument) : Except Fault Text :=
  a.located <|
    if a.quoted then kind.check a.content else .error (.literalExpected kind a.content)

/-- The argument as a path. -/
def path (a : Argument) : Except Fault Path := do
  let content ← a.literal .path
  a.located ((Path.read content).mapError .path)

/-- The argument as a case flag, which is written bare. -/
def caseFlag (a : Argument) : Except Fault Bool :=
  a.located <|
    match if a.quoted then none else CaseFlag.read? a.content with
    | some flag => .ok flag
    | none => .error (.invalidCaseFlag a.content)

/-- The argument as a child index, which is written bare. -/
def index (a : Argument) : Except Fault Int :=
  a.located <|
    match if a.quoted then none else Decimal.readIndex? a.content with
    | some index => .ok index
    | none => .error (.invalidIndex a.content)

/-- The arguments that tokens list: a literal or a bare run in every other place, and a comma
between any two. -/
def list : List Token → Except Fault (List Argument)
  | [] => .ok []
  | token :: rest => do
    let argument ←
      match ofToken? token with
      | some argument => .ok argument
      | none => .error ⟨.argumentExpected token.lexeme.value, token.start⟩
    match rest with
    | [] => return [argument]
    | separator :: more =>
      if separator.lexeme = .comma then
        if more.isEmpty then .error ⟨.trailingComma, separator.start⟩
        else return argument :: (← list more)
      else .error ⟨.commaExpected separator.lexeme.value, separator.start⟩

end Argument

/-! ## Stages -/

namespace Operator

/-- The stages that an operator makes of its arguments, checked from left to right; none when
their number is wrong. -/
def stages? : Operator → List Argument → Option (Except Fault Pipeline)
  | flat, [] => some (.ok [.select .flat])
  | path, [content] => some do
    return (← content.path).map fun step => .select (.path step)
  | attr, [field] => some do
    return [.select (.attr (← field.literal .field) none)]
  | attr, [field, value] => some do
    let field ← field.literal .field
    let value ← value.literal .field
    return [.select (.attr field (some value))]
  | identifier, [value] => some do
    return [.select (.identifier (← value.literal .field) true)]
  | identifier, [value, flag] => some do
    let value ← value.literal .field
    let flag ← flag.caseFlag
    return [.select (.identifier value flag)]
  | className, [value] => some do
    return [.select (.className (← value.literal .field) true)]
  | className, [value, flag] => some do
    let value ← value.literal .field
    let flag ← flag.caseFlag
    return [.select (.className value flag)]
  | child, [index] => some do
    return [.select (.child (← index.index))]
  | text, [] => some (.ok [.extract .text])
  | trim, [] => some (.ok [.edit .trim])
  | trimPrefix, [lead] => some do
    return [.edit (.trimPrefix (← lead.literal .text))]
  | trimSuffix, [tail] => some do
    return [.edit (.trimSuffix (← tail.literal .text))]
  | attrText, [field] => some do
    return [.extract (.attr (← field.literal .field))]
  | _, _ => none

end Operator

/-! ## Segments -/

/-- The tokens between two pipes. -/
structure Segment where
  tokens : List Token
  /-- The position of the pipe that ends the segment, or of the end of the text. -/
  stop : Nat

namespace Segment

/-- The segments of a token list in a text of the given length: the first, and those after a
pipe. -/
def cut (length : Nat) : List Token → Segment × List Segment
  | [] => (⟨[], length⟩, [])
  | token :: rest =>
    let (segment, more) := cut length rest
    if token.lexeme = .pipe then (⟨[], token.start⟩, segment :: more)
    else ({ segment with tokens := token :: segment.tokens }, more)

/-- The arguments of an operator that the token `name` names: they stand in parentheses, which end
the segment. -/
def arguments (operator : Operator) (name : Token) : List Token → Except Fault (List Argument)
  | [] => .error ⟨.openingExpected operator, name.stop⟩
  | opening :: rest =>
    if opening.lexeme = .lparen then
      match rest.getLast? with
      | none => .error ⟨.closingExpected operator, opening.stop⟩
      | some closing =>
        if closing.lexeme = .rparen then Argument.list rest.dropLast
        else .error ⟨.closingExpected operator, closing.stop⟩
    else .error ⟨.openingExpected operator, opening.start⟩

/-- The stages that the tokens `first :: rest` write. -/
def stages (first : Token) (rest : List Token) : Except Fault Pipeline :=
  match first.lexeme with
  | .operator name =>
    match Operator.ofName? name with
    | none => .error ⟨.unknownOperator name, first.start⟩
    | some operator => do
      let arguments ← arguments operator first rest
      match operator.stages? arguments with
      | none => .error ⟨.arity operator arguments.length, first.start⟩
      | some stages => stages
  | lexeme => .error ⟨.operatorExpected lexeme.value, first.start⟩

/-- The text of the tokens `first :: rest`, without the blanks at its ends. -/
def excerpt (whole : Text) (first : Token) (rest : List Token) : Text :=
  (whole.slice first.start (rest.getLastD first).stop).trim CodeUnit.isWhitespace

/-- The stages that a segment of the text `whole` writes. -/
def compile (whole : Text) (segment : Segment) : Except ParseError Pipeline :=
  match segment.tokens with
  | [] => .error { cause := .emptyStage, position := segment.stop, segment := [] }
  | first :: rest =>
    (stages first rest).mapError fun fault =>
      { fault with segment := excerpt whole first rest }

end Segment

/-! ## Pipelines -/

/-- The pipeline that a text writes: the stages of its segments in order. -/
def Pipeline.compile (whole : Text) : Except ParseError Pipeline := do
  let tokens ← tokenize whole
  let (segment, more) := Segment.cut whole.length tokens
  return (← (segment :: more).mapM (Segment.compile whole)).flatten

end MarkupQuery
