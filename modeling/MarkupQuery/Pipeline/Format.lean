import MarkupQuery.Pipeline.Operator
import MarkupQuery.Pipeline.Path

/-!
# The text of a pipeline

Each stage is written as an operator applied to its arguments, and a run of steps as one path.
Stages are joined by a pipe between spaces. The contents of literals are written as they are,
whether or not reading would admit them.

## Main definitions

* `Stage.toText`: the text of a stage
* `Pipeline.parts`: the stages of a pipeline with each run of steps gathered
* `Pipeline.toText`: the text of a pipeline
-/

namespace MarkupQuery

/-! ## Stages -/

/-- The arguments of a stage that matches a name: case is mentioned only when it does not
matter. -/
def matchArguments (value : Text) (caseSensitive : Bool) : List Text :=
  if caseSensitive then [value.enclosed] else [value.enclosed, "0"]

/-- The text of a selection. -/
def Selection.toText : Selection → Text
  | .flat => Operator.flat.applied []
  | .path step => Operator.path.applied [step.toText.enclosed]
  | .attr field none => Operator.attr.applied [field.enclosed]
  | .attr field (some value) => Operator.attr.applied [field.enclosed, value.enclosed]
  | .identifier value caseSensitive =>
    Operator.identifier.applied (matchArguments value caseSensitive)
  | .className value caseSensitive =>
    Operator.className.applied (matchArguments value caseSensitive)
  | .child index => Operator.child.applied [Decimal.ofInt index]

def Extraction.toText : Extraction → Text
  | .text => Operator.text.applied []
  | .attr field => Operator.attrText.applied [field.enclosed]

def Edit.toText : Edit → Text
  | .trim => Operator.trim.applied []
  | .trimPrefix lead => Operator.trimPrefix.applied [lead.enclosed]
  | .trimSuffix tail => Operator.trimSuffix.applied [tail.enclosed]

/-- The text of a stage. -/
def Stage.toText : Stage → Text
  | .select s => s.toText
  | .extract e => e.toText
  | .edit e => e.toText

/-! ## Pipelines -/

namespace Pipeline

/-- A part of a pipeline that is written as one application. -/
inductive Part where
  /-- A run of steps. -/
  | path (steps : Path)
  /-- A stage that is no step. -/
  | stage (stage : Stage)
  deriving DecidableEq, Repr

def Part.toText : Part → Text
  | .path steps => Operator.path.applied [(Path.toText steps).enclosed]
  | .stage s => s.toText

/-- A step put in front of parts: it joins a path that they begin with. -/
def consStep (step : Step) : List Part → List Part
  | .path steps :: parts => .path (step :: steps) :: parts
  | parts => .path [step] :: parts

/-- The parts of a pipeline: every longest run of steps, and every other stage by itself. -/
def parts : Pipeline → List Part
  | [] => []
  | .select (.path step) :: rest => consStep step (parts rest)
  | stage :: rest => .stage stage :: parts rest

/-- The text of a pipeline. -/
def toText (p : Pipeline) : Text := List.intercalate " | " (p.parts.map Part.toText)

end Pipeline

end MarkupQuery
