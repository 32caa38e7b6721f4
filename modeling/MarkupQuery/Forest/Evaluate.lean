import MarkupQuery.Forest.Order
import MarkupQuery.Forest.Select
import MarkupQuery.Pipeline.Format

/-!
# Running a pipeline

A value flows through the stages of a pipeline from left to right. It starts as the set of context
nodes; every selection gives a set of nodes again, listed without repetition and in document
order, and every extraction or edit a text. A stage that is given the other kind of value than it
takes ends the run.

The document order is kept from stage to stage, so that trees stay in the order in which they were
first met.

## Main definitions

* `Value`: a set of nodes or a text
* `EvalError`: a stage that is given the wrong kind of value
* `Forest.start`, `Forest.step`: the first state of a run, and the state after a stage
* `Forest.evaluate`: the value that a pipeline gives
-/

namespace MarkupQuery

/-! ## Values -/

/-- The value that flows through a pipeline. -/
inductive Value (ν : Type) where
  /-- A set of nodes, in order. -/
  | nodes (nodes : List ν)
  | text (value : Text)
  deriving DecidableEq, Repr

def Value.kind {ν : Type} : Value ν → ValueKind
  | nodes _ => .nodes
  | text _ => .text

def ValueKind.name : ValueKind → Text
  | nodes => "nodes"
  | text => "text"

/-! ## Errors -/

/-- A stage that is given the wrong kind of value. -/
structure EvalError where
  stage : Stage
  /-- The kind of value that it is given. -/
  actual : ValueKind
  deriving DecidableEq, Repr

namespace EvalError

/-- The kind of value that the stage takes. -/
def expected (e : EvalError) : ValueKind := e.stage.input

/-- The error in words. -/
def message (e : EvalError) : Text :=
  ("Stage " : Text) ++ e.stage.toText ++ " expects " ++ e.expected.name ++ ", got " ++
    e.actual.name

end EvalError

/-! ## Runs -/

/-- The state of a run between two stages. -/
structure Run (ν : Type) where
  /-- The document order of the trees met so far. -/
  order : List ν
  value : Value ν

namespace Forest

variable {ν : Type} [BEq ν] [Hashable ν]

/-- The state in which the value is a set of nodes, put in order after the order so far. -/
def arrange (F : Forest ν) (order nodes : List ν) : Run ν :=
  let sorted := F.sort order nodes
  ⟨sorted.2, .nodes sorted.1⟩

/-- The state before the first stage. -/
def start (F : Forest ν) (context : List ν) : Run ν := F.arrange [] context

/-- The state after a stage. -/
def step (F : Forest ν) (run : Run ν) (stage : Stage) : Except EvalError (Run ν) :=
  match stage, run.value with
  | .select selection, .nodes nodes => .ok (F.arrange run.order (F.select selection nodes))
  | .extract extraction, .nodes nodes =>
    .ok { run with value := .text (F.extract extraction nodes) }
  | .edit edit, .text value => .ok { run with value := .text (edit.apply value) }
  | stage, value => .error ⟨stage, value.kind⟩

/-- The state after the stages of a pipeline. -/
def steps (F : Forest ν) (run : Run ν) (p : Pipeline) : Except EvalError (Run ν) :=
  p.foldlM F.step run

/-- The value that a pipeline gives from a list of context nodes. -/
def evaluate (F : Forest ν) (p : Pipeline) (context : List ν) : Except EvalError (Value ν) :=
  (F.steps (F.start context) p).map Run.value

end Forest

end MarkupQuery
