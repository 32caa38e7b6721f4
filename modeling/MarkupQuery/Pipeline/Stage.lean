import MarkupQuery.Text.Basic

/-!
# Stages

A query is a pipeline of stages. A selection maps a set of nodes to a set of nodes, an extraction
turns a set of nodes into a text, and an edit maps a text to a text. Any sequence of stages is a
pipeline: whether each stage is given the kind of value it takes shows when the pipeline runs.

## Main definitions

* `Axis`, `Step`, `Path`: steps down a tree
* `Selection`, `Extraction`, `Edit`, `Stage`: the stages
* `Stage.input`, `Stage.output`: the kinds of value a stage takes and gives
* `Pipeline`: a sequence of stages
-/

namespace MarkupQuery

/-! ## Paths -/

/-- How far down a step of a path goes. -/
inductive Axis where
  | child
  /-- To the node itself and everything below it. -/
  | descendant
  deriving DecidableEq, Repr

/-- A step of a path: to the elements with a tag. -/
structure Step where
  axis : Axis
  /-- The tag, of which `A` to `Z` stand for either case. -/
  tag : Text
  deriving DecidableEq, Repr

/-- A path: steps taken one after the other. -/
abbrev Path := List Step

/-! ## Stages -/

/-- A stage that maps nodes to nodes. -/
inductive Selection where
  /-- Every node and everything below it. -/
  | flat
  /-- The elements one step away. -/
  | path (step : Step)
  /-- The elements that have an attribute, with the given value if there is one. -/
  | attr (field : Text) (value : Option Text)
  | identifier (value : Text) (caseSensitive : Bool)
  | className (value : Text) (caseSensitive : Bool)
  /-- The child at an index, which counts from the end when it is negative. -/
  | child (index : Int)
  deriving DecidableEq, Repr

/-- A stage that turns nodes into a text. -/
inductive Extraction where
  /-- The text in and below the nodes. -/
  | text
  | attr (field : Text)
  deriving DecidableEq, Repr

/-- A stage that maps a text to a text. -/
inductive Edit where
  /-- Takes the layout off both ends. -/
  | trim
  /-- Takes a text off the start, once. -/
  | trimPrefix (lead : Text)
  /-- Takes a text off the end, once. -/
  | trimSuffix (tail : Text)
  deriving DecidableEq, Repr

/-- A stage of a pipeline. -/
inductive Stage where
  | select (selection : Selection)
  | extract (extraction : Extraction)
  | edit (edit : Edit)
  deriving DecidableEq, Repr

/-- A pipeline: stages that run from left to right. -/
abbrev Pipeline := List Stage

/-! ## Kinds of value -/

/-- The two kinds of value that flow through a pipeline. -/
inductive ValueKind where
  | nodes
  | text
  deriving DecidableEq, Repr

namespace Stage

/-- The kind of value that a stage takes. -/
def input : Stage → ValueKind
  | select _ => .nodes
  | extract _ => .nodes
  | edit _ => .text

/-- The kind of value that a stage gives. -/
def output : Stage → ValueKind
  | select _ => .nodes
  | extract _ => .text
  | edit _ => .text

end Stage

end MarkupQuery
