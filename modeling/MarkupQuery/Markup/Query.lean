import MarkupQuery.Markup.Index
import MarkupQuery.Markup.Tree
import MarkupQuery.Pipeline.Compile

/-!
# Queries on markup

A query is read, the markup is read, and the pipeline runs from the document.

## Main definitions

* `QueryError`: why a query has no value
* `query`: the value of a query on a markup
-/

namespace MarkupQuery

/-- Why a query has no value. -/
inductive QueryError where
  | parse (error : ParseError)
  | evaluation (error : EvalError)
  deriving DecidableEq, Repr

/-- The value of a pipeline on documents, from the nodes with the given numbers. -/
def Index.evaluate (ix : Index) (p : Pipeline) (context : List Nat) :
    Except QueryError (Value Nat) :=
  (ix.forest.evaluate p context).mapError .evaluation

/-- The value of the query `text` on a markup, from its document. -/
def query (text markup : Text) (keepWhitespace : Bool) : Except QueryError (Value Nat) := do
  let p ← (Pipeline.compile text).mapError .parse
  (Index.ofDocuments [Node.parse keepWhitespace markup]).evaluate p [0]

end MarkupQuery
