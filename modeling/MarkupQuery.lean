import MarkupQuery.Text.Unit
import MarkupQuery.Text.Basic
import MarkupQuery.Text.Utf16
import MarkupQuery.Number.Decimal
import MarkupQuery.Number.Shortest
import MarkupQuery.Number.Basic
import MarkupQuery.Pipeline.Stage
import MarkupQuery.Pipeline.Path
import MarkupQuery.Pipeline.Operator
import MarkupQuery.Pipeline.Error
import MarkupQuery.Pipeline.Token
import MarkupQuery.Pipeline.Format
import MarkupQuery.Pipeline.Compile
import MarkupQuery.Pipeline.Call
import MarkupQuery.Markup.Node
import MarkupQuery.Markup.Reference
import MarkupQuery.Markup.Tag
import MarkupQuery.Markup.Event
import MarkupQuery.Markup.Tree
import MarkupQuery.Markup.Render
import MarkupQuery.Forest.Basic
import MarkupQuery.Forest.Order
import MarkupQuery.Forest.Select
import MarkupQuery.Forest.Evaluate
import MarkupQuery.Forest.Table
import MarkupQuery.Markup.Index
import MarkupQuery.Markup.Query
import MarkupQuery.Proofs.Result
import MarkupQuery.Proofs.Text.Run
import MarkupQuery.Proofs.Text.Alphabet
import MarkupQuery.Proofs.Text.Unit
import MarkupQuery.Proofs.Text.Word
import MarkupQuery.Proofs.Number.Numeral
import MarkupQuery.Proofs.Pipeline.Path
import MarkupQuery.Proofs.Pipeline.PathFault
import MarkupQuery.Proofs.Pipeline.Argument
import MarkupQuery.Proofs.Pipeline.Grammar
import MarkupQuery.Proofs.Pipeline.Lexing
import MarkupQuery.Proofs.Pipeline.RoundTrip
import MarkupQuery.Proofs.Pipeline.Position
import MarkupQuery.Proofs.Pipeline.Pipe
import MarkupQuery.Proofs.Pipeline.Building
import MarkupQuery.Proofs.Pipeline.Munch
import MarkupQuery.Proofs.Pipeline.Refusal
import MarkupQuery.Proofs.Forest.Preorder
import MarkupQuery.Proofs.Forest.Numbering
import MarkupQuery.Proofs.Forest.Reference
import MarkupQuery.Proofs.Forest.Resume
import MarkupQuery.Proofs.Forest.Positions
import MarkupQuery.Proofs.Forest.Kinds
import MarkupQuery.Proofs.Markup.Escape
import MarkupQuery.Proofs.Markup.Spelling
import MarkupQuery.Proofs.Markup.Render
import MarkupQuery.Proofs.Markup.StartTag
import MarkupQuery.Proofs.Markup.EndTag
import MarkupQuery.Proofs.Markup.Scanning
import MarkupQuery.Proofs.Markup.RoundTrip
import MarkupQuery.Proofs.Markup.Reading
import MarkupQuery.Proofs.Markup.Numbering
import MarkupQuery.Proofs.Markup.Tidy
import MarkupQuery.Proofs.Markup.Normal
import MarkupQuery.Proofs.Markup.Content
import MarkupQuery.Proofs.Forest.Absorption
import MarkupQuery.Proofs.Forest.Contexts
import MarkupQuery.Proofs.Markup.Dropping
import MarkupQuery.Proofs.Markup.Whitespace
import MarkupQuery.Proofs.Markup.Front
import MarkupQuery.Proofs.Markup.Opening
import MarkupQuery.Proofs.Markup.Standing
import MarkupQuery.Proofs.Markup.Decoding
import MarkupQuery.Proofs.Markup.Substitution
import MarkupQuery.Proofs.Markup.Stray
import MarkupQuery.Proofs.Forest.Filters
import MarkupQuery.Proofs.Forest.Traversal
import MarkupQuery.Proofs.Forest.ClassName
import MarkupQuery.Proofs.Markup.Document
import MarkupQuery.Proofs.Markup.Alternative
import MarkupQuery.Proofs.Markup.Turn
import MarkupQuery.Proofs.Pipeline.Region
import MarkupQuery.Proofs.Pipeline.OpenLiteral
import MarkupQuery.Proofs.Pipeline.Layout
import MarkupQuery.Proofs.Number.Double
import MarkupQuery.Proofs.Pipeline.ChildIndex
import MarkupQuery.Proofs.Pipeline.Joining
import MarkupQuery.Proofs.Text.Trim
import MarkupQuery.Proofs.Forest.Editing
