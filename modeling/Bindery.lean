import Bindery.Binding.Plan
import Bindery.Binding.Slot
import Bindery.Code.Body
import Bindery.Code.Compose
import Bindery.Code.Model
import Bindery.Code.Name
import Bindery.Code.Units
import Bindery.Command.Arguments
import Bindery.Command.FileTree
import Bindery.Command.Run
import Bindery.Error
import Bindery.Instance.Convert
import Bindery.Instance.Datum
import Bindery.Instance.Error
import Bindery.Instance.Read
import Bindery.Instance.Scalar
import Bindery.Instance.Write
import Bindery.Main
import Bindery.Markup.Cursor
import Bindery.Markup.Error
import Bindery.Markup.Node
import Bindery.Markup.Reader
import Bindery.Markup.Token
import Bindery.Markup.Writer
import Bindery.Notice
import Bindery.Number.Binary64
import Bindery.Number.Integer
import Bindery.Proofs.Binding.Calls
import Bindery.Proofs.Binding.Coherent
import Bindery.Proofs.Binding.Conflicts
import Bindery.Proofs.Binding.Enumerations
import Bindery.Proofs.Binding.Finite
import Bindery.Proofs.Binding.Functions
import Bindery.Proofs.Binding.Kinds
import Bindery.Proofs.Binding.Making
import Bindery.Proofs.Binding.Order
import Bindery.Proofs.Binding.Planned
import Bindery.Proofs.Binding.Records
import Bindery.Proofs.Binding.Shares
import Bindery.Proofs.Binding.Stack
import Bindery.Proofs.Binding.Steps
import Bindery.Proofs.Binding.TypeNames
import Bindery.Proofs.Code.Ascii
import Bindery.Proofs.Code.Legal
import Bindery.Proofs.Code.Unique
import Bindery.Proofs.Declaration.Agreement
import Bindery.Proofs.Declaration.Cached
import Bindery.Proofs.Declaration.Comments
import Bindery.Proofs.Declaration.Reading
import Bindery.Proofs.Declaration.RelaxNg
import Bindery.Proofs.Declaration.Spelling
import Bindery.Proofs.Declaration.Xsd
import Bindery.Proofs.Document.Closed
import Bindery.Proofs.Document.Complete
import Bindery.Proofs.Document.Congruence
import Bindery.Proofs.Document.DepthFirst
import Bindery.Proofs.Document.Entity
import Bindery.Proofs.Document.Folding
import Bindery.Proofs.Document.Groups
import Bindery.Proofs.Document.Identifier
import Bindery.Proofs.Document.Licensed
import Bindery.Proofs.Document.Propagation
import Bindery.Proofs.Document.Proper
import Bindery.Proofs.Document.Relations
import Bindery.Proofs.Document.Renumbering
import Bindery.Proofs.Document.Sequence
import Bindery.Proofs.Document.Visits
import Bindery.Proofs.Instance.Absent
import Bindery.Proofs.Instance.Acceptance
import Bindery.Proofs.Instance.Contents
import Bindery.Proofs.Instance.Fits
import Bindery.Proofs.Instance.Inverse
import Bindery.Proofs.Instance.Legible
import Bindery.Proofs.Instance.Literal
import Bindery.Proofs.Instance.Recognised
import Bindery.Proofs.Instance.Records
import Bindery.Proofs.Instance.RoundTrip
import Bindery.Proofs.Instance.Seen
import Bindery.Proofs.Markup.Assembling
import Bindery.Proofs.Markup.Lexing
import Bindery.Proofs.Markup.Tree
import Bindery.Proofs.Number.Decimal
import Bindery.Proofs.Number.Integer
import Bindery.Proofs.Occurrence.Bounds
import Bindery.Proofs.Occurrence.Marks
import Bindery.Proofs.Path.Address
import Bindery.Proofs.Path.Offered
import Bindery.Proofs.Path.Traced
import Bindery.Proofs.Resolution.Additive
import Bindery.Proofs.Resolution.Coverage
import Bindery.Proofs.Resolution.Expansion
import Bindery.Proofs.Resolution.Fresh
import Bindery.Proofs.Resolution.Gathering
import Bindery.Proofs.Resolution.InPlace
import Bindery.Proofs.Resolution.Kept
import Bindery.Proofs.Resolution.Leftover
import Bindery.Proofs.Resolution.Licence
import Bindery.Proofs.Resolution.Outcome
import Bindery.Proofs.Resolution.Settled
import Bindery.Proofs.Resolution.Walk
import Bindery.Proofs.Sample.RoundTrip
import Bindery.Proofs.Sections.InStep
import Bindery.Proofs.Sections.OneSchema
import Bindery.Proofs.Text.Identifier
import Bindery.Proofs.Text.Whitespace
import Bindery.Sample
import Bindery.Schema.Build
import Bindery.Schema.DataType
import Bindery.Schema.Dialect
import Bindery.Schema.Document
import Bindery.Schema.Element
import Bindery.Schema.Error
import Bindery.Schema.Grammar
import Bindery.Schema.Occurs
import Bindery.Schema.Reading
import Bindery.Schema.RelaxNg
import Bindery.Schema.Resolve
import Bindery.Schema.SimpleType
import Bindery.Schema.Xsd
import Bindery.Source.Doc
import Bindery.Source.Layout
import Bindery.Source.Layout.Comment
import Bindery.Source.Layout.Expr
import Bindery.Source.Layout.Item
import Bindery.Source.Layout.Shape
import Bindery.Source.Layout.Token
import Bindery.Source.Literal
import Bindery.Source.Reader
import Bindery.Source.Reading.Basic
import Bindery.Source.Reading.Expr
import Bindery.Source.Reading.Item
import Bindery.Source.Reading.Path
import Bindery.Source.Reading.Pattern
import Bindery.Source.Reading.Type
import Bindery.Source.Render
import Bindery.Source.Token
import Bindery.Source.Tree
import Bindery.Table
import Bindery.Text.Blank
import Bindery.Text.Case
import Bindery.Text.CharClass
import Bindery.Text.Identifier
import Bindery.Text.Letter
import Bindery.Text.Quoted
import Bindery.Text.Whitespace
import Bindery.Text.Words
