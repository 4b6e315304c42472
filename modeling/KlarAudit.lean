import KlarAudit.Arena.Basic
import KlarAudit.Arena.Parse
import KlarAudit.Arena.UnsafeRegion
import KlarAudit.Audit.Run
import KlarAudit.Audit.Selection
import KlarAudit.Audit.Source
import KlarAudit.Command.Auditing
import KlarAudit.Command.Invocation
import KlarAudit.Command.Listing
import KlarAudit.Command.Option
import KlarAudit.Command.Outcome
import KlarAudit.Decimal.Binary64
import KlarAudit.Decimal.Layout
import KlarAudit.Decimal.Shortest
import KlarAudit.File.Glob
import KlarAudit.File.Path
import KlarAudit.File.Tree
import KlarAudit.Format.Json
import KlarAudit.Format.Markup
import KlarAudit.Format.Plain
import KlarAudit.Grammar.Attempt
import KlarAudit.Grammar.Declaration
import KlarAudit.Grammar.Delimiter
import KlarAudit.Grammar.Enumeration
import KlarAudit.Grammar.Forest
import KlarAudit.Grammar.Function
import KlarAudit.Grammar.Generic
import KlarAudit.Grammar.Issue
import KlarAudit.Grammar.Lexeme
import KlarAudit.Grammar.Opening
import KlarAudit.Grammar.Parser
import KlarAudit.Grammar.Preamble
import KlarAudit.Grammar.Run
import KlarAudit.Grammar.Structure
import KlarAudit.Main
import KlarAudit.Naming.Convention
import KlarAudit.Naming.Word
import KlarAudit.Proofs.Arena.BlockExtent
import KlarAudit.Proofs.Arena.Body
import KlarAudit.Proofs.Arena.BodyTokens
import KlarAudit.Proofs.Arena.Complete
import KlarAudit.Proofs.Arena.Documentation
import KlarAudit.Proofs.Arena.FunctionBody
import KlarAudit.Proofs.Arena.Justification
import KlarAudit.Proofs.Arena.Laminar
import KlarAudit.Proofs.Arena.Layout
import KlarAudit.Proofs.Arena.Links
import KlarAudit.Proofs.Arena.Prefix
import KlarAudit.Proofs.Arena.Slots
import KlarAudit.Proofs.Arena.Starts
import KlarAudit.Proofs.Arena.TypeSource
import KlarAudit.Proofs.Arena.UnsafeAudit
import KlarAudit.Proofs.Audit.Discovery
import KlarAudit.Proofs.Command.Completion
import KlarAudit.Proofs.Grammar.Balance
import KlarAudit.Proofs.Grammar.Complete
import KlarAudit.Proofs.Grammar.Counterpart
import KlarAudit.Proofs.Grammar.CounterpartForest
import KlarAudit.Proofs.Grammar.DeclarationStart
import KlarAudit.Proofs.Grammar.Division
import KlarAudit.Proofs.Grammar.DocBlock
import KlarAudit.Proofs.Grammar.IssueCount
import KlarAudit.Proofs.Grammar.MissingComma
import KlarAudit.Proofs.Grammar.Nesting
import KlarAudit.Proofs.Grammar.Origin
import KlarAudit.Proofs.Grammar.OriginForest
import KlarAudit.Proofs.Grammar.Phrase
import KlarAudit.Proofs.Grammar.Production
import KlarAudit.Proofs.Grammar.Progress
import KlarAudit.Proofs.Grammar.Reading
import KlarAudit.Proofs.Grammar.Recovery
import KlarAudit.Proofs.Grammar.Rendering
import KlarAudit.Proofs.Grammar.Surface
import KlarAudit.Proofs.Grammar.Taken
import KlarAudit.Proofs.Grammar.TypeSpelling
import KlarAudit.Proofs.Grammar.Written
import KlarAudit.Proofs.Naming.Convention
import KlarAudit.Proofs.Naming.Word
import KlarAudit.Proofs.Report.Accounting
import KlarAudit.Proofs.Report.Merge
import KlarAudit.Proofs.Report.Order
import KlarAudit.Proofs.Report.Selection
import KlarAudit.Proofs.Report.StableSort
import KlarAudit.Proofs.Rule.BoolName
import KlarAudit.Proofs.Rule.BoundsEvidence
import KlarAudit.Proofs.Rule.CallExtent
import KlarAudit.Proofs.Rule.Discard
import KlarAudit.Proofs.Rule.LoggedSecret
import KlarAudit.Proofs.Rule.Place
import KlarAudit.Proofs.Rule.Reference
import KlarAudit.Proofs.Rule.ResultType
import KlarAudit.Proofs.Settings.InForce
import KlarAudit.Proofs.Settings.Load
import KlarAudit.Proofs.Settings.Reading
import KlarAudit.Proofs.Source.LineIndex
import KlarAudit.Proofs.Source.Lines
import KlarAudit.Proofs.Token.CharLiteral
import KlarAudit.Proofs.Token.Lookup
import KlarAudit.Proofs.Token.Lossless
import KlarAudit.Proofs.Token.Munch
import KlarAudit.Proofs.Token.Restart
import KlarAudit.Proofs.Token.Scanned
import KlarAudit.Proofs.Token.TakenWhole
import KlarAudit.Proofs.Token.Word
import KlarAudit.Report.Basic
import KlarAudit.Report.Finding
import KlarAudit.Report.Render
import KlarAudit.Rule.Basic
import KlarAudit.Rule.Catalogue
import KlarAudit.Rule.Documentation
import KlarAudit.Rule.Emission
import KlarAudit.Rule.Fallibility
import KlarAudit.Rule.Identifier
import KlarAudit.Rule.Interface
import KlarAudit.Rule.Logging
import KlarAudit.Rule.Ownership
import KlarAudit.Rule.UnsafeBlock
import KlarAudit.Search.PartitionPoint
import KlarAudit.Search.SignedIndex
import KlarAudit.Settings.Environment
import KlarAudit.Settings.Error
import KlarAudit.Settings.Load
import KlarAudit.Settings.RuleSet
import KlarAudit.Settings.Value
import KlarAudit.Source.LineIndex
import KlarAudit.Source.Position
import KlarAudit.Source.Span
import KlarAudit.Text.Affix
import KlarAudit.Text.Blank
import KlarAudit.Text.Bracketed
import KlarAudit.Text.Digit
import KlarAudit.Text.Divided
import KlarAudit.Text.Integer
import KlarAudit.Text.Printable
import KlarAudit.Text.Quoted
import KlarAudit.Text.Utf8
import KlarAudit.Token.Basic
import KlarAudit.Token.Context
import KlarAudit.Token.Scan
import KlarAudit.Token.Stream
import KlarAudit.Yaml.Cursor
import KlarAudit.Yaml.Directive
import KlarAudit.Yaml.Fault
import KlarAudit.Yaml.Load
import KlarAudit.Yaml.Merge
import KlarAudit.Yaml.Node
import KlarAudit.Yaml.Quotation
import KlarAudit.Yaml.Scalar
import KlarAudit.Yaml.Token
