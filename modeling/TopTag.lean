import TopTag.Text.Ranges
import TopTag.Text.Printable
import TopTag.Text.Utf8
import TopTag.Text.Quoted
import TopTag.Decimal.Shortest
import TopTag.Decimal.Layout
import TopTag.Measure
import TopTag.Tree.Basic
import TopTag.Fault
import TopTag.Tree.Place
import TopTag.Tree.Walk
import TopTag.Tree.Shown
import TopTag.Markup
import TopTag.FileContext
import TopTag.Topmost
import TopTag.Attribute
import TopTag.Log
import TopTag.DisplayPath
import TopTag.Settings.Basic
import TopTag.Tagging
import TopTag.Splice
import TopTag.Session
import TopTag.Message
import TopTag.Concrete.Node
import TopTag.Concrete.SourceText
import TopTag.Concrete.Conversion
import TopTag.TaggedText
import TopTag.Datum
import TopTag.Document.Cursor
import TopTag.Document.ScalarText
import TopTag.Document.Token
import TopTag.Document.Number
import TopTag.Document.Date
import TopTag.Document.Tag
import TopTag.Document.Node
import TopTag.Document.Value
import TopTag.Settings.File
import TopTag.Source.Cursor
import TopTag.Source.Lexeme
import TopTag.Source.Rule
import TopTag.Source.Semicolon
import TopTag.Source.Template
import TopTag.Source.Types
import TopTag.Source.Binding
import TopTag.Source.Markup
import TopTag.Source.Class
import TopTag.Source.Expression
import TopTag.Source.Statement
import TopTag.Source.Program
import TopTag.Proofs.Reach
import TopTag.Proofs.Marking
import TopTag.Proofs.Rendered
import TopTag.Proofs.Located
import TopTag.Proofs.Place
import TopTag.Proofs.Nesting
import TopTag.Proofs.Additions
import TopTag.Proofs.AddedVisits
import TopTag.Proofs.Unseen
import TopTag.Proofs.AdditionLaws
import TopTag.Proofs.Injected
import TopTag.Proofs.Passes
import TopTag.Proofs.Layout
import TopTag.Proofs.Weaving
import TopTag.Proofs.Insertions
import TopTag.Proofs.Growth
import TopTag.Proofs.Rules
import TopTag.Proofs.Counterparts
import TopTag.Proofs.Twins
import TopTag.Proofs.Anatomy
import TopTag.Proofs.Sources
import TopTag.Proofs.Converted
import TopTag.Proofs.TaggedSource
import TopTag.Proofs.Anchors
import TopTag.Proofs.Unfailing
import TopTag.Proofs.Numbering
import TopTag.Proofs.Stamped
import TopTag.Proofs.Rereading
import TopTag.Proofs.Sessions
import TopTag.Proofs.Decoding
import TopTag.Proofs.Wording
import TopTag.Proofs.Outline
import TopTag.Proofs.DefaultExport
import TopTag.Proofs.GrammarShape
import TopTag.Proofs.Census
import TopTag.Proofs.Conservation
import TopTag.Proofs.Ranges
import TopTag.Proofs.Collected
import TopTag.Proofs.Faults
import TopTag.Proofs.Simultaneous
import TopTag.Proofs.Wrapping
import TopTag.Proofs.WrappedVisits
import TopTag.Proofs.Transparency
import TopTag.Proofs.Dressing
import TopTag.Proofs.Malformed
import TopTag.Proofs.Quoting
import TopTag.Proofs.Classification
import TopTag.Proofs.Blanked
import TopTag.Proofs.Metadata
import TopTag.Proofs.Spellings
import TopTag.Proofs.Accepted
import TopTag.Proofs.Trimming
import TopTag.Proofs.DocumentOrder
import TopTag.Proofs.Branches
import TopTag.Proofs.CharacterIndex
