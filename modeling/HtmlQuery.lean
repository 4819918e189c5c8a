import HtmlQuery.CommandLine.Arguments
import HtmlQuery.CommandLine.Colour
import HtmlQuery.CommandLine.Json
import HtmlQuery.CommandLine.Program
import HtmlQuery.CommandLine.Summary
import HtmlQuery.CommandLine.Verbosity
import HtmlQuery.Element.Attributes
import HtmlQuery.Element.Basic
import HtmlQuery.Element.Rules
import HtmlQuery.Element.Strainer
import HtmlQuery.Main
import HtmlQuery.Proofs.Tree.Ancestry
import HtmlQuery.Proofs.Tree.Links
import HtmlQuery.Reference.Decode
import HtmlQuery.Reference.Escape
import HtmlQuery.Reference.Table
import HtmlQuery.Selector.AttributeCondition
import HtmlQuery.Selector.Basic
import HtmlQuery.Selector.CachedMatching
import HtmlQuery.Selector.Matching
import HtmlQuery.Selector.Nth
import HtmlQuery.Selector.PseudoClass
import HtmlQuery.Selector.PseudoName
import HtmlQuery.Selector.Query
import HtmlQuery.Selector.Read
import HtmlQuery.Selector.RecencyCache
import HtmlQuery.Selector.SelectorCache
import HtmlQuery.Selector.Session
import HtmlQuery.Source.Cursor
import HtmlQuery.Source.Location
import HtmlQuery.Text.AsciiCase
import HtmlQuery.Text.CaseTable
import HtmlQuery.Text.Int64
import HtmlQuery.Text.Lowercase
import HtmlQuery.Text.Quoted
import HtmlQuery.Text.Search
import HtmlQuery.Text.UnprintableTable
import HtmlQuery.Text.Whitespace
import HtmlQuery.Token.Basic
import HtmlQuery.Token.Scan
import HtmlQuery.Token.Scanner
import HtmlQuery.Tree.Basic
import HtmlQuery.Tree.Branch
import HtmlQuery.Tree.Build
import HtmlQuery.Tree.Dialect
import HtmlQuery.Tree.Edit
import HtmlQuery.Tree.Outline
import HtmlQuery.Tree.Strings
import HtmlQuery.Tree.Walk
import HtmlQuery.Warnings
import HtmlQuery.Proofs.Tree.WellFormed
import HtmlQuery.Proofs.Selector.Answers
import HtmlQuery.Proofs.Selector.Placement
import HtmlQuery.Proofs.Tree.Layout
import HtmlQuery.Proofs.Tree.Spine
import HtmlQuery.Proofs.Token.Stream
import HtmlQuery.Proofs.Tree.Building
import HtmlQuery.Proofs.Tree.Content
import HtmlQuery.Proofs.Reference.RoundTrip
import HtmlQuery.Proofs.Token.Written
import HtmlQuery.Proofs.Tree.Reading
import HtmlQuery.Proofs.Tree.Canonical
import HtmlQuery.Proofs.Selector.Nested
import HtmlQuery.Proofs.Selector.Calls
import HtmlQuery.Proofs.Text.Lowercase
import HtmlQuery.Proofs.Token.Scanned
import HtmlQuery.Proofs.Tree.Shape
import HtmlQuery.Proofs.Tree.NormalForm
import HtmlQuery.Proofs.Selector.Grammar
import HtmlQuery.Proofs.Selector.ReadBack
import HtmlQuery.Proofs.Tree.Refusal
import HtmlQuery.Proofs.Tree.Straining
import HtmlQuery.Proofs.Tree.Unquoted
import HtmlQuery.Proofs.Source.Encoding
import HtmlQuery.Proofs.Source.Bytewise
import HtmlQuery.Proofs.Reference.Bytewise
import HtmlQuery.Proofs.Reference.SinglePass
import HtmlQuery.Proofs.Token.Bytewise
import HtmlQuery.Proofs.Token.Requests
import HtmlQuery.Proofs.Tree.Size
import HtmlQuery.Proofs.Tree.Total
import HtmlQuery.Proofs.Tree.DocumentOrder
import HtmlQuery.Proofs.Selector.Queries
import HtmlQuery.Proofs.Tree.Insertion
import HtmlQuery.Proofs.Tree.Walks
import HtmlQuery.Proofs.Tree.OmittedEnds
import HtmlQuery.Proofs.Tree.Locations
import HtmlQuery.Proofs.Selector.Union
import HtmlQuery.Proofs.Selector.QuotedValues
import HtmlQuery.Proofs.Selector.Degradation
import HtmlQuery.Proofs.Selector.Formulas
import HtmlQuery.Proofs.Tree.Noting
import HtmlQuery.Proofs.Selector.Relatives
import HtmlQuery.Proofs.Selector.Positions
import HtmlQuery.Proofs.Selector.FormulaTexts
import HtmlQuery.Proofs.Element.AttributeHistory
import HtmlQuery.Proofs.Selector.RecencyTable
import HtmlQuery.Proofs.Selector.Recency
import HtmlQuery.Proofs.Selector.Ending
import HtmlQuery.Proofs.Selector.Requests
import HtmlQuery.Proofs.Selector.Hits
import HtmlQuery.Proofs.Tree.OutlineLines
import HtmlQuery.Proofs.Tree.Texts
import HtmlQuery.Proofs.Token.Prose
import HtmlQuery.Proofs.Tree.WrittenText
import HtmlQuery.Proofs.Warnings
import HtmlQuery.Proofs.CommandLine.Colour
import HtmlQuery.Proofs.Selector.GroupShape
import HtmlQuery.Proofs.Source.Bookkeeping
