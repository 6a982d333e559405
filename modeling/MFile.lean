import MFile.Text.Blank
import MFile.Text.LineIndex
import MFile.Text.Quoted
import MFile.Text.Tabs
import MFile.Location
import MFile.Source.Loading
import MFile.Token.Basic
import MFile.Lexing.Scan
import MFile.Token.Buffer
import MFile.Report.Json
import MFile.Report.Document
import MFile.Report.Layout
import MFile.Tree.Node
import MFile.Tree.Walk
import MFile.Tree.Rendering
import MFile.Grammar.Error
import MFile.Grammar.Expr
import MFile.Grammar.File
import MFile.Proofs.Location
import MFile.Proofs.Text.Lookups
import MFile.Proofs.Lexing.Commas
import MFile.Proofs.Lexing.Lossless
import MFile.Proofs.Lexing.NumberRuns
import MFile.Proofs.Lexing.Places
import MFile.Proofs.Lexing.Quotes
import MFile.Proofs.Grammar.Soundness.Expression
import MFile.Proofs.Grammar.Precedence.Expression
import MFile.Proofs.Grammar.Functions.Omission
import MFile.Proofs.Grammar.Contents.Files
import MFile.Proofs.Grammar.Placement.Files
import MFile.Proofs.Grammar.Relayout.Separators
import MFile.Proofs.Grammar.Relayout.LineEnds
import MFile.Proofs.Grammar.Progress.Files
import MFile.Proofs.Tree.Graph
import MFile.Proofs.Grammar.Extent.Files
import MFile.Proofs.Report.Duplicates
import MFile.Proofs.Tree.Coverage
import MFile.Proofs.Grammar.Relayout.Continuations
import MFile.Proofs.Grammar.Relayout.Rows
import MFile.Proofs.Grammar.Relayout.Commands
import MFile.Proofs.Grammar.Placeholders.Files
import MFile.Proofs.Grammar.Placement.Colons
import MFile.Proofs.Report.Tallies
import MFile.Proofs.Report.Reading
import MFile.Proofs.Report.Parsing
import MFile.Proofs.Grammar.Onward.Files
import MFile.Proofs.Lexing.Comments
import MFile.Proofs.Lexing.StatementStarts
import MFile.Proofs.Token.Replay
import MFile.Proofs.Lexing.Quotations
import MFile.Proofs.Report.Carets
import MFile.Proofs.Grammar.Contents.Outline
import MFile.Proofs.Text.Tabs
import MFile.Proofs.Source.Decoding
import MFile.Proofs.Grammar.Indexing.Calls
import MFile.Proofs.Grammar.Spending.Files
import MFile.Proofs.Grammar.Frames.Files
import MFile.Proofs.Lexing.CommandText
import MFile.Proofs.Lexing.CommandHeads
import MFile.Proofs.Grammar.Functions.Nesting
import MFile.Proofs.Grammar.Parameters.Files
