import QueryDoc.Atom
import QueryDoc.Batch
import QueryDoc.CommandLine
import QueryDoc.Decimal.Binary64
import QueryDoc.Decimal.Layout
import QueryDoc.Decimal.Literal
import QueryDoc.Decimal.Shortest
import QueryDoc.Diagnostic.Cause
import QueryDoc.Diagnostic.ReadError
import QueryDoc.Diagnostic.Report
import QueryDoc.Document
import QueryDoc.Files.Path
import QueryDoc.Files.Search
import QueryDoc.Files.Tree
import QueryDoc.Files.Volume
import QueryDoc.Json.Basic
import QueryDoc.Json.Encoding
import QueryDoc.Keyed
import QueryDoc.Log
import QueryDoc.Log.Reading
import QueryDoc.Main
import QueryDoc.Operation
import QueryDoc.Proofs.Abreast.Basic
import QueryDoc.Proofs.Abreast.Document
import QueryDoc.Proofs.Abreast.Operation
import QueryDoc.Proofs.Abreast.Scanner
import QueryDoc.Proofs.Abreast.Token
import QueryDoc.Proofs.Abreast.Value
import QueryDoc.Proofs.Atom.Draft
import QueryDoc.Proofs.Atom.Grammar
import QueryDoc.Proofs.Atom.Inserting
import QueryDoc.Proofs.Atom.Reading
import QueryDoc.Proofs.Atom.Repeats
import QueryDoc.Proofs.Atom.RoundTrip
import QueryDoc.Proofs.Atom.Spelling
import QueryDoc.Proofs.Atom.WellFormed
import QueryDoc.Proofs.Batch.Found
import QueryDoc.Proofs.Batch.Isolation
import QueryDoc.Proofs.Checked.Calls
import QueryDoc.Proofs.Checked.Cursor
import QueryDoc.Proofs.Checked.Operation
import QueryDoc.Proofs.Checked.Token
import QueryDoc.Proofs.Checked.Value
import QueryDoc.Proofs.Completion.Basic
import QueryDoc.Proofs.Completion.Document
import QueryDoc.Proofs.Completion.Operation
import QueryDoc.Proofs.Completion.Value
import QueryDoc.Proofs.Continuation.Basic
import QueryDoc.Proofs.Continuation.Document
import QueryDoc.Proofs.Continuation.Operation
import QueryDoc.Proofs.Continuation.Token
import QueryDoc.Proofs.Continuation.Value
import QueryDoc.Proofs.Counted.Basic
import QueryDoc.Proofs.Counted.Calls
import QueryDoc.Proofs.Decimal.Digits
import QueryDoc.Proofs.Decimal.Layout
import QueryDoc.Proofs.Decimal.Rounding
import QueryDoc.Proofs.Decimal.Shortest
import QueryDoc.Proofs.Depth.Document
import QueryDoc.Proofs.Depth.Value
import QueryDoc.Proofs.Diagnostic.Places
import QueryDoc.Proofs.Diagnostic.Snippet
import QueryDoc.Proofs.Document.Assembled
import QueryDoc.Proofs.Document.Lines
import QueryDoc.Proofs.Document.Reading
import QueryDoc.Proofs.Document.Respelling
import QueryDoc.Proofs.Document.RoundTrip
import QueryDoc.Proofs.Document.Sequel
import QueryDoc.Proofs.Document.Solid
import QueryDoc.Proofs.Document.WellFormed
import QueryDoc.Proofs.Files.Volume
import QueryDoc.Proofs.Grammar.Basic
import QueryDoc.Proofs.Grammar.Extension
import QueryDoc.Proofs.Grammar.Separated
import QueryDoc.Proofs.Grammar.Suffix
import QueryDoc.Proofs.Grammar.Truncation
import QueryDoc.Proofs.Json.Encoding
import QueryDoc.Proofs.Json.Finite
import QueryDoc.Proofs.Json.KeyOrder
import QueryDoc.Proofs.Json.Shape
import QueryDoc.Proofs.Json.Text
import QueryDoc.Proofs.Json.Token
import QueryDoc.Proofs.Nesting
import QueryDoc.Proofs.Operation.Reading
import QueryDoc.Proofs.Progress.Loops
import QueryDoc.Proofs.Progress.Readers
import QueryDoc.Proofs.Reading.Advance
import QueryDoc.Proofs.Reading.Basic
import QueryDoc.Proofs.Reading.InTurn
import QueryDoc.Proofs.Reading.Loop
import QueryDoc.Proofs.Reading.Readers
import QueryDoc.Proofs.Reading.Token
import QueryDoc.Proofs.Selection.Balance
import QueryDoc.Proofs.Selection.Body
import QueryDoc.Proofs.Selection.Reading
import QueryDoc.Proofs.Selection.RoundTrip
import QueryDoc.Proofs.Selection.Scan
import QueryDoc.Proofs.Selection.Tidy
import QueryDoc.Proofs.Session.Assembly
import QueryDoc.Proofs.Session.Input
import QueryDoc.Proofs.Session.Pending
import QueryDoc.Proofs.Session.Reports
import QueryDoc.Proofs.Session.Rerun
import QueryDoc.Proofs.Session.Tally
import QueryDoc.Proofs.Source.ByteSearch
import QueryDoc.Proofs.Source.Ignored
import QueryDoc.Proofs.Source.LineBreak
import QueryDoc.Proofs.Source.Position
import QueryDoc.Proofs.Source.Stretch
import QueryDoc.Proofs.Source.Until
import QueryDoc.Proofs.Style.SameTokens
import QueryDoc.Proofs.Style.Steady
import QueryDoc.Proofs.Style.Tokens
import QueryDoc.Proofs.Text.Lines
import QueryDoc.Proofs.Text.Tight
import QueryDoc.Proofs.Text.Trim
import QueryDoc.Proofs.TypeRef.Reading
import QueryDoc.Proofs.TypeRef.RoundTrip
import QueryDoc.Proofs.Variable.Reading
import QueryDoc.Reading.Basic
import QueryDoc.Reading.Token
import QueryDoc.Selection
import QueryDoc.Session
import QueryDoc.Source.Alphabet
import QueryDoc.Source.Position
import QueryDoc.Source.Scanner
import QueryDoc.Style
import QueryDoc.Text.Escape
import QueryDoc.Text.Layout
import QueryDoc.Text.Unseen
import QueryDoc.Text.Utf8
import QueryDoc.TypeRef
import QueryDoc.Variable
