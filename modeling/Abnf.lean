import Abnf.Binary.Crc32
import Abnf.Binary.Decode
import Abnf.Binary.Encode
import Abnf.Binary.Error
import Abnf.Binary.Header
import Abnf.Binary.Strings
import Abnf.Binary.Tag
import Abnf.Binary.Word
import Abnf.Binding
import Abnf.CommandLine.Action
import Abnf.CommandLine.Command
import Abnf.CommandLine.Draft
import Abnf.CommandLine.LogLevel
import Abnf.CommandLine.Request
import Abnf.CommandLine.Run
import Abnf.CommandLine.Session
import Abnf.CommandLine.Usage
import Abnf.Compile
import Abnf.Compile.Assembly
import Abnf.Compile.NumVal
import Abnf.Compile.Options
import Abnf.Compile.Repeat
import Abnf.Diagnostic.Basic
import Abnf.Diagnostic.Kind
import Abnf.Diagnostic.Report
import Abnf.Document.Chunk
import Abnf.Document.Expr
import Abnf.Document.Lexer
import Abnf.Document.Parser
import Abnf.Document.Token
import Abnf.Document.Tree
import Abnf.Files.IoError
import Abnf.Files.Path
import Abnf.Files.Tree
import Abnf.Grammar.Basic
import Abnf.Grammar.Core
import Abnf.Grammar.FirstSet
import Abnf.Grammar.Include
import Abnf.Grammar.Node
import Abnf.Grammar.Optimize
import Abnf.Grammar.Pattern
import Abnf.Grammar.Render
import Abnf.Library.Document
import Abnf.Library.Loader
import Abnf.Library.Saved
import Abnf.Main
import Abnf.Match.Element
import Abnf.Match.Evaluate
import Abnf.Match.Json
import Abnf.Match.Occurrence
import Abnf.Match.Run
import Abnf.Match.Trace
import Abnf.Match.Trail
import Abnf.Proofs.Binary.Acceptance
import Abnf.Proofs.Binary.Bounds
import Abnf.Proofs.Binary.Checksum
import Abnf.Proofs.Binary.Corruption
import Abnf.Proofs.Binary.Decode
import Abnf.Proofs.Binary.Format
import Abnf.Proofs.Binary.Interning
import Abnf.Proofs.Binary.Machine
import Abnf.Proofs.Binary.Matching
import Abnf.Proofs.Binary.Outline
import Abnf.Proofs.Binary.Pattern
import Abnf.Proofs.Binary.Reading
import Abnf.Proofs.Binary.Records
import Abnf.Proofs.Binary.Resaving
import Abnf.Proofs.Binary.RoundTrip
import Abnf.Proofs.Binary.Strings
import Abnf.Proofs.Binary.Totality
import Abnf.Proofs.Binary.Word
import Abnf.Proofs.Binding
import Abnf.Proofs.Compile.Acceptance
import Abnf.Proofs.Compile.Alternatives
import Abnf.Proofs.Compile.Completeness
import Abnf.Proofs.Compile.Definitions
import Abnf.Proofs.Compile.DotSequences
import Abnf.Proofs.Compile.Incremental
import Abnf.Proofs.Compile.Layout
import Abnf.Proofs.Compile.LetterCase
import Abnf.Proofs.Compile.Likeness
import Abnf.Proofs.Compile.Listing
import Abnf.Proofs.Compile.Lowering
import Abnf.Proofs.Compile.Meaning
import Abnf.Proofs.Compile.Naming
import Abnf.Proofs.Compile.Patterns
import Abnf.Proofs.Compile.Places
import Abnf.Proofs.Compile.Proper
import Abnf.Proofs.Compile.Render
import Abnf.Proofs.Compile.RoundTrip
import Abnf.Proofs.Compile.Strings
import Abnf.Proofs.Compile.Structure
import Abnf.Proofs.Compile.Validity
import Abnf.Proofs.Compile.Values
import Abnf.Proofs.Document.Acceptance
import Abnf.Proofs.Document.Builder
import Abnf.Proofs.Document.Derivation
import Abnf.Proofs.Document.Faults
import Abnf.Proofs.Document.Joining
import Abnf.Proofs.Document.Leaves
import Abnf.Proofs.Document.LetterCase
import Abnf.Proofs.Document.Lexemes
import Abnf.Proofs.Document.Likeness
import Abnf.Proofs.Document.Machine
import Abnf.Proofs.Document.Meaning
import Abnf.Proofs.Document.Notation
import Abnf.Proofs.Document.Parallel
import Abnf.Proofs.Document.Reading
import Abnf.Proofs.Document.Reports
import Abnf.Proofs.Document.Standing
import Abnf.Proofs.Document.Tokens
import Abnf.Proofs.Document.Totality
import Abnf.Proofs.Except
import Abnf.Proofs.Grammar.Construction
import Abnf.Proofs.Grammar.FirstSet
import Abnf.Proofs.Grammar.Fixpoint
import Abnf.Proofs.Grammar.Include
import Abnf.Proofs.Grammar.Likeness
import Abnf.Proofs.Grammar.Meaning
import Abnf.Proofs.Grammar.Naming
import Abnf.Proofs.Grammar.Optimize
import Abnf.Proofs.Grammar.Pattern
import Abnf.Proofs.Grammar.Union
import Abnf.Proofs.Grammar.WellFormed
import Abnf.Proofs.Library.Documents
import Abnf.Proofs.Library.History
import Abnf.Proofs.Library.Loading
import Abnf.Proofs.Match.Alternatives
import Abnf.Proofs.Match.Answer
import Abnf.Proofs.Match.Arrival
import Abnf.Proofs.Match.Beyond
import Abnf.Proofs.Match.Boundaries
import Abnf.Proofs.Match.Frame
import Abnf.Proofs.Match.Fuel
import Abnf.Proofs.Match.Language
import Abnf.Proofs.Match.Missing
import Abnf.Proofs.Match.Nesting
import Abnf.Proofs.Match.Observation
import Abnf.Proofs.Match.Pruning
import Abnf.Proofs.Match.Reader
import Abnf.Proofs.Match.Reading
import Abnf.Proofs.Match.Regrouping
import Abnf.Proofs.Match.Repetition
import Abnf.Proofs.Match.Resemblance
import Abnf.Proofs.Match.Sharing
import Abnf.Proofs.Match.Shift
import Abnf.Proofs.Match.Termination
import Abnf.Proofs.Match.Tracing
import Abnf.Proofs.Match.Yields
import Abnf.Proofs.Text.Boundary
import Abnf.Proofs.Text.LeadingInt
import Abnf.Proofs.Text.Utf8
import Abnf.Span
import Abnf.Text.Blank
import Abnf.Text.Byte
import Abnf.Text.Case
import Abnf.Text.LeadingInt
import Abnf.Text.Number
import Abnf.Text.Utf8
import Abnf.Text.Visible
