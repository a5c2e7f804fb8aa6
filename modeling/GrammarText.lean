import GrammarText.Assembly
import GrammarText.Compile
import GrammarText.Data.Basic
import GrammarText.Data.Json
import GrammarText.Data.Numeral
import GrammarText.Data.Yaml
import GrammarText.Data.Yaml.Resolve
import GrammarText.Data.Yaml.Scalar
import GrammarText.Description.Basic
import GrammarText.Description.Builtin
import GrammarText.Description.Printer
import GrammarText.Description.Reader
import GrammarText.Description.Rule
import GrammarText.Diagnostic.Basic
import GrammarText.Diagnostic.Report
import GrammarText.Directory
import GrammarText.Grammar.Basic
import GrammarText.Grammar.Data
import GrammarText.Grammar.Declaration
import GrammarText.Grammar.Display
import GrammarText.Grammar.Terminals
import GrammarText.Journal
import GrammarText.Proofs.Assembly.Appended
import GrammarText.Proofs.Assembly.Order
import GrammarText.Proofs.Assembly.Placeless
import GrammarText.Proofs.Assembly.Specification
import GrammarText.Proofs.Assembly.Steps
import GrammarText.Proofs.Compile.Concatenation
import GrammarText.Proofs.Compile.FinalNewline
import GrammarText.Proofs.Compile.Layout
import GrammarText.Proofs.Compile.Returns
import GrammarText.Proofs.Compile.SourceMap
import GrammarText.Proofs.Data.Json
import GrammarText.Proofs.Data.Numeral
import GrammarText.Proofs.Data.Yaml
import GrammarText.Proofs.Data.Yaml.Scalar
import GrammarText.Proofs.Description.Layout
import GrammarText.Proofs.Description.Printed
import GrammarText.Proofs.Description.Reading
import GrammarText.Proofs.Diagnostic.Labels
import GrammarText.Proofs.Diagnostic.Results
import GrammarText.Proofs.Display.Faithful
import GrammarText.Proofs.Display.Lines
import GrammarText.Proofs.Display.Meanings
import GrammarText.Proofs.Display.Reads
import GrammarText.Proofs.Display.Render
import GrammarText.Proofs.Display.Spelling
import GrammarText.Proofs.Grammar.Data
import GrammarText.Proofs.Grammar.WellFormed
import GrammarText.Proofs.Parsing.Chosen
import GrammarText.Proofs.Parsing.Continuations
import GrammarText.Proofs.Parsing.Depth
import GrammarText.Proofs.Parsing.Derivation
import GrammarText.Proofs.Parsing.Indifference
import GrammarText.Proofs.Parsing.Leftover
import GrammarText.Proofs.Parsing.Misses
import GrammarText.Proofs.Parsing.Notation
import GrammarText.Proofs.Parsing.Openings
import GrammarText.Proofs.Parsing.Predictive
import GrammarText.Proofs.Parsing.Recursion
import GrammarText.Proofs.Parsing.Refusal
import GrammarText.Proofs.Parsing.Seams
import GrammarText.Proofs.Parsing.Settling
import GrammarText.Proofs.Parsing.Shed
import GrammarText.Proofs.Parsing.Trace
import GrammarText.Proofs.Parsing.Transfer
import GrammarText.Proofs.Reduction.Agreement
import GrammarText.Proofs.Reduction.Blocks
import GrammarText.Proofs.Reduction.Children
import GrammarText.Proofs.Reduction.Ends
import GrammarText.Proofs.Reduction.Faults
import GrammarText.Proofs.Reduction.Fits
import GrammarText.Proofs.Reduction.Frames
import GrammarText.Proofs.Reduction.InTurn
import GrammarText.Proofs.Reduction.Listed
import GrammarText.Proofs.Reduction.Mapped
import GrammarText.Proofs.Reduction.Moved
import GrammarText.Proofs.Reduction.Nodes
import GrammarText.Proofs.Reduction.Parametric
import GrammarText.Proofs.Reduction.Prose
import GrammarText.Proofs.Reduction.Provenance
import GrammarText.Proofs.Reduction.Readings
import GrammarText.Proofs.Reduction.Refines
import GrammarText.Proofs.Reduction.Same
import GrammarText.Proofs.Reduction.Shown
import GrammarText.Proofs.Reduction.Sources
import GrammarText.Proofs.Reduction.Yields
import GrammarText.Proofs.Scanning.Address
import GrammarText.Proofs.Scanning.Breaks
import GrammarText.Proofs.Scanning.Lexemes
import GrammarText.Proofs.Scanning.Lexes
import GrammarText.Proofs.Scanning.Mixed
import GrammarText.Proofs.Scanning.Munch
import GrammarText.Proofs.Scanning.Partition
import GrammarText.Proofs.Scanning.Patterns
import GrammarText.Proofs.Scanning.Places
import GrammarText.Proofs.Scanning.Returns
import GrammarText.Proofs.Scanning.Slices
import GrammarText.Proofs.Scanning.Spells
import GrammarText.Proofs.Scanning.Stands
import GrammarText.Proofs.Text.Blanks
import GrammarText.Proofs.Text.Bytes
import GrammarText.Proofs.Text.Place
import GrammarText.Proofs.Text.Quoted
import GrammarText.Proofs.Tree.Postorder
import GrammarText.Proofs.Variants.Basic
import GrammarText.Proofs.Variants.Exclusions
import GrammarText.Proofs.Variants.Lookaheads
import GrammarText.Proofs.Variants.Meaning
import GrammarText.Proofs.Variants.Names
import GrammarText.Proofs.Variants.OneOf
import GrammarText.Reduction
import GrammarText.Reduction.Definitions
import GrammarText.Reduction.Phrase
import GrammarText.Reduction.Reading
import GrammarText.Reduction.Symbols
import GrammarText.Span
import GrammarText.Text.Blank
import GrammarText.Text.Position
import GrammarText.Text.Quote
import GrammarText.Text.Split
import GrammarText.Text.WordChar
import GrammarText.Token.Basic
import GrammarText.Token.Class
import GrammarText.Token.Scanner
import GrammarText.Token.Word
import GrammarText.Tree.Attempt
import GrammarText.Tree.Basic
import GrammarText.Tree.Parse
import GrammarText.Tree.Tally
import GrammarText.Tree.Visitor
