import Spintax.CommandLine
import Spintax.CommandLine.Arguments
import Spintax.CommandLine.Run
import Spintax.CommandLine.Session
import Spintax.Diagnostic
import Spintax.Diagnostic.Highlight
import Spintax.Document
import Spintax.Edit
import Spintax.Edit.Json
import Spintax.Files
import Spintax.Files.Memory
import Spintax.History
import Spintax.Json
import Spintax.Json.Printer
import Spintax.Json.Reader
import Spintax.Json.Record
import Spintax.Json.Token
import Spintax.Lexeme
import Spintax.Lexeme.Matching
import Spintax.Main
import Spintax.Node
import Spintax.Node.Canonical
import Spintax.Node.Json
import Spintax.Node.Source
import Spintax.Node.WellFormed
import Spintax.Path
import Spintax.Proofs.Acceptance
import Spintax.Proofs.Answers
import Spintax.Proofs.Availability
import Spintax.Proofs.Batches
import Spintax.Proofs.Braces
import Spintax.Proofs.Canonical
import Spintax.Proofs.ChildRules
import Spintax.Proofs.CleanTexts
import Spintax.Proofs.Conservation
import Spintax.Proofs.Counting
import Spintax.Proofs.CutPairs
import Spintax.Proofs.Cutting
import Spintax.Proofs.DeepBraces
import Spintax.Proofs.Depth
import Spintax.Proofs.DepthLimit
import Spintax.Proofs.Documents
import Spintax.Proofs.Encodings
import Spintax.Proofs.FirstPass
import Spintax.Proofs.Formatting
import Spintax.Proofs.Highlights
import Spintax.Proofs.Histories
import Spintax.Proofs.Insertions
import Spintax.Proofs.Legible
import Spintax.Proofs.LegibleRuns
import Spintax.Proofs.LineEndings
import Spintax.Proofs.Listing
import Spintax.Proofs.Meaning
import Spintax.Proofs.Moves
import Spintax.Proofs.Mutations
import Spintax.Proofs.Normal
import Spintax.Proofs.OnePass
import Spintax.Proofs.PathTexts
import Spintax.Proofs.Places
import Spintax.Proofs.PlainTrees
import Spintax.Proofs.Positions
import Spintax.Proofs.RoundTrip
import Spintax.Proofs.Rules
import Spintax.Proofs.Runs
import Spintax.Proofs.Sampling
import Spintax.Proofs.ScriptRuns
import Spintax.Proofs.Settling
import Spintax.Proofs.Slices
import Spintax.Proofs.Steps
import Spintax.Proofs.Thinned
import Spintax.Proofs.Tidiness
import Spintax.Proofs.Timelines
import Spintax.Proofs.Tokens
import Spintax.Proofs.Trimming
import Spintax.Proofs.UndoRedo
import Spintax.Proofs.Updates
import Spintax.Proofs.Violations
import Spintax.Proofs.Zipper
import Spintax.Reading
import Spintax.Reading.Checked
import Spintax.Reading.OnePass
import Spintax.Sampling
import Spintax.Sampling.Draws
import Spintax.Sampling.Seeded
import Spintax.Script
import Spintax.Script.Json
import Spintax.Settings
import Spintax.Text.Blank
import Spintax.Text.Normal
import Spintax.Text.Numeral
import Spintax.Text.Width
import Spintax.Variations
import Spintax.Variations.Exact
import Spintax.Variations.Listing
