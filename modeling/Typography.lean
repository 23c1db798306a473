import Typography.Text.Blank
import Typography.Text.Digit
import Typography.Tree
import Typography.Token.Basic
import Typography.Stylesheet.Reader
import Typography.Stylesheet.Layout
import Typography.Document.Edit
import Typography.Length
import Typography.Shorthand.Values
import Typography.Options.Json
import Typography.Options.Toml
import Typography.Expansion.Pass
import Typography.Main
import Typography.Proofs.Document.Linked
import Typography.Proofs.Document.Steps
import Typography.Proofs.Document.Lineage
import Typography.Proofs.Document.Branch
import Typography.Proofs.Document.Descendants
import Typography.Proofs.Document.Edits
import Typography.Proofs.Document.Invariant
import Typography.Proofs.Document.Place
import Typography.Proofs.Document.Graft
import Typography.Proofs.Expansion.Passing
import Typography.Proofs.Expansion.Rewrite
import Typography.Proofs.Expansion.Replacement
import Typography.Proofs.Expansion.Run
import Typography.Proofs.Document.History
import Typography.Proofs.Expansion.Refinement
import Typography.Proofs.Token.Locality
import Typography.Proofs.Stylesheet.Locality
import Typography.Proofs.Stylesheet.Mark
import Typography.Proofs.Stylesheet.Written
import Typography.Proofs.Stylesheet.Met
import Typography.Proofs.Stylesheet.Settled
import Typography.Proofs.Stylesheet.Tame
import Typography.Proofs.Text.Trim
import Typography.Proofs.Stylesheet.PlainNode
import Typography.Proofs.Stylesheet.Plain
import Typography.Proofs.Stylesheet.Ink
import Typography.Proofs.Stylesheet.OpenEnd
import Typography.Proofs.Stylesheet.ReadBack
import Typography.Proofs.Stylesheet.Canonical
import Typography.Proofs.Expansion.Output
import Typography.Proofs.Expansion.PlainOutput
import Typography.Proofs.Document.Forest
import Typography.Proofs.Expansion.Progress
import Typography.Proofs.Expansion.Outcome
import Typography.Proofs.Stylesheet.Grouping
import Typography.Proofs.Stylesheet.TwoPhase
import Typography.Proofs.Stylesheet.Significant
import Typography.Proofs.Stylesheet.Stretch
import Typography.Proofs.Stylesheet.Kept
import Typography.Proofs.Stylesheet.Stored
import Typography.Proofs.Document.Refusal
import Typography.Proofs.Expansion.Frame
import Typography.Proofs.Expansion.Again
import Typography.Proofs.Source.Position
import Typography.Proofs.Stylesheet.Place
import Typography.Proofs.Stylesheet.Spanned
import Typography.Proofs.Stylesheet.Begun
import Typography.Proofs.Stylesheet.Heads
import Typography.Proofs.Document.Spans
import Typography.Proofs.Document.Shown
import Typography.Proofs.Expansion.Stray
import Typography.Proofs.Document.FileName
import Typography.Proofs.Expansion.FileName
import Typography.Proofs.Files.ReadBack
import Typography.Proofs.Pipeline.Entry
import Typography.Proofs.Options.TomlString
import Typography.Proofs.Options.Toml
import Typography.Proofs.CommandLine.Steps
import Typography.Proofs.CommandLine.Entries
import Typography.Proofs.CommandLine.AllOrNothing
import Typography.Proofs.Document.Insertion
import Typography.Proofs.Document.Removal
import Typography.Proofs.Document.Substitution
import Typography.Proofs.Shorthand.Reference
import Typography.Proofs.Number.Leading
import Typography.Proofs.Number.Positional
import Typography.Proofs.Shorthand.Conversion
import Typography.Proofs.Expansion.Count
import Typography.Proofs.Stylesheet.Declaration
import Typography.Proofs.Stylesheet.Outline
import Typography.Proofs.Stylesheet.Loose
import Typography.Proofs.Shorthand.Position
import Typography.Proofs.Document.Traversal
import Typography.Proofs.Options.Json
import Typography.Proofs.Stylesheet.Progress
import Typography.Proofs.Text.Bytes
import Typography.Proofs.Stylesheet.Important
