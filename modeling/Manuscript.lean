import Manuscript.Main
import Manuscript.Text.Span
import Manuscript.Proofs.Outcome
import Manuscript.Proofs.Placeholder.Restoration
import Manuscript.Proofs.Markup.Spelling
import Manuscript.Proofs.Markup.Construct
import Manuscript.Proofs.Markup.Fragment
import Manuscript.Proofs.Markup.Token
import Manuscript.Proofs.Placeholder.Conservation
import Manuscript.Proofs.Dict
import Manuscript.Proofs.Markup.Mapping
import Manuscript.Proofs.Markup.Kinds
import Manuscript.Proofs.Placeholder.Macros
import Manuscript.Proofs.Filling
import Manuscript.Proofs.Everywhere
import Manuscript.Proofs.Footnotes
import Manuscript.Proofs.Count
import Manuscript.Proofs.Resolution.Replay
import Manuscript.Proofs.Resolution.Counters
import Manuscript.Proofs.Reserved.Clean
import Manuscript.Proofs.Reserved.Tidy
import Manuscript.Proofs.Reserved.Header
import Manuscript.Proofs.Reserved.Reading
import Manuscript.Proofs.Reserved.Resolving
import Manuscript.Proofs.Reserved.Steps
import Manuscript.Proofs.Reserved.Blocks
import Manuscript.Proofs.Reserved.Check
import Manuscript.Proofs.Reserved.Document
import Manuscript.Proofs.Markup.Range
import Manuscript.Proofs.Markup.Visible
import Manuscript.Proofs.Markup.Lossless
import Manuscript.Proofs.Variation
import Manuscript.Proofs.Lockstep
import Manuscript.Proofs.Tracing
import Manuscript.Proofs.Steady
import Manuscript.Proofs.Directive
import Manuscript.Proofs.Directive.Acceptance
import Manuscript.Proofs.Directive.Modifiers
import Manuscript.Proofs.Footnotes.Steps
import Manuscript.Proofs.Footnotes.Paragraphs
import Manuscript.Proofs.Grammar.Expression
import Manuscript.Proofs.Grammar.Rules
import Manuscript.Proofs.Grammar.Builder
import Manuscript.Proofs.Grammar.Reading
import Manuscript.Proofs.Grammar.Building
import Manuscript.Proofs.Grammar.Constructs
import Manuscript.Proofs.Grammar.Words
import Manuscript.Proofs.Grammar.Numbers
import Manuscript.Proofs.Grammar.Contents
import Manuscript.Proofs.Grammar.Macros
import Manuscript.Proofs.Grammar.Opening
import Manuscript.Proofs.Grammar.Quotes
import Manuscript.Proofs.Encoding.Field
import Manuscript.Proofs.Encoding.RoundTrip
import Manuscript.Proofs.Encoding.Decoded
import Manuscript.Proofs.Skeleton
import Manuscript.Proofs.Passthroughs.Basic
import Manuscript.Proofs.Passthroughs.Steps
import Manuscript.Proofs.Escaping.Basic
import Manuscript.Proofs.Escaping.Reading
import Manuscript.Proofs.Escaping.Outline
import Manuscript.Proofs.Escaping.Counters
import Manuscript.Proofs.Escaping.Steps
import Manuscript.Proofs.Grammar.Agreement
import Manuscript.Proofs.Dispatch
import Manuscript.Proofs.Header.Scan
import Manuscript.Proofs.Overrides
import Manuscript.Proofs.Header.Replay
import Manuscript.Proofs.Splitting
import Manuscript.Proofs.Titles
import Manuscript.Proofs.LineBreaks.Basic
import Manuscript.Proofs.LineBreaks.Reading
import Manuscript.Proofs.LineBreaks.Steps
import Manuscript.Proofs.Rereading.Regular
import Manuscript.Proofs.Rereading.Lines
import Manuscript.Proofs.Rereading.Leftovers
import Manuscript.Proofs.Rereading.Symbols
import Manuscript.Proofs.Rereading.Steps
import Manuscript.Proofs.LineCount
import Manuscript.Proofs.Captions.Basic
import Manuscript.Proofs.Captions.Reading
import Manuscript.Proofs.Captions.Images
import Manuscript.Proofs.Captions.Steps
import Manuscript.Proofs.Placeholder.Gathering
import Manuscript.Proofs.Resolution.Answered
import Manuscript.Proofs.Markup.Callouts
import Manuscript.Proofs.Markup.Intraword
import Manuscript.Proofs.Rereading.Prose
import Manuscript.Proofs.Identifiers.Runs
import Manuscript.Proofs.Placeholder.Failure
import Manuscript.Proofs.Places
import Manuscript.Proofs.Attribution
import Manuscript.Proofs.Identifiers.Titles
import Manuscript.Proofs.Location
import Manuscript.Proofs.Words
import Manuscript.Proofs.Header.Credits
import Manuscript.Proofs.Header.Authors
import Manuscript.Proofs.Merged
import Manuscript.Proofs.Canonical.Reading
import Manuscript.Proofs.Canonical.Steps
import Manuscript.Proofs.Merging
import Manuscript.Proofs.Joining
import Manuscript.Proofs.Traversal
import Manuscript.Proofs.Reserved.Labels
