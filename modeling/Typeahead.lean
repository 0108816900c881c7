import Typeahead.Address
import Typeahead.Alignment
import Typeahead.Binary64
import Typeahead.CommandLine
import Typeahead.CommandLine.Arguments
import Typeahead.CommandLine.Commands
import Typeahead.CommandLine.Report
import Typeahead.Decimal
import Typeahead.Fields
import Typeahead.Grammar
import Typeahead.Grammar.Defect
import Typeahead.Inspect
import Typeahead.Literal
import Typeahead.Literal.Shelf
import Typeahead.Literal.Slices
import Typeahead.Main
import Typeahead.Numbered.Desk
import Typeahead.Numbered.Inquiry
import Typeahead.Numbered.Resolution
import Typeahead.Numbered.Session
import Typeahead.Numbered.Store
import Typeahead.Numbered.Tree
import Typeahead.Output
import Typeahead.Output.Ranking
import Typeahead.Output.Words
import Typeahead.Progress
import Typeahead.Proofs.Acceptance
import Typeahead.Proofs.Alignment
import Typeahead.Proofs.BestFit
import Typeahead.Proofs.Binary64
import Typeahead.Proofs.CaseVariants
import Typeahead.Proofs.Cells
import Typeahead.Proofs.Course
import Typeahead.Proofs.Defects
import Typeahead.Proofs.Deletion
import Typeahead.Proofs.Derivation
import Typeahead.Proofs.Display
import Typeahead.Proofs.Enumeration
import Typeahead.Proofs.Exchange
import Typeahead.Proofs.Exploration
import Typeahead.Proofs.Growth
import Typeahead.Proofs.Guard
import Typeahead.Proofs.History
import Typeahead.Proofs.Inquiries
import Typeahead.Proofs.Interleaving
import Typeahead.Proofs.Interpretation
import Typeahead.Proofs.Laziness
import Typeahead.Proofs.Leniency
import Typeahead.Proofs.Memory
import Typeahead.Proofs.Merging
import Typeahead.Proofs.Mirroring
import Typeahead.Proofs.Narrowing
import Typeahead.Proofs.Numbering
import Typeahead.Proofs.Numbers
import Typeahead.Proofs.Overrides
import Typeahead.Proofs.Pass
import Typeahead.Proofs.Persistence
import Typeahead.Proofs.Progress
import Typeahead.Proofs.Provenance
import Typeahead.Proofs.Ranking
import Typeahead.Proofs.Reading
import Typeahead.Proofs.Recognition
import Typeahead.Proofs.Refactoring
import Typeahead.Proofs.Registry
import Typeahead.Proofs.Renewal
import Typeahead.Proofs.Run
import Typeahead.Proofs.Scattering
import Typeahead.Proofs.Scores
import Typeahead.Proofs.Simulation
import Typeahead.Proofs.Slices
import Typeahead.Proofs.Standing
import Typeahead.Proofs.Survey
import Typeahead.Proofs.Termination
import Typeahead.Proofs.Unfolding
import Typeahead.Proofs.Values
import Typeahead.Proofs.Visits
import Typeahead.Proofs.Words
import Typeahead.Registry
import Typeahead.Resolution
import Typeahead.Run
import Typeahead.Search
import Typeahead.Search.Patterns
import Typeahead.Session
import Typeahead.Session.Desk
import Typeahead.Session.Pass
import Typeahead.Session.Path
import Typeahead.Session.Snapshot
import Typeahead.Text
import Typeahead.Text.Case
import Typeahead.Text.GraphemeExtend
import Typeahead.Text.Pattern
import Typeahead.Text.Quoted
import Typeahead.Text.Slice
import Typeahead.Text.Spelling
import Typeahead.Text.Unprintable
import Typeahead.Trace
import Typeahead.Value
import Typeahead.Value.Printer
