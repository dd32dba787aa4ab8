import PatternAutomata.Automaton.Language
import PatternAutomata.Automaton.WellFormed
import PatternAutomata.Proofs.Canonical.Marking
import PatternAutomata.Proofs.Canonical.Naming
import PatternAutomata.Proofs.Canonical.Passes
import PatternAutomata.Proofs.Grammar.DepthLimit
import PatternAutomata.Proofs.Grammar.Failures
import PatternAutomata.Proofs.Grammar.Partners
import PatternAutomata.Proofs.Grammar.Positions
import PatternAutomata.Proofs.Grammar.Printing
import PatternAutomata.Proofs.Grammar.Rereading
import PatternAutomata.Proofs.Grammar.Spans
import PatternAutomata.Proofs.Patterns.Alternatives
import PatternAutomata.Proofs.Patterns.Copies
import PatternAutomata.Proofs.Patterns.Independence
import PatternAutomata.Proofs.Patterns.Nesting
import PatternAutomata.Proofs.Patterns.Smallest
import PatternAutomata.Proofs.Patterns.Strictness
import PatternAutomata.Proofs.Patterns.Trees
import PatternAutomata.Proofs.Patterns.Unfolding
import PatternAutomata.Proofs.Structure.Checking
import PatternAutomata.Proofs.Structure.Collected
import PatternAutomata.Proofs.Structure.Layers
import PatternAutomata.Proofs.Structure.Ownership
import PatternAutomata.Proofs.Structure.Tidy
import PatternAutomata.Proofs.Structure.Undoing
import PatternAutomata.Proofs.Words.Appending
import PatternAutomata.Proofs.Words.Elimination
import PatternAutomata.Proofs.Words.Listing
import PatternAutomata.Proofs.Words.Merging
import PatternAutomata.Proofs.Words.Notes
import PatternAutomata.Proofs.Words.Tracking
import PatternAutomata.Proofs.Words.Trim
import PatternAutomata.Proofs.Words.Visits
import PatternAutomata.Regex
import PatternAutomata.Syntax.Language
import PatternAutomata.Syntax.Printer
import PatternAutomata.Version
