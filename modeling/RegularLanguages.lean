import RegularLanguages.Automaton.Basic
import RegularLanguages.Automaton.Boolean
import RegularLanguages.Automaton.Draft
import RegularLanguages.Automaton.Minimal
import RegularLanguages.Automaton.Reachable
import RegularLanguages.Automaton.Run
import RegularLanguages.Automaton.Subsets
import RegularLanguages.Automaton.Transitions
import RegularLanguages.Automaton.Words
import RegularLanguages.CommandLine
import RegularLanguages.CommandLine.Serve
import RegularLanguages.Error
import RegularLanguages.Main
import RegularLanguages.MoveSystem
import RegularLanguages.Partition
import RegularLanguages.Recognizer
import RegularLanguages.Regex.Basic
import RegularLanguages.Regex.Normal
import RegularLanguages.Regex.Operator
import RegularLanguages.Search
import RegularLanguages.Sorted.Map
import RegularLanguages.Sorted.Set
import RegularLanguages.Sorted.Table
import RegularLanguages.StateName
import RegularLanguages.StateTable.Basic
import RegularLanguages.StateTable.Export
import RegularLanguages.StateTable.Import
import RegularLanguages.Symbol
import RegularLanguages.SyntaxTree.Automaton
import RegularLanguages.SyntaxTree.Basic
import RegularLanguages.SyntaxTree.Graph
import RegularLanguages.SyntaxTree.Steps
import RegularLanguages.Text.Blank
import RegularLanguages.Text.Quoted
import RegularLanguages.Text.Ranges
import RegularLanguages.Proofs.Automaton.Path
import RegularLanguages.Proofs.Automaton.WellFormed
import RegularLanguages.Proofs.Automaton.Functional
import RegularLanguages.Proofs.MoveSystem
import RegularLanguages.Proofs.Automaton.Subsets
import RegularLanguages.Proofs.Automaton.Induced
import RegularLanguages.Proofs.Partition
import RegularLanguages.Proofs.Automaton.Classes
import RegularLanguages.Proofs.Automaton.Deterministic
import RegularLanguages.Proofs.Automaton.Minimal
import RegularLanguages.Proofs.Automaton.Complement
import RegularLanguages.Proofs.Automaton.Union
import RegularLanguages.Proofs.Automaton.Equivalence
import RegularLanguages.Proofs.Regex.Grammar
import RegularLanguages.Proofs.Regex.Normalize
import RegularLanguages.Proofs.Regex.Parse
import RegularLanguages.Proofs.SyntaxTree.Layout
import RegularLanguages.Proofs.SyntaxTree.Reading
import RegularLanguages.Proofs.SyntaxTree.Compositions
import RegularLanguages.Proofs.Recognizer
import RegularLanguages.Proofs.Assembly
import RegularLanguages.Proofs.Automaton.Draft
import RegularLanguages.Proofs.SyntaxTree.Positions
import RegularLanguages.Proofs.Automaton.Merging
import RegularLanguages.Proofs.Automaton.Levels
import RegularLanguages.Proofs.Automaton.Listing
import RegularLanguages.Proofs.Automaton.Boolean
import RegularLanguages.Proofs.Automaton.Isomorphism
import RegularLanguages.Proofs.Automaton.Canonical
import RegularLanguages.Proofs.Automaton.Names
import RegularLanguages.Proofs.Automaton.Compact
import RegularLanguages.Proofs.Discovery
import RegularLanguages.Proofs.SyntaxTree.Continuations
import RegularLanguages.Proofs.Compiled
import RegularLanguages.Proofs.StateTable.Cells
import RegularLanguages.Proofs.StateTable.Renumbering
import RegularLanguages.Proofs.StateTable.RoundTrip
import RegularLanguages.Proofs.Automaton.Derived
import RegularLanguages.Proofs.StateName
import RegularLanguages.Proofs.Automaton.DistinctNames
import RegularLanguages.Proofs.Automaton.Trail
import RegularLanguages.Proofs.Automaton.Remerging
import RegularLanguages.Proofs.Automaton.Requests
import RegularLanguages.Proofs.StateTable.Alike
import RegularLanguages.Proofs.Relabelling
import RegularLanguages.Proofs.StateTable.Numbering
import RegularLanguages.Proofs.CommandLine
import RegularLanguages.Proofs.Automaton.Rounds
import RegularLanguages.Proofs.Automaton.Singletons
import RegularLanguages.Proofs.Automaton.Completion
import RegularLanguages.Proofs.Regex.Viable
import RegularLanguages.Proofs.SyntaxTree.Preorder
import RegularLanguages.Proofs.SyntaxTree.Walk
import RegularLanguages.Proofs.Automaton.Grants
import RegularLanguages.Proofs.StateTable.Reading
import RegularLanguages.Proofs.StateTable.RowLabels
import RegularLanguages.Proofs.Automaton.Emptiness
import RegularLanguages.Proofs.Automaton.Tracking
import RegularLanguages.Proofs.Automaton.Pruning
import RegularLanguages.Proofs.Automaton.Calls
import RegularLanguages.Proofs.StateName.Order
import RegularLanguages.Proofs.Regex.Runs
import RegularLanguages.Proofs.SyntaxTree.Growth
import RegularLanguages.Proofs.SyntaxTree.Wrapped
import RegularLanguages.Proofs.StateTable.Drawing
import RegularLanguages.Proofs.SyntaxTree.Threads
import RegularLanguages.Proofs.Sorted.Flat
import RegularLanguages.Proofs.Automaton.UnusedName
