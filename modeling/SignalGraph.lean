import SignalGraph.Block.Arithmetic
import SignalGraph.Format.Run
import SignalGraph.Format.Settings
import SignalGraph.Machine
import SignalGraph.Proofs.Construction
import SignalGraph.Proofs.Edits
import SignalGraph.Proofs.Numbers
import SignalGraph.Proofs.TruthTable
import SignalGraph.Proofs.WellFormed
import SignalGraph.Proofs.Machines
import SignalGraph.Proofs.Progress
import SignalGraph.Proofs.Iteration
import SignalGraph.Proofs.Walks
import SignalGraph.Proofs.Sequencing
import SignalGraph.Proofs.Code
import SignalGraph.Proofs.Layout
import SignalGraph.Proofs.Emission
import SignalGraph.Proofs.Arithmetic
import SignalGraph.Proofs.Realizes
import SignalGraph.Proofs.Blocks
import SignalGraph.Proofs.StraightLine
import SignalGraph.Proofs.Defects
import SignalGraph.Proofs.Values
import SignalGraph.Proofs.Regions
import SignalGraph.Proofs.Assembly
import SignalGraph.Proofs.Compositions
import SignalGraph.Proofs.Histories
import SignalGraph.Proofs.Reruns
import SignalGraph.Proofs.Names
import SignalGraph.Proofs.Printing
import SignalGraph.Proofs.Storage
import SignalGraph.Proofs.Naming
import SignalGraph.Proofs.Faults
import SignalGraph.Proofs.Acceptance
import SignalGraph.Proofs.Operands
import SignalGraph.Proofs.Outcomes
import SignalGraph.Proofs.Fragments
import SignalGraph.Proofs.Exactness
import SignalGraph.Proofs.Copying
import SignalGraph.Proofs.Search
import SignalGraph.Proofs.Pruning
import SignalGraph.Proofs.Sharing
import SignalGraph.Proofs.Limits
import SignalGraph.Proofs.Grouping
import SignalGraph.Proofs.Registers
import SignalGraph.Proofs.Repetition
import SignalGraph.Proofs.Disjunctions
import SignalGraph.Proofs.Scopes
import SignalGraph.Proofs.Refusals
import SignalGraph.Proofs.Adders
import SignalGraph.Proofs.Rows
