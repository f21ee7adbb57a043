import ConstraintNet.Command.FileTree
import ConstraintNet.Main
import ConstraintNet.Instance.Json
import ConstraintNet.Instance.Printer
import ConstraintNet.Proofs.Exclusions
import ConstraintNet.Proofs.Settled
import ConstraintNet.Proofs.ArenaLaws
import ConstraintNet.Proofs.Rewinding
import ConstraintNet.Proofs.RevisionLaws
import ConstraintNet.Proofs.ArcConsistency
import ConstraintNet.Proofs.Assignments
import ConstraintNet.Proofs.Nodes
import ConstraintNet.Proofs.Decisions
import ConstraintNet.Proofs.Branches
import ConstraintNet.Proofs.Calls
import ConstraintNet.Proofs.Selection
import ConstraintNet.Proofs.Reached
import ConstraintNet.Proofs.Strategies
import ConstraintNet.Proofs.Completeness
import ConstraintNet.Proofs.Engines
import ConstraintNet.Proofs.Twins
import ConstraintNet.Proofs.Reruns
import ConstraintNet.Proofs.Narrowing
import ConstraintNet.Proofs.Maintaining
import ConstraintNet.Proofs.Runs
import ConstraintNet.Proofs.Accounting
import ConstraintNet.Proofs.Truncation
import ConstraintNet.Proofs.Ordering
import ConstraintNet.Proofs.Partition
import ConstraintNet.Proofs.Entry
import ConstraintNet.Proofs.Journals
import ConstraintNet.Proofs.Forests
import ConstraintNet.Proofs.Unerring
import ConstraintNet.Proofs.Barren
import ConstraintNet.Proofs.Domination
import ConstraintNet.Proofs.Insertions
import ConstraintNet.Proofs.Matching
import ConstraintNet.Proofs.Rewordings
import ConstraintNet.Proofs.Bookkeeping
import ConstraintNet.Proofs.Pairings
import ConstraintNet.Proofs.Copies
import ConstraintNet.Proofs.Renamings
import ConstraintNet.Proofs.Lockstep
import ConstraintNet.Proofs.Facsimiles
import ConstraintNet.Proofs.Mirrors
import ConstraintNet.Proofs.Monotone
import ConstraintNet.Proofs.Wipeouts
import ConstraintNet.Proofs.Layout
import ConstraintNet.Proofs.Tokens
import ConstraintNet.Proofs.Grammar
import ConstraintNet.Proofs.Printing
import ConstraintNet.Proofs.Places
import ConstraintNet.Proofs.Misreadings
import ConstraintNet.Proofs.Semijoins
import ConstraintNet.Proofs.Arrivals
import ConstraintNet.Proofs.Charges
import ConstraintNet.Proofs.ForwardChecks
import ConstraintNet.Proofs.Checkpoints
import ConstraintNet.Proofs.Validation
import ConstraintNet.Proofs.Ledgers
import ConstraintNet.Proofs.Nesting
import ConstraintNet.Proofs.Bystanders
import ConstraintNet.Proofs.Extensions
import ConstraintNet.Proofs.Isolated
import ConstraintNet.Proofs.Batches
import ConstraintNet.Proofs.Lookups
import ConstraintNet.Proofs.RoundTrips
import ConstraintNet.Proofs.Views
import ConstraintNet.Proofs.Draws
import ConstraintNet.Proofs.Choosing
