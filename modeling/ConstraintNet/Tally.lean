import Std.Data.ExtTreeMap
import ConstraintNet.Arc
/-!
# Tallies

What a search counts: its nodes and backtracks, the revisions with the values
they pruned and marked, in all and for each arc, and the wipeouts.
-/

namespace ConstraintNet

/-- The counts of one arc, and the time its revisions took. -/
structure ArcTally where
  revisions : Nat := 0
  prunings : Nat := 0
  marks : Nat := 0
  micros : Nat := 0
deriving DecidableEq, Inhabited

/-- The counts of a search. -/
structure Tally where
  nodes : Nat := 0
  backtracks : Nat := 0
  revisions : Nat := 0
  prunings : Nat := 0
  marks : Nat := 0
  wipeouts : Nat := 0
  arcs : Std.ExtTreeMap Arc ArcTally := ∅

namespace Tally

/-- The tally with one more node. -/
def node (t : Tally) : Tally := { t with nodes := t.nodes + 1 }

/-- The tally with one more backtrack. -/
def backtrack (t : Tally) : Tally := { t with backtracks := t.backtracks + 1 }

/-- The tally with one more wipeout. -/
def wipeout (t : Tally) : Tally := { t with wipeouts := t.wipeouts + 1 }

/-- The counts of an arc, all zero if it was never revised. -/
def ofArc (t : Tally) (a : Arc) : ArcTally := t.arcs.getD a {}

/-- The tally with one more revision of an arc, which pruned and marked so many
values. -/
def revision (t : Tally) (a : Arc) (pruned marked : Nat) : Tally :=
  let old := t.ofArc a
  { t with
    revisions := t.revisions + 1
    prunings := t.prunings + pruned
    marks := t.marks + marked
    arcs := t.arcs.insert a
      { old with
        revisions := old.revisions + 1
        prunings := old.prunings + pruned
        marks := old.marks + marked } }

end Tally

end ConstraintNet
