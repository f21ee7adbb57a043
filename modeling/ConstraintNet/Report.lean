import ConstraintNet.Network
import ConstraintNet.Number.Double
import ConstraintNet.Tally
import ConstraintNet.Text.Grid
/-!
# Reports

The counts of a search as six lines, and the counts of each arc as a grid.
-/

namespace ConstraintNet

/-- The mean time of a revision of an arc; zero if there was none. -/
def ArcTally.meanMicros (t : ArcTally) : Number.Quotient :=
  if t.revisions = 0 then ⟨0, 1⟩
  else (Number.nearestNat t.micros).div (Number.nearestNat t.revisions)

/-- The time of the revisions of an arc in thousandths of a second. -/
def ArcTally.millis (t : ArcTally) : Number.Quotient :=
  (Number.nearestNat t.micros).div (Number.nearestNat 1000)

namespace Tally

/-- The six counts, one on a line. -/
def summary (t : Tally) : String :=
  s!"Nodes: {t.nodes}\nBacktracks: {t.backtracks}\nRevisions: {t.revisions}\n" ++
    s!"Prunings: {t.prunings}\nMarks: {t.marks}\nWipeouts: {t.wipeouts}\n"

/-- The heads of the columns of the grid. -/
def gridHeads : List String :=
  ["Constraint Type", "Arc", "Description", "Revise Calls", "Prunings", "Marks",
    "Time / Call (µs)", "Total Time (ms)"]

/-- The row of an arc whose constraint is `c`. -/
def gridCells (a : Arc) (c : Constraint) (t : ArcTally) : List String :=
  [Constraint.kindName, a.text, c.description, toString t.revisions,
    toString t.prunings, toString t.marks, t.meanMicros.text, t.millis.text]

/-- The counts of each arc with a constraint, by ascending time. -/
def grid (t : Tally) (n : Network) : String :=
  let rows := t.arcs.toList.mergeSort fun x y => x.2.micros ≤ y.2.micros
  Text.grid (gridHeads :: rows.filterMap fun (a, k) => (n.find? a).map fun c =>
    gridCells a c k)

/-- The tally with all times set to zero. -/
def withoutTimes (t : Tally) : Tally :=
  { t with arcs := t.arcs.map fun _ k => { k with micros := 0 } }

end Tally

end ConstraintNet
