import ConstraintNet.Json.Tree
import ConstraintNet.Report
import ConstraintNet.Search
/-!
# Outcomes

What a search answers, as text and as JSON.
-/

namespace ConstraintNet

/-- A solution as JSON. -/
def Solution.json (s : Solution) : Json.Tree :=
  .object [("assignments", .list (s.assignments.map fun a =>
    .object [("variable", .nat a.index), ("value", .integer a.value)]))]

/-- The six counts as JSON. -/
def Tally.json (t : Tally) : Json.Tree :=
  .object [("nodes_visited", .nat t.nodes), ("backtracks", .nat t.backtracks),
    ("revisions", .nat t.revisions), ("prunings", .nat t.prunings),
    ("marks", .nat t.marks), ("wipeouts", .nat t.wipeouts)]

namespace Outcome

/-- The first solution found. -/
def first? (o : Outcome) : Option Solution := o.solutions.head?

/-- Whether a solution was found. -/
def isSatisfiable (o : Outcome) : Bool := !o.solutions.isEmpty

/-- An outcome as JSON. -/
def json (o : Outcome) : Json.Tree :=
  .object [("solutions", .list (o.solutions.map Solution.json)),
    ("stats", o.tally.json)]

/-- The solutions, each under its number if there are several, and then the
counts. -/
def text (o : Outcome) : String :=
  let solutions := match o.solutions with
    | [] => "No solution\n"
    | [s] => s.text
    | l =>
        String.join ((l.zipIdx 1).map fun (s, k) =>
          s!"Solution {k}\n" ++ s.text)
  solutions ++ "\n" ++ o.tally.summary

end Outcome

end ConstraintNet
