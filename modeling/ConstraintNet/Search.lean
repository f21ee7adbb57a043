import ConstraintNet.Limit
import ConstraintNet.Order
import ConstraintNet.Propagation
import ConstraintNet.Solution
/-!
# Search by two-way branching

At each node the search picks a variable without a value and one of its values.
The left branch assigns the value; the right branch, taken unless the left one
met the limit, prunes it.  Either branch propagates from the variable, goes on
below if nothing was wiped out, and undoes its changes on the way out.  A node
whose variable has no value left to try is left at once, with a backtrack
counted.

The search is bounded in depth.  Every branch takes one value of the variables
that was not tried before, so `Arena.depth` bounds the depth of any search from
an arena, whatever the orders of variables and values.
-/

namespace ConstraintNet

/-- One more than the number of values that no open choice tried. -/
def Arena.depth (a : Arena) : Nat :=
  1 + total (fun x => (x.domain.values.filter fun v => !x.wasTried v).size)
    a.toList

/-- Whether a search goes on. -/
inductive Flow
  | goOn
  | stop
deriving DecidableEq, Inhabited

/-- What a search changes: a workspace and the solutions found. -/
structure Search extends Workspace where
  solutions : Array Solution := #[]

/-- What a search answers. -/
structure Outcome where
  solutions : List Solution
  tally : Tally

namespace Search

/-- A search that has not begun. -/
def begin (arena : Arena) : Search := { arena }

/-- Changes the workspace by an operation that may fail. -/
def modify : Search → (Workspace → Except Fault Workspace) → Except Fault Search
  | ⟨w, solutions⟩, f => (f w).map fun w => ⟨w, solutions⟩

/-- Changes the workspace by an operation that may fail and answers. -/
def adjust {α : Type} : Search → (Workspace → Except Fault (α × Workspace)) →
    Except Fault (α × Search)
  | ⟨w, solutions⟩, f => (f w).map fun (r, w) => (r, ⟨w, solutions⟩)

/-- Assigns a value to a variable. -/
def assign (s : Search) (i : Nat) (v : Int) : Except Fault Search :=
  s.modify (·.modify i (.ok <| ·.assign v))

/-- Takes the value of a variable away. -/
def unassign (s : Search) (i : Nat) : Except Fault Search :=
  s.modify (·.modify i (.ok ·.unassign))

/-- Forgets the latest tried value of a variable. -/
def retire (s : Search) (i : Nat) : Except Fault Search :=
  s.modify (·.modify i Variable.retire)

/-- Prunes a value of a variable; the flag tells whether it was live. -/
def exclude (s : Search) (i : Nat) (v : Int) : Except Fault (Bool × Search) :=
  s.adjust (·.exclude i v)

/-- Propagates from a list of arcs; the flag is false when a variable has
nothing left. -/
def propagate (s : Search) (p : Propagator) (seed : List Arc) :
    Except Fault (Bool × Search) :=
  s.adjust (p.propagate seed)

/-- Propagates from the arcs that leave a variable. -/
def propagateFrom (s : Search) (p : Propagator) (i : Nat) :
    Except Fault (Bool × Search) :=
  s.propagate p (p.network.arcsFrom i)

/-- Propagates from all arcs. -/
def propagateAll (s : Search) (p : Propagator) : Except Fault (Bool × Search) :=
  s.propagate p p.network.arcs

/-- Undoes what was excluded since the trail stood at `c`. -/
def rewind (s : Search) (c : Checkpoint) : Except Fault Search :=
  s.modify (·.rewind c)

/-- The search with one more node counted. -/
def node : Search → Search
  | ⟨w, solutions⟩ => ⟨w.node, solutions⟩

/-- The search with one more backtrack counted. -/
def backtrack : Search → Search
  | ⟨w, solutions⟩ => ⟨w.backtrack, solutions⟩

/-- Records the values of the variables as a solution.  Each variable must have
a value, and the values must violate no arc. -/
def record : Search → Network → Limit → Except Fault (Flow × Search)
  | ⟨w, solutions⟩, n, limit =>
    match Solution.ofArena? w.arena with
    | none => .error .unassigned
    | some solution =>
      if solution.satisfies n then
        let solutions := solutions.push solution
        .ok (if limit.isReached solutions.size then .stop else .goOn,
          ⟨w, solutions⟩)
      else
        .error (.inconsistent ((solution.violations n).map fun a =>
          (a.tail, a.head)))

/-- Ends a search, whose trail must be empty. -/
def finish (s : Search) : Except Fault Outcome :=
  if s.trail.isEmpty then .ok ⟨s.solutions.toList, s.tally⟩
  else .error (.trailLeft s.trail.size)

end Search

/-- What stays the same during a search. -/
structure Branching (σ : Type) where
  propagator : Propagator
  selector : Selector σ
  valueOrder : ValueOrder
  limit : Limit

namespace Branching

variable {σ : Type}

/-- Goes on below a branch if propagation left something of every variable, and
counts a backtrack if not. -/
def descend (below : σ → Search → Except Fault (Flow × σ × Search)) (g : σ)
    (consistent : Bool) (s : Search) : Except Fault (Flow × σ × Search) :=
  if consistent then below g s else .ok (.goOn, g, s.backtrack)

/-- The branch on which variable `i` takes the value `v`.  At its end the trail
is rewound to `entry`. -/
def left (b : Branching σ)
    (below : σ → Search → Except Fault (Flow × σ × Search)) (i : Nat) (v : Int)
    (g : σ) (entry : Checkpoint) (s : Search) :
    Except Fault (Flow × σ × Search) := do
  let s ← s.assign i v
  let (consistent, s) ← s.propagateFrom b.propagator i
  let (flow, g, s) ← descend below g consistent s
  let s ← s.rewind entry
  return (flow, g, ← s.unassign i)

/-- Prunes `v` from variable `i` and propagates, unless that leaves the variable
nothing. -/
def refute (b : Branching σ) (i : Nat) (v : Int) (s : Search) :
    Except Fault (Bool × Search) := do
  let (pruned, s) ← s.exclude i v
  if pruned && !(← s.arena.read i).isWipedOut then
    s.propagateFrom b.propagator i
  else return (false, s)

/-- The branch on which variable `i` does not take the value `v`.  At its end
the trail is rewound to `entry`. -/
def right (b : Branching σ)
    (below : σ → Search → Except Fault (Flow × σ × Search)) (i : Nat) (v : Int)
    (g : σ) (entry : Checkpoint) (s : Search) :
    Except Fault (Flow × σ × Search) := do
  let (consistent, s) ← b.refute i v s
  let (flow, g, s) ← descend below g consistent s
  return (flow, g, ← s.rewind entry)

/-- Both branches on variable `i` and the value `v`, the right one only if the
search goes on.  The trail must come back to `entry`. -/
def branch (b : Branching σ)
    (below : σ → Search → Except Fault (Flow × σ × Search)) (i : Nat) (v : Int)
    (g : σ) (entry : Checkpoint) (s : Search) :
    Except Fault (Flow × σ × Search) := do
  let (flow, g, s) ← b.left below i v g entry s
  let (flow, g, s) ← match flow with
    | .stop => pure (.stop, g, s)
    | .goOn => b.right below i v g s.trail.checkpoint s
  let s ← s.retire i
  if s.trail.checkpoint = entry then return (flow, g, s)
  else throw (.unbalanced i entry s.trail.checkpoint)

/-- Searches below a node, at most so deep. -/
def search (b : Branching σ) :
    Nat → σ → Search → Except Fault (Flow × σ × Search)
  | 0, _, _ => .error .tooDeep
  | depth + 1, g, s => do
    let s := s.node
    if s.arena.isComplete then
      let (flow, s) ← s.record b.propagator.network b.limit
      return (flow, g, s)
    match b.selector s.arena b.propagator.network g with
    | (none, g) => return (.goOn, g, s)
    | (some i, g) =>
      match b.valueOrder.select (← s.arena.read i) with
      | none => return (.goOn, g, s.backtrack)
      | some v => b.branch (b.search depth) i v g s.trail.checkpoint s

end Branching

end ConstraintNet
