import ConstraintNet.Search
/-!
# Strategies

Forward checking searches straight away and follows no marks.  Maintaining arc
consistency makes the whole network consistent first and follows marks at every
node; if nothing is left of some variable at the root, there is no search.
-/

namespace ConstraintNet

/-- How consequences are drawn during a search. -/
inductive Algorithm
  | forwardChecking
  | maintainArcConsistency
deriving DecidableEq, Inhabited

/-- What a strategy leaves: the outcome, the variables and the state of the
selector. -/
structure Solved (σ : Type) where
  outcome : Outcome
  arena : Arena
  state : σ

namespace Algorithm

/-- The name of the strategy. -/
def name : Algorithm → String
  | .forwardChecking => "forward-checking"
  | .maintainArcConsistency => "maintain-arc-consistency"

/-- How far the strategy follows consequences. -/
def closure : Algorithm → Closure
  | .forwardChecking => .frontier
  | .maintainArcConsistency => .full

/-- Searches from the root, as deep as the domains allow. -/
def fromRoot {σ : Type} (b : Branching σ) (g : σ) (s : Search) :
    Except Fault (σ × Search) :=
  (b.search s.arena.depth g s).map fun (_, g, s) => (g, s)

/-- Runs the strategy on the variables of an arena. -/
def solve {σ : Type} (algorithm : Algorithm) (selector : Selector σ)
    (valueOrder : ValueOrder) (limit : Limit) (network : Network)
    (arena : Arena) (g : σ) : Except Fault (Solved σ) := do
  let b : Branching σ :=
    { propagator := ⟨network, algorithm.closure⟩, selector, valueOrder, limit }
  let s := Search.begin arena
  match algorithm with
  | .forwardChecking =>
    let (g, s) ← fromRoot b g s
    return ⟨← s.finish, s.arena, g⟩
  | .maintainArcConsistency =>
    let root := s.trail.checkpoint
    let (consistent, s) ← s.propagateAll b.propagator
    let (g, s) ← if consistent then fromRoot b g s else pure (g, s)
    let s ← s.rewind root
    return ⟨← s.finish, s.arena, g⟩

end Algorithm

end ConstraintNet
