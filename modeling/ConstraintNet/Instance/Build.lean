import ConstraintNet.Arena
import ConstraintNet.Instance
import ConstraintNet.Network
import ConstraintNet.Refusal
/-!
# Building variables and constraints from an instance

Each pair of bounds becomes a variable, and each block is put on both arcs
between its variables.  The first faulty bounds are refused, and, when all
bounds are good, the first faulty block.
-/

namespace ConstraintNet.Instance

/-- Refuses more variables than there may be. -/
def checkCount (c : Instance) : Except Refusal Unit :=
  if c.count ≤ maxVariables then .ok ()
  else .error (.tooManyVariables c.count maxVariables)

/-- The variable of a pair of bounds. -/
def buildVariable (i : Nat) (lower upper : Int) : Except Refusal Variable :=
  if upper < lower then .error (.emptyDomain i lower upper)
  else if upper - lower + 1 > maxDomainSize then
    .error (.domainTooLarge i lower upper maxDomainSize)
  else .ok (.ofBounds i lower upper)

/-- The variables of an instance. -/
def buildArena (c : Instance) : Except Refusal Arena := do
  c.checkCount
  let l ← c.bounds.zipIdx.mapM fun ((lower, upper), i) =>
    buildVariable i lower upper
  return .ofList l

/-- The variable that an index names, if it names one of so many. -/
def resolve (count : Nat) (index : Int) : Except Refusal Nat :=
  if 0 ≤ index ∧ index < count then .ok index.toNat
  else .error (.unknownVariable index count)

/-- The constraint of a block, for so many variables. -/
def Block.build (count : Nat) (b : Block) : Except Refusal Constraint := do
  let first ← resolve count b.first
  let second ← resolve count b.second
  if first = second then .error (.selfConstraint first)
  else return { first, second, pairs := b.tuples }

/-- The arc from the first variable of a block to the second. -/
def Block.scope (b : Block) : Arc := ⟨b.first.toNat, b.second.toNat⟩

/-- The constraint of a block whose variables are not looked at. -/
def Block.constraint (b : Block) : Constraint :=
  { first := b.scope.tail, second := b.scope.head, pairs := b.tuples }

/-- The network of an instance. -/
def buildNetwork (c : Instance) : Except Refusal Network := do
  c.checkCount
  c.blocks.foldlM (fun n b => n.insertSymmetric <$> b.build c.count) ∅

/-- The variables and the network of an instance. -/
def build (c : Instance) : Except Refusal (Arena × Network) := do
  return (← c.buildArena, ← c.buildNetwork)

end ConstraintNet.Instance
