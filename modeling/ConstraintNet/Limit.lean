/-!
# Limits

A limit says after how many solutions a search stops.
-/

namespace ConstraintNet

/-- When to stop looking for solutions. -/
inductive Limit
  /-- After the first one. -/
  | first
  /-- After so many. -/
  | atMost (count : Nat)
  /-- Never. -/
  | all
deriving DecidableEq, Inhabited

/-- Whether the limit is reached when so many solutions are found. -/
def Limit.isReached : Limit → Nat → Bool
  | .first, found => 1 ≤ found
  | .atMost count, found => count ≤ found
  | .all, _ => false

end ConstraintNet
