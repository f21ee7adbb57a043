/-!
# Instances

An instance is a problem as it is written down: the bounds of each variable's
domain, and blocks of allowed value pairs.  Nothing about it need make sense:
bounds may be the wrong way round and blocks may name variables that do not
exist.
-/

namespace ConstraintNet

/-- The value pairs allowed for two variables, as written down. -/
structure Instance.Block where
  first : Int
  second : Int
  tuples : List (Int × Int)
deriving DecidableEq, Inhabited

/-- A problem as written down. -/
structure Instance where
  /-- The lower and the upper bound of each variable. -/
  bounds : List (Int × Int)
  blocks : List Instance.Block
deriving DecidableEq, Inhabited

namespace Instance

/-- The greatest number of values in a domain. -/
def maxDomainSize : Nat := 0x100000

/-- The greatest number of variables. -/
def maxVariables : Nat := 0xFFFFFFFF

/-- The number of variables. -/
def count (c : Instance) : Nat := c.bounds.length

end Instance

end ConstraintNet
