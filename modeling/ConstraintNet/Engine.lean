import ConstraintNet.Instance.Build
import ConstraintNet.Settings
/-!
# Engines

An engine solves instances by given settings.  Its generator lives as long as
the engine, so that a second run under the random order goes on where the first
one left the stream.
-/

namespace ConstraintNet

/-- Why there is no outcome: the input was refused, or a promise was broken on
the way. -/
inductive Failure
  | refused (why : Refusal)
  | broken (fault : Fault)
deriving DecidableEq, Inhabited

/-- A strategy with its orders, its limit and the state of its generator. -/
structure Engine where
  algorithm : Algorithm
  variableOrder : VariableOrder
  valueOrder : ValueOrder
  limit : Limit
  generator : Random.Generator
deriving DecidableEq

namespace Engine

/-- The engine of given settings. -/
def ofSettings (s : Settings) : Engine where
  algorithm := s.algorithm
  variableOrder := s.variableOrder
  valueOrder := s.valueOrder
  limit := s.limit
  generator := .ofSeed s.seed

/-- Refuses variables that are not at their positions, and constraints on
variables that are not there. -/
def check (arena : Arena) (network : Network) : Except Refusal Unit :=
  match arena.toList.zipIdx.find? fun (x, i) => x.id != i with
  | some (x, i) => .error (.misplaced i x.id)
  | none =>
    match network.maxVariable? with
    | some max =>
      if max < arena.size then .ok ()
      else .error (.unknownVariable max arena.size)
    | none => .ok ()

/-- Solves given variables and constraints, and gives back the variables. -/
def solveBuilt (e : Engine) (arena : Arena) (network : Network) :
    Except Failure (Outcome × Arena × Engine) :=
  match check arena network with
  | .error why => .error (.refused why)
  | .ok () =>
    match e.algorithm.solve e.variableOrder.select e.valueOrder e.limit
      network arena
        e.generator with
    | .error fault => .error (.broken fault)
    | .ok r => .ok (r.outcome, r.arena, { e with generator := r.state })

/-- Solves an instance. -/
def solve (e : Engine) (c : Instance) : Except Failure (Outcome × Engine) :=
  match c.build with
  | .error why => .error (.refused why)
  | .ok (arena, network) =>
      (e.solveBuilt arena network).map fun (outcome, _, e) => (outcome, e)

end Engine

end ConstraintNet
