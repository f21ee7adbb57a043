import ConstraintNet.Json.Reader
import ConstraintNet.Json.Tree
import ConstraintNet.Settings
/-!
# Settings as JSON

Settings are an object whose members may be left out, but not repeated, or an
array of the same values in their order, of which the last ones may be left out.
A choice is its short name, or an object of the name and nothing.  A limit of at
most no solution is refused.
-/

namespace ConstraintNet

open Json

/-- A choice as JSON. -/
def Choice.json {α : Type} [Choice α] (a : α) : Tree := .string (Choice.name a)

/-- Takes a choice. -/
def Choice.reader (α : Type) [Choice α] : Reader α :=
  Reader.tagged (Choice.find? α) some fun a => do
    Reader.null
    return a

namespace Limit

/-- The kinds of limits. -/
inductive Tag
  | first
  | atMost
  | all
deriving DecidableEq

/-- The name of a kind of limits. -/
def Tag.name : Tag → String
  | .first => "first"
  | .atMost => "at_most"
  | .all => "all"

/-- The kind with a name. -/
def Tag.find? (text : String) : Option Tag :=
  [first, atMost, all].find? (·.name == text)

/-- A limit as JSON. -/
def json : Limit → Tree
  | .first => .string Tag.first.name
  | .atMost count => .object [(Tag.atMost.name, .nat count)]
  | .all => .string Tag.all.name

/-- The greatest count of solutions that can be read. -/
def maxCount : Nat := 0xFFFFFFFFFFFFFFFF

/-- Takes a limit. -/
def reader : Reader Limit :=
  Reader.tagged Tag.find?
    (fun
      | .first => some .first
      | .atMost => none
      | .all => some .all)
    (fun
      | .first => do Reader.null; return .first
      | .atMost => do return .atMost (← Reader.integer 0 maxCount).toNat
      | .all => do Reader.null; return .all)

end Limit

namespace Settings

/-- Settings as JSON, all members written out. -/
def json (s : Settings) : Tree :=
  .object [("algorithm", Choice.json s.algorithm),
    ("variable_order", Choice.json s.variableOrder),
    ("value_order", Choice.json s.valueOrder), ("limit", s.limit.json),
    ("seed", .nat s.seed.toNat)]

/-- Settings of which only some members are known. -/
structure Draft where
  algorithm : Option Algorithm := none
  variableOrder : Option VariableOrder := none
  valueOrder : Option ValueOrder := none
  limit : Option Limit := none
  seed : Option UInt64 := none

/-- The draft with the usual choices where nothing is known. -/
def Draft.complete (d : Draft) : Settings :=
  let usual : Settings := {}
  { algorithm := d.algorithm.getD usual.algorithm
    variableOrder := d.variableOrder.getD usual.variableOrder
    valueOrder := d.valueOrder.getD usual.valueOrder
    limit := d.limit.getD usual.limit
    seed := d.seed.getD usual.seed }

/-- Takes a seed. -/
def seedReader : Reader UInt64 := do
  return UInt64.ofNat (← Reader.integer 0 0xFFFFFFFFFFFFFFFF).toNat

/-- Takes a named member. -/
def Draft.member (d : Draft) : String → Reader Draft
  | "algorithm" => do
    return { d with
      algorithm := ← Reader.member d.algorithm (Choice.reader Algorithm) }
  | "variable_order" => do
    return { d with
      variableOrder :=
        ← Reader.member d.variableOrder (Choice.reader VariableOrder) }
  | "value_order" => do
    return { d with
      valueOrder := ← Reader.member d.valueOrder (Choice.reader ValueOrder) }
  | "limit" => do
    return { d with limit := ← Reader.member d.limit Limit.reader }
  | "seed" => do
    return { d with seed := ← Reader.member d.seed seedReader }
  | _ => throw .mismatch

/-- Takes an element of an array that may have ended. -/
def element {α : Type} (isFirst : Bool) (r : Reader α) : Reader (Option α) := do
  if ← Reader.another isFirst then return some (← r) else return none

/-- Takes the members in their order. -/
def Draft.inOrder : Reader Draft := do
  let algorithm ← element true (Choice.reader Algorithm)
  let variableOrder ← element false (Choice.reader VariableOrder)
  let valueOrder ← element false (Choice.reader ValueOrder)
  let limit ← element false Limit.reader
  let seed ← element false seedReader
  return { algorithm, variableOrder, valueOrder, limit, seed }

/-- Takes settings. -/
def reader : Reader Settings := do
  return (← Reader.record {} (fun name d => Draft.member d name)
    Draft.inOrder).complete

/-- Reads settings. -/
def read (text : String) : Except SettingsProblem Settings :=
  match Reader.parse reader text with
  | .error problem => .error (.json problem)
  | .ok s => if s.limit = .atMost 0 then .error .noSolutions else .ok s

end Settings

end ConstraintNet
