import ConstraintNet.Instance
import ConstraintNet.Json.Reader
import ConstraintNet.Json.Tree
/-!
# Instances as JSON

An instance is an object of its bounds and its constraints.  Other members are
passed over; the two known ones must each be there once.  An array of the two
values in their order does as well.
-/

namespace ConstraintNet.Instance

open Json

/-- A pair of integers as JSON. -/
def pairJson (p : Int × Int) : Tree := .list [.integer p.1, .integer p.2]

/-- A list of pairs as JSON. -/
def pairsJson (l : List (Int × Int)) : Tree := .list (l.map pairJson)

/-- A block as JSON. -/
def Block.json (b : Block) : Tree :=
  .object [("first", .integer b.first), ("second", .integer b.second),
    ("tuples", pairsJson b.tuples)]

/-- An instance as JSON. -/
def json (c : Instance) : Tree :=
  .object [("domain_bounds", pairsJson c.bounds),
    ("constraints", .list (c.blocks.map Block.json))]

/-- Takes an integer of 64 bits. -/
def valueReader : Reader Int :=
  Reader.integer (-0x8000000000000000) 0x7FFFFFFFFFFFFFFF

/-- Takes a list of pairs of integers. -/
def pairsReader : Reader (List (Int × Int)) :=
  Reader.array (Reader.pair valueReader valueReader)

/-- Takes the colon and the value of a member that does not matter. -/
def passOver : Reader Unit := do
  Reader.expect ':'
  Reader.skip

/-- Takes an element of an array that must not have ended. -/
def element {α : Type} (isFirst : Bool) (r : Reader α) : Reader α := do
  if ← Reader.another isFirst then r else throw .mismatch

/-- A block of which only some members are known. -/
structure Block.Draft where
  first : Option Int := none
  second : Option Int := none
  tuples : Option (List (Int × Int)) := none

/-- Takes a named member of a block. -/
def Block.Draft.member (d : Block.Draft) : String → Reader Block.Draft
  | "first" => do return { d with first := ← Reader.member d.first valueReader }
  | "second" => do
    return { d with second := ← Reader.member d.second valueReader }
  | "tuples" => do
    return { d with tuples := ← Reader.member d.tuples pairsReader }
  | _ => do
    passOver
    return d

/-- Takes the members of a block in their order. -/
def Block.Draft.inOrder : Reader Block.Draft := do
  let first ← element true valueReader
  let second ← element false valueReader
  let tuples ← element false pairsReader
  return { first, second, tuples }

/-- Takes a block. -/
def Block.reader : Reader Block := do
  match ← Reader.record {} (fun name d => Draft.member d name)
    Draft.inOrder with
  | { first := some first, second := some second, tuples := some tuples } =>
    return { first, second, tuples }
  | _ => throw .mismatch

/-- An instance of which only some members are known. -/
structure Draft where
  bounds : Option (List (Int × Int)) := none
  blocks : Option (List Block) := none

/-- Takes a named member of an instance. -/
def Draft.member (d : Draft) : String → Reader Draft
  | "domain_bounds" => do
    return { d with bounds := ← Reader.member d.bounds pairsReader }
  | "constraints" => do
    return { d with
      blocks := ← Reader.member d.blocks (Reader.array Block.reader) }
  | _ => do
    passOver
    return d

/-- Takes the members of an instance in their order. -/
def Draft.inOrder : Reader Draft := do
  let bounds ← element true pairsReader
  let blocks ← element false (Reader.array Block.reader)
  return { bounds, blocks }

/-- Takes an instance. -/
def reader : Reader Instance := do
  match ← Reader.record {} (fun name d => Draft.member d name)
    Draft.inOrder with
  | { bounds := some bounds, blocks := some blocks } =>
      return { bounds, blocks }
  | _ => throw .mismatch

/-- Reads an instance. -/
def readJson (text : String) : Except Problem Instance :=
  Reader.parse reader text

end ConstraintNet.Instance
