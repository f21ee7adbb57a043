import ConstraintNet.Arena
import ConstraintNet.Bisection
import ConstraintNet.Network
/-!
# Solutions

A solution lists values for variables, in ascending order of the variables.  The
value of a variable is found by a binary search, so that it is missed where the
order is not kept.

Main facts:

* `valueOf?_eq_some_iff` — where the variables ascend, the value found is the
  one listed;
* `satisfies_iff` — a solution satisfies a network when it violates no arc.
-/

namespace ConstraintNet

/-- A value for a variable. -/
structure Assignment where
  index : Nat
  value : Int
deriving DecidableEq, Inhabited

/-- Values for variables, in ascending order of the variables. -/
structure Solution where
  assignments : List Assignment
deriving DecidableEq, Inhabited

namespace Solution

/-- The solution that lists assignments given in any order. -/
def ofList (l : List Assignment) : Solution :=
  ⟨l.mergeSort fun a b => a.index ≤ b.index⟩

/-- The solution that the values of the variables make up, if each has one. -/
def ofArena? (a : Arena) : Option Solution :=
  if a.isComplete then
    some (ofList (a.toList.filterMap fun x : Variable =>
      x.value.map (Assignment.mk x.id)))
  else none

/-- The value listed for a variable in a table, as a search of the table finds
it. -/
def lookup? (table : Array Assignment) (i : Nat) : Option Int :=
  (Bisection.find? (fun a => compare a.index i) table).map Assignment.value

/-- The value of a variable. -/
def valueOf? (s : Solution) (i : Nat) : Option Int :=
  lookup? s.assignments.toArray i

/-- The values in the order of the variables. -/
def values (s : Solution) : List Int := s.assignments.map (·.value)

/-- Whether both ends of an arc have values that its constraint does not allow
together. -/
def clashes (table : Array Assignment) (n : Network) (a : Arc) : Bool :=
  match lookup? table a.tail, lookup? table a.head with
  | some x, some y => !n.allows a x y
  | _, _ => false

/-- Whether the values at both ends of an arc are not allowed together. -/
def violatesAt (s : Solution) (n : Network) (a : Arc) : Bool :=
  clashes s.assignments.toArray n a

/-- The violated arcs in ascending order. -/
def violations (s : Solution) (n : Network) : List Arc :=
  let table := s.assignments.toArray
  n.arcs.filter (clashes table n)

/-- Whether no arc is violated. -/
def satisfies (s : Solution) (n : Network) : Bool := (s.violations n).isEmpty

/-- To satisfy a network is to violate it at none of its arcs. -/
theorem satisfies_iff {s : Solution} {n : Network} :
    s.satisfies n ↔ ∀ a ∈ n.arcs, s.violatesAt n a = false := by
  simp [satisfies, violations, violatesAt, List.filter_eq_nil_iff]

/-- **Where the variables ascend, the value found is the one listed.** -/
theorem valueOf?_eq_some_iff {s : Solution}
    (h : s.assignments.Pairwise (·.index < ·.index)) {i : Nat} {v : Int} :
    s.valueOf? i = some v ↔ ⟨i, v⟩ ∈ s.assignments := by
  have horder : Bisection.InOrder (fun a : Assignment => compare a.index i)
      s.assignments.toArray.toList :=
    Bisection.inOrder_of_ascending (h.imp Nat.compare_eq_lt.mpr) i
  simp only [valueOf?, lookup?, Option.map_eq_some_iff,
    Bisection.find?_eq_some_iff horder,
    List.mem_toArray, Std.LawfulEqCmp.compare_eq_iff_eq]
  constructor
  · rintro ⟨a, ⟨ha, rfl⟩, rfl⟩
    exact ha
  · exact fun ha => ⟨_, ⟨ha, rfl⟩, rfl⟩

/-- One line for each assignment. -/
def text (s : Solution) : String :=
  String.join (s.assignments.map fun a =>
    s!"Variable {a.index} is assigned: {a.value}\n")

end Solution

end ConstraintNet
