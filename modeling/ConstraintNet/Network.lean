import Std.Data.ExtTreeMap
import ConstraintNet.Constraint
import ConstraintNet.Links
/-!
# Networks of constraints

A network holds at most one constraint for each arc, in the order of the arcs.
Putting in a second constraint on an arc leaves there what both allow.  Beside
the constraints stand the links between the variables, which each insertion
brings up to date at both ends of its arc.  Links that disagree with the arcs
make no network.

Main facts:

* `find?_insert` — what inserting a constraint does to each arc;
* `mem_neighbors`, `mem_incident` — the neighbours of a variable are the far
  ends of the arcs that leave it, and the variables incident on it are the near
  ends of the arcs that reach it.
-/

namespace ConstraintNet

/-- At most one constraint for each arc, and the links that the arcs make. -/
structure Network where
  entries : Std.ExtTreeMap Arc Constraint
  links : Links
  /-- The links are those of the arcs that carry a constraint. -/
  agree : links.Agree (· ∈ entries)

namespace Network

/-- The network without constraints. -/
def empty : Network where
  entries := ∅
  links := ∅
  agree :=
    Links.agree_empty.congr fun _ =>
      iff_of_false not_false Std.ExtTreeMap.not_mem_empty

instance : EmptyCollection Network := ⟨empty⟩

instance : Inhabited Network := ⟨∅⟩

/-- The constraint on an arc. -/
def find? (n : Network) (a : Arc) : Option Constraint := n.entries[a]?

/-- Puts a constraint on its own arc, where it narrows the one already there,
and links the ends of the arc. -/
def insert (n : Network) (c : Constraint) : Network where
  entries := n.entries.insert c.arc ((n.find? c.arc).elim c (·.intersect c))
  links := n.links.add c.arc
  agree := (n.agree.add c.arc).congr fun a => by
    rw [Std.ExtTreeMap.mem_insert, Std.LawfulEqCmp.compare_eq_iff_eq, eq_comm]

/-- Puts a constraint on both arcs between its variables. -/
def insertSymmetric (n : Network) (c : Constraint) : Network :=
  (n.insert c.transposed).insert c

/-- The network of a list of constraints, each on its own arc only. -/
def ofConstraints (l : List Constraint) : Network := l.foldl insert ∅

/-- The constraints in the order of their arcs. -/
def constraints (n : Network) : List Constraint := n.entries.toList.map (·.2)

/-- The arcs that carry a constraint, in ascending order. -/
def arcs (n : Network) : List Arc := n.entries.keys

/-- The number of arcs that carry a constraint. -/
def size (n : Network) : Nat := n.entries.size

/-- The variables that some arc from `i` points to, in ascending order. -/
def neighbors (n : Network) (i : Nat) : List Nat :=
  (n.links.leaving.of i).toList

/-- The variables from which some arc points to `i`, in ascending order. -/
def incident (n : Network) (i : Nat) : List Nat :=
  (n.links.reaching.of i).toList

/-- The number of neighbours of `i`. -/
def degree (n : Network) (i : Nat) : Nat := (n.links.leaving.of i).size

/-- The arcs that leave `i`, in ascending order. -/
def arcsFrom (n : Network) (i : Nat) : List Arc :=
  (n.neighbors i).map (Arc.mk i)

/-- The arcs that reach `i`, in ascending order. -/
def arcsInto (n : Network) (i : Nat) : List Arc :=
  (n.incident i).map (Arc.mk · i)

/-- The greatest variable that some arc names. -/
def maxVariable? (n : Network) : Option Nat :=
  (n.arcs.flatMap fun a => [a.tail, a.head]).max?

/-- The values that the head of an arc may take when its tail takes `x`; none if
the arc carries no constraint. -/
def supports (n : Network) (x : Int) (a : Arc) : ValueSet :=
  (n.find? a).elim ∅ (·.supports x)

/-- Whether `x` at the tail and `y` at the head are allowed together; an arc
without a constraint allows everything. -/
def allows (n : Network) (a : Arc) (x y : Int) : Bool :=
  (n.find? a).elim true (·.allows x y)

@[simp] theorem find?_empty (a : Arc) : (∅ : Network).find? a = none :=
  Std.ExtTreeMap.getElem?_empty

/-- Inserting concerns the constraint's own arc only. -/
theorem find?_insert (n : Network) (c : Constraint) (a : Arc) :
    (n.insert c).find? a =
      if c.arc = a then some ((n.find? a).elim c (·.intersect c))
      else n.find? a := by
  simp only [find?, insert, Std.ExtTreeMap.getElem?_insert,
    Std.LawfulEqCmp.compare_eq_iff_eq]
  split
  · rename_i h
    rw [h]
  · rfl

/-- The arcs listed are those that carry a constraint. -/
theorem mem_arcs {n : Network} {a : Arc} : a ∈ n.arcs ↔ (n.find? a).isSome := by
  simp [arcs, find?, Std.ExtTreeMap.mem_keys]

/-- An entry is there just where a constraint is found. -/
theorem mem_entries {n : Network} {a : Arc} :
    a ∈ n.entries ↔ (n.find? a).isSome := by
  rw [find?, Std.ExtTreeMap.isSome_getElem?_iff_mem]

/-- The neighbours of a variable are the far ends of the arcs that leave it. -/
theorem mem_neighbors {n : Network} {i j : Nat} :
    j ∈ n.neighbors i ↔ (n.find? ⟨i, j⟩).isSome := by
  rw [neighbors, Std.ExtTreeSet.mem_toList, n.agree.leaving, mem_entries]

/-- The variables incident on one are the near ends of the arcs that reach
it. -/
theorem mem_incident {n : Network} {i j : Nat} :
    j ∈ n.incident i ↔ (n.find? ⟨j, i⟩).isSome := by
  rw [incident, Std.ExtTreeSet.mem_toList, n.agree.reaching, mem_entries]

/-- The neighbours are listed in ascending order. -/
theorem neighbors_ascending (n : Network) (i : Nat) :
    (n.neighbors i).Pairwise (· < ·) :=
  Std.ExtTreeSet.ordered_toList.imp Nat.compare_eq_lt.mp

/-- And so are the variables incident on one. -/
theorem incident_ascending (n : Network) (i : Nat) :
    (n.incident i).Pairwise (· < ·) :=
  Std.ExtTreeSet.ordered_toList.imp Nat.compare_eq_lt.mp

/-- The number kept for a variable is that of its neighbours. -/
theorem degree_eq_length (n : Network) (i : Nat) :
    n.degree i = (n.neighbors i).length :=
  Std.ExtTreeSet.length_toList.symm

end Network

end ConstraintNet
