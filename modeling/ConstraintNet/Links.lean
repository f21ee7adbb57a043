import Std.Data.ExtTreeMap
import Std.Data.ExtTreeSet
import ConstraintNet.Arc
/-!
# Links

The links of a network tell for each variable which variables its arcs lead to
and from which variables arcs reach it.  They are kept apart from the arcs, and
grow with each arc by one entry at either end.

Main facts:

* `Agree.add` — links that agree with some arcs agree, with one more, with these
  and it.
-/

namespace ConstraintNet

/-- The variables at the far ends of arcs, by the variable at the near end. -/
abbrev FarEnds := Std.ExtTreeMap Nat (Std.ExtTreeSet Nat)

namespace FarEnds

/-- The far ends of the arcs at a near end, none if nothing is kept for it. -/
def of (m : FarEnds) (near : Nat) : Std.ExtTreeSet Nat := m.getD near ∅

/-- One more far end for a near end. -/
def add (m : FarEnds) (near far : Nat) : FarEnds :=
  m.insert near ((m.of near).insert far)

@[simp] theorem not_mem_of_empty (i j : Nat) : j ∉ (∅ : FarEnds).of i := by
  simp [of]

/-- An addition concerns its own near end, and puts nothing there but its far
end. -/
theorem mem_of_add {m : FarEnds} {near far i j : Nat} :
    j ∈ (m.add near far).of i ↔ i = near ∧ j = far ∨ j ∈ m.of i := by
  by_cases h : near = i
  · subst h
    simp [of, add, @eq_comm _ far]
  · simp [of, add, Std.ExtTreeMap.getD_insert, h, Ne.symm h]

end FarEnds

/-- What the arcs of a network link, from both ends. -/
structure Links where
  /-- The heads of the arcs that leave a variable. -/
  leaving : FarEnds
  /-- The tails of the arcs that reach a variable. -/
  reaching : FarEnds

namespace Links

/-- The links of a network without arcs. -/
def empty : Links := ⟨∅, ∅⟩

instance : EmptyCollection Links := ⟨empty⟩

/-- The links with those of one more arc. -/
def add (k : Links) (a : Arc) : Links where
  leaving := k.leaving.add a.tail a.head
  reaching := k.reaching.add a.head a.tail

/-- The links are those of the given arcs, at both ends of each. -/
structure Agree (k : Links) (arcs : Arc → Prop) : Prop where
  leaving : ∀ i j, j ∈ k.leaving.of i ↔ arcs ⟨i, j⟩
  reaching : ∀ i j, i ∈ k.reaching.of j ↔ arcs ⟨i, j⟩

variable {k : Links} {arcs : Arc → Prop} {a : Arc}

/-- Without constraints there are no links. -/
theorem agree_empty : (∅ : Links).Agree fun _ => False where
  leaving i j := iff_of_false (FarEnds.not_mem_of_empty i j) not_false
  reaching i j := iff_of_false (FarEnds.not_mem_of_empty j i) not_false

/-- **An arc is linked at both its ends**, and the links there were stay. -/
theorem Agree.add (h : k.Agree arcs) (a : Arc) :
    (k.add a).Agree fun b => b = a ∨ arcs b where
  leaving i j := by
    rw [Links.add, FarEnds.mem_of_add, h.leaving, Arc.mk_eq_iff]
  reaching i j := by
    rw [Links.add, FarEnds.mem_of_add, h.reaching, Arc.mk_eq_iff, and_comm]

theorem Agree.congr {arcs' : Arc → Prop} (h : k.Agree arcs)
    (harcs : ∀ a, arcs a ↔ arcs' a) : k.Agree arcs' where
  leaving i j := (h.leaving i j).trans (harcs ⟨i, j⟩)
  reaching i j := (h.reaching i j).trans (harcs ⟨i, j⟩)

end Links

end ConstraintNet
