/-!
# Arcs

A variable is named by its index.  An arc is an ordered pair of variables; it
points from its tail to its head.  Arcs are ordered by tail and then by head.
-/

namespace ConstraintNet

/-- An ordered pair of variables. -/
structure Arc where
  tail : Nat
  head : Nat
deriving DecidableEq, Hashable, Inhabited

namespace Arc

instance : Ord Arc := ⟨compareLex (compareOn tail) (compareOn head)⟩

instance : Std.TransOrd Arc :=
  inferInstanceAs (Std.TransCmp (compareLex (compareOn tail) (compareOn head)))

instance : Std.LawfulEqOrd Arc where
  eq_of_compare {a b} h := by
    obtain ⟨ht, hh⟩ := Ordering.then_eq_eq.mp h
    have ht : a.tail = b.tail := Std.LawfulEqOrd.eq_of_compare ht
    have hh : a.head = b.head := Std.LawfulEqOrd.eq_of_compare hh
    cases a
    cases b
    simp_all

/-- An arc is known by its ends. -/
theorem mk_eq_iff {i j : Nat} {a : Arc} :
    mk i j = a ↔ i = a.tail ∧ j = a.head := by
  cases a
  simp

/-- The arc between the same variables that points the other way. -/
def reverse (a : Arc) : Arc := ⟨a.head, a.tail⟩

@[simp] theorem reverse_reverse (a : Arc) : a.reverse.reverse = a := rfl

/-- Written as tail and head, each behind a question mark. -/
def text (a : Arc) : String := s!"?{a.tail} -> ?{a.head}"

/-- An arc comes before another by its tail, and by its head where the tails
agree. -/
theorem compare_eq_lt {a b : Arc} :
    compare a b = .lt ↔ a.tail < b.tail ∨
    a.tail = b.tail ∧ a.head < b.head := by
  show (compare a.tail b.tail).then (compare a.head b.head) = .lt ↔ _
  rw [Ordering.then_eq_lt]
  simp [Nat.compare_eq_lt]

/-- Arcs in ascending order, repeats kept. -/
def sort (l : List Arc) : List Arc := l.mergeSort fun a b => (compare a b).isLE

end Arc

end ConstraintNet
