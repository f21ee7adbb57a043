import Std.Data.TreeMap
import ConstraintNet.Arc
import ConstraintNet.Bisection
import ConstraintNet.ValueSet
/-!
# Constraints in extension

A constraint lists the value pairs that it allows for two variables.  The list
is kept as given.  Beside it stands an index from each first value to the set
of second values that it may go with, computed once when the constraint is made.
Whether a pair is allowed is found out by a binary search of the second values.

Main facts:

* `mem_supports` — the supports of a value are the second values listed with it;
* `allows_iff` — the pairs that a search finds allowed are those listed;
* `transposed_transposed` — exchanging the two variables twice changes nothing.
-/

namespace ConstraintNet

/-- The second values allowed with each first value. -/
abbrev SupportIndex := Std.TreeMap Int ValueSet

namespace SupportIndex

/-- The second values listed with each first value, with one more pair. -/
def collect (listed : Std.TreeMap Int (List Int)) (pair : Int × Int) :
    Std.TreeMap Int (List Int) :=
  listed.insert pair.1 (pair.2 :: listed.getD pair.1 [])

/-- The index of a list of pairs. -/
def ofPairs (pairs : List (Int × Int)) : SupportIndex :=
  (pairs.foldl collect ∅).map fun _ seconds => .ofList seconds

/-- A pair is listed at its first value. -/
theorem mem_getD_collect {listed : Std.TreeMap Int (List Int)}
    {pair : Int × Int} {x y : Int} :
    y ∈ (collect listed pair).getD x [] ↔
    (x, y) = pair ∨ y ∈ listed.getD x [] := by
  obtain ⟨a, b⟩ := pair
  by_cases h : a = x
  · subst h
    simp [collect]
  · have : ¬ (x = a ∧ y = b) := fun hx => h hx.1.symm
    simp [collect, Std.TreeMap.getD_insert, h, this]

/-- Each of several pairs is listed there. -/
theorem mem_getD_foldl_collect {pairs : List (Int × Int)}
    {listed : Std.TreeMap Int (List Int)} {x y : Int} :
    y ∈ (pairs.foldl collect listed).getD x [] ↔
    (x, y) ∈ pairs ∨ y ∈ listed.getD x [] := by
  induction pairs generalizing listed with
  | nil => simp
  | cons pair pairs ih =>
      rw [List.foldl_cons, ih, mem_getD_collect, List.mem_cons]
      exact ⟨fun h => h.elim (.inl ∘ .inr) (Or.imp_left .inl),
        fun h => h.elim (Or.elim · (.inr ∘ .inl) .inl) (.inr ∘ .inr)⟩

/-- The supports of a value are its second values in the pairs, however often
they are given. -/
theorem mem_getD_ofPairs {pairs : List (Int × Int)} {x y : Int} :
    y ∈ (ofPairs pairs).getD x ∅ ↔ (x, y) ∈ pairs := by
  have key : y ∈ (pairs.foldl collect ∅).getD x [] ↔ (x, y) ∈ pairs := by
    simp [mem_getD_foldl_collect]
  rw [← key, ofPairs, Std.TreeMap.getD_map, Std.TreeMap.getD_eq_getD_getElem?]
  cases (pairs.foldl collect ∅)[x]? <;> simp

end SupportIndex

/-- The pairs allowed for two variables, in the order in which they were
given. -/
structure Constraint where
  first : Nat
  second : Nat
  pairs : List (Int × Int)
  index : SupportIndex := SupportIndex.ofPairs pairs
  index_eq : index = SupportIndex.ofPairs pairs := by rfl

namespace Constraint

/-- Two constraints are equal when they have the same scope and the same
list. -/
theorem ext_pairs {c d : Constraint} (h1 : c.first = d.first)
    (h2 : c.second = d.second) (h3 : c.pairs = d.pairs) : c = d := by
  obtain ⟨a, b, l, i, hi⟩ := c
  obtain ⟨a', b', l', i', hi'⟩ := d
  subst h1 h2 h3 hi hi'
  rfl

instance : DecidableEq Constraint := fun c d =>
  decidable_of_iff (c.first = d.first ∧ c.second = d.second ∧ c.pairs = d.pairs)
    ⟨fun ⟨h1, h2, h3⟩ => ext_pairs h1 h2 h3, fun h => h ▸ ⟨rfl, rfl, rfl⟩⟩

/-- The arc from the first variable to the second. -/
def arc (c : Constraint) : Arc := ⟨c.first, c.second⟩

/-- The second values allowed with the first value `x`. -/
def supports (c : Constraint) (x : Int) : ValueSet := c.index.getD x ∅

/-- The supports of `x` are the values listed with it. -/
@[simp] theorem mem_supports {c : Constraint} {x y : Int} :
    y ∈ c.supports x ↔ (x, y) ∈ c.pairs := by
  rw [supports, c.index_eq]
  exact SupportIndex.mem_getD_ofPairs

/-- Whether the pair of `x` and `y` is allowed: whether a search of the supports
of `x` finds `y`. -/
def allows (c : Constraint) (x y : Int) : Bool :=
  (Bisection.find? (compare · y) (c.supports x).toList.toArray).isSome

/-- The pairs found allowed are those listed, since the supports are in
ascending order. -/
@[simp] theorem allows_iff {c : Constraint} {x y : Int} :
    c.allows x y ↔ (x, y) ∈ c.pairs := by
  have horder :
      Bisection.InOrder (compare · y) (c.supports x).toList.toArray.toList :=
    Bisection.inOrder_of_ascending
      ((c.supports x).ascending.imp Int.compare_eq_lt.mpr) y
  rw [allows, Bisection.isSome_find? horder, ← mem_supports]
  simp [Std.LawfulEqCmp.compare_eq_iff_eq, ValueSet.mem_def]

/-- The second values allowed with some of given first values. -/
def supported (c : Constraint) (firsts : List Int) : Std.ExtTreeSet Int :=
  firsts.foldl (fun s x => s.insertMany (c.supports x).toList) ∅

/-- A second value is supported when it is listed with one of the first
values. -/
theorem mem_supported {c : Constraint} {firsts : List Int} {y : Int} :
    y ∈ c.supported firsts ↔ ∃ x ∈ firsts, (x, y) ∈ c.pairs := by
  have key : ∀ s : Std.ExtTreeSet Int,
      y ∈ firsts.foldl (fun s x => s.insertMany (c.supports x).toList) s ↔
        y ∈ s ∨ ∃ x ∈ firsts, (x, y) ∈ c.pairs := by
    induction firsts with
    | nil => simp
    | cons x firsts ih =>
        intro s
        rw [List.foldl_cons, ih, Std.ExtTreeSet.mem_insertMany_list,
          List.contains_iff_mem, ← ValueSet.mem_def, mem_supports]
        simp [or_assoc]
  simpa [supported] using key ∅

/-- The same relation seen from the second variable. -/
def transposed (c : Constraint) : Constraint where
  first := c.second
  second := c.first
  pairs := c.pairs.map Prod.swap

/-- Turning a constraint round twice gives it back. -/
@[simp] theorem transposed_transposed (c : Constraint) :
    c.transposed.transposed = c :=
  ext_pairs rfl rfl (by simp [transposed])

/-- Pairs are compared by their first values, and by their second where these
agree. -/
def comparePairs : Int × Int → Int × Int → Ordering :=
  compareLex (compareOn Prod.fst) (compareOn Prod.snd)

instance : Std.TransCmp comparePairs :=
  inferInstanceAs
    (Std.TransCmp (compareLex (compareOn Prod.fst) (compareOn Prod.snd)))

instance : Std.LawfulEqCmp comparePairs where
  eq_of_compare {p q} h := by
    obtain ⟨hfirst, hsecond⟩ := Ordering.then_eq_eq.mp h
    exact Prod.ext (Std.LawfulEqOrd.eq_of_compare hfirst)
      (Std.LawfulEqOrd.eq_of_compare hsecond)

/-- The constraint that allows what both `c` and `d` allow, on the scope of `c`.
Its pairs are those of `c` that `d` allows, in ascending order and without
repeats. -/
def intersect (c d : Constraint) : Constraint where
  first := c.first
  second := c.second
  pairs :=
    (Std.ExtTreeSet.ofList (c.pairs.filter fun p => d.allows p.1 p.2)
      comparePairs).toList

/-- The name of this kind of constraint in reports. -/
def kindName : String := "ExtensionalConstraint"

/-- One line about the constraint: its scope and the number of pairs listed. -/
def description (c : Constraint) : String :=
  s!"(?{c.first}, ?{c.second}) in {c.pairs.length} pairs"

end Constraint

end ConstraintNet
