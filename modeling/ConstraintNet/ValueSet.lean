import Std.Data.ExtTreeSet
/-!
# Finite sets of values

A value is an integer.  A `ValueSet` keeps its members in a strictly ascending
list, so that a set has one representation only and can be walked from either
end.  A set that grows and shrinks, or that is asked for members often, is kept
in a search tree instead.

Main facts:

* `ext_mem` — two sets with the same members are equal;
* `mem_filter`, `mem_ofList`, `mem_ofTree` — what each operation does to the
  members.
-/

namespace ConstraintNet

/-- A finite set of integers, held as a strictly ascending list. -/
structure ValueSet where
  /-- The members, from the least to the greatest. -/
  toList : List Int
  ascending : toList.Pairwise (· < ·)
deriving DecidableEq

namespace ValueSet

instance : Membership Int ValueSet := ⟨fun s v => v ∈ s.toList⟩

instance (v : Int) (s : ValueSet) : Decidable (v ∈ s) :=
  inferInstanceAs (Decidable (v ∈ s.toList))

theorem mem_def {v : Int} {s : ValueSet} : v ∈ s ↔ v ∈ s.toList := Iff.rfl

/-- Ascending values are different values. -/
theorem nodup (s : ValueSet) : s.toList.Nodup :=
  s.ascending.imp fun h => Int.ne_of_lt h

/-- The set without members. -/
def empty : ValueSet := ⟨[], List.Pairwise.nil⟩

instance : EmptyCollection ValueSet := ⟨empty⟩

instance : Inhabited ValueSet := ⟨∅⟩

/-- The set with one member. -/
def singleton (v : Int) : ValueSet := ⟨[v], List.pairwise_singleton _ v⟩

/-- The number of members. -/
def size (s : ValueSet) : Nat := s.toList.length

/-- The members that pass a test. -/
def filter (p : Int → Bool) (s : ValueSet) : ValueSet :=
  ⟨s.toList.filter p, s.ascending.filter p⟩

/-- The members of a search tree, in order. -/
def ofTree (t : Std.ExtTreeSet Int) : ValueSet :=
  ⟨t.toList, t.ordered_toList.imp Int.compare_eq_lt.mp⟩

/-- The set of the values of a list, which may repeat and come in any order. -/
def ofList (l : List Int) : ValueSet := ofTree (.ofList l)

/-- Sets with the same members are equal. -/
theorem ext_mem {s t : ValueSet} (h : ∀ v, v ∈ s ↔ v ∈ t) : s = t := by
  have key : ∀ l m : List Int, l.Pairwise (· < ·) → m.Pairwise (· < ·) →
      (∀ v, v ∈ l ↔ v ∈ m) → l = m := by
    intro l
    induction l with
    | nil =>
        intro m _ _ hmem
        cases m with
        | nil => rfl
        | cons b m => exact absurd ((hmem b).mpr (by simp)) (by simp)
    | cons a l ih =>
        intro m hl hm hmem
        cases m with
        | nil => exact absurd ((hmem a).mp (by simp)) (by simp)
        | cons b m =>
            obtain ⟨hal, hl'⟩ := List.pairwise_cons.mp hl
            obtain ⟨hbm, hm'⟩ := List.pairwise_cons.mp hm
            have hab : a = b := by
              rcases List.mem_cons.mp ((hmem a).mp (by simp)) with h1 | h1
              · exact h1
              · rcases List.mem_cons.mp ((hmem b).mpr (by simp)) with h2 | h2
                · exact h2.symm
                · have := hbm a h1
                  have := hal b h2
                  omega
            subst hab
            congr 1
            refine ih m hl' hm' fun v => ⟨fun hv => ?_, fun hv => ?_⟩
            · have := hal v hv
              rcases List.mem_cons.mp ((hmem v).mp (by simp [hv])) with h' | h'
              · omega
              · exact h'
            · have := hbm v hv
              rcases List.mem_cons.mp ((hmem v).mpr (by simp [hv])) with h' | h'
              · omega
              · exact h'
  obtain ⟨l, hl⟩ := s
  obtain ⟨m, hm⟩ := t
  have : l = m := key l m hl hm h
  subst this
  rfl

@[simp] theorem not_mem_empty (v : Int) : v ∉ (∅ : ValueSet) := List.not_mem_nil

@[simp] theorem mem_singleton {v a : Int} : v ∈ singleton a ↔ v = a :=
  List.mem_singleton

@[simp] theorem mem_filter {v : Int} {p : Int → Bool} {s : ValueSet} :
    v ∈ s.filter p ↔ v ∈ s ∧ p v := List.mem_filter

@[simp] theorem mem_ofTree {v : Int} {t : Std.ExtTreeSet Int} :
    v ∈ ofTree t ↔ v ∈ t :=
  Std.ExtTreeSet.mem_toList

/-- A list and its set have the same members, however often and in whatever
order the list has them. -/
@[simp] theorem mem_ofList {v : Int} {l : List Int} : v ∈ ofList l ↔ v ∈ l := by
  simp [ofList, Std.ExtTreeSet.mem_ofList]

/-- A set is the set of the values on its list. -/
@[simp] theorem ofList_toList (s : ValueSet) : ofList s.toList = s :=
  ext_mem fun _ => mem_ofList

/-- No more members are kept than there are. -/
theorem size_filter_le (p : Int → Bool) (s : ValueSet) :
    (s.filter p).size ≤ s.size :=
  List.length_filter_le p s.toList

/-- A test that some member fails leaves fewer members. -/
theorem size_filter_lt {p : Int → Bool} {s : ValueSet} {v : Int} (hv : v ∈ s)
    (hp : p v = false) : (s.filter p).size < s.size :=
  List.length_filter_lt_length_iff_exists.mpr ⟨v, hv, by simp [hp]⟩

end ValueSet

end ConstraintNet
