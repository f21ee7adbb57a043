import Mathlib.Data.List.Permutation
import ConstraintNet.Solution
import ConstraintNet.Proofs.Insertions

/-!
# What is looked up

A constraint answers from its index, and a solution from its sorted assignments;
both look up by halves.  They agree with the lists that they were made of: the
supports of a value are the second values listed with it, in ascending order,
whichever order the pairs came in and however often; the value of a variable is
the one listed for it, whichever order the assignments came in.

So checking a solution is exact.  The violated arcs are those with values at
both ends whose pair is not listed, and a solution satisfies a network when
there are none.
-/

namespace ConstraintNet

/-! ## Constraints -/

namespace Constraint

/-- **What a constraint answers is what its pairs say**, from either end: the
supports of a value are the second values listed with it, in ascending order and
each once, and the transposed constraint allows the same pairs the other way
round. -/
theorem answers_eq_pairs (first second : Nat) (pairs : List (Int × Int)) :
    let c : Constraint := { first, second, pairs }
    (∀ x l, (c.supports x).toList = l ↔
      l.Pairwise (· < ·) ∧ ∀ y, y ∈ l ↔ (x, y) ∈ pairs) ∧
    (∀ x y, c.allows x y ↔ (x, y) ∈ pairs) ∧
    (∀ x y, c.transposed.allows y x = c.allows x y) ∧
    (∀ x y, x ∈ c.transposed.supports y ↔ y ∈ c.supports x) ∧
    c.transposed.transposed = c := by
  intro c
  refine ⟨fun x l => ?_, fun x y => allows_iff, fun x y => ?_, fun x y => ?_,
    transposed_transposed c⟩
  · rw [eq_iff_of_asymm (fun _ _ => Int.lt_asymm) (c.supports x).ascending]
    simp only [← ValueSet.mem_def, mem_supports]
    rfl
  · rw [Bool.eq_iff_iff, allows_iff, allows_iff, mem_pairs_transposed]
  · rw [mem_supports, mem_supports, mem_pairs_transposed]

end Constraint

/-! ## Solutions -/

namespace Solution

variable {l m : List Assignment} {net : Network} {i : Nat} {v : Int}

/-- Sorting keeps the assignments given. -/
theorem ofList_perm (l : List Assignment) : (ofList l).assignments.Perm l :=
  List.mergeSort_perm l _

/-- Variables that differ still do once they are sorted. -/
theorem nodup_ofList (hl : (l.map Assignment.index).Nodup) :
    ((ofList l).assignments.map Assignment.index).Nodup :=
  ((ofList_perm l).map Assignment.index).nodup_iff.mpr hl

/-- The assignments stand in strict order of the variables. -/
theorem ofList_ascending (hl : (l.map Assignment.index).Nodup) :
    (ofList l).assignments.Pairwise (·.index < ·.index) := by
  have hsorted : (ofList l).assignments.Pairwise fun a b =>
      a.index ≤ b.index := by
    refine (List.pairwise_mergeSort ?_ ?_ l).imp fun h => by simpa using h
    · intro a b c hab hbc
      simp only [decide_eq_true_eq] at hab hbc ⊢
      omega
    · intro a b
      simp only [Bool.or_eq_true, decide_eq_true_eq]
      omega
  have hdistinct : (ofList l).assignments.Pairwise fun a b =>
      a.index ≠ b.index :=
    List.pairwise_map.mp (nodup_ofList hl)
  exact hsorted.imp₂ (fun a b hle hne => by omega) hdistinct

/-- So their order does not matter. -/
theorem ofList_eq_of_perm (hl : (l.map Assignment.index).Nodup) (h : m.Perm l) :
    ofList m = ofList l := by
  have hm : (m.map Assignment.index).Nodup :=
    (h.map Assignment.index).nodup_iff.mpr hl
  have hperm : (ofList m).assignments.Perm (ofList l).assignments :=
    (ofList_perm m).trans (h.trans (ofList_perm l).symm)
  have heq : (ofList m).assignments = (ofList l).assignments := by
    refine hperm.eq_of_pairwise ?_ (ofList_ascending hm) (ofList_ascending hl)
    intro a b _ _ hab hba
    omega
  exact congrArg Solution.mk heq

/-- **The value of a variable is the one listed for it**: the search is made on
a table that the sort has put in order. -/
theorem valueOf?_ofList (hl : (l.map Assignment.index).Nodup) :
    (ofList l).valueOf? i = some v ↔ ⟨i, v⟩ ∈ l := by
  rw [valueOf?_eq_some_iff (ofList_ascending hl), (ofList_perm l).mem_iff]

/-- Both ends of the arc have values whose pair its constraint does not list. -/
def Breaks (l : List Assignment) (net : Network) (a : Arc) : Prop :=
  ∃ c x y, net.find? a = some c ∧ ⟨a.tail, x⟩ ∈ l ∧ ⟨a.head, y⟩ ∈ l ∧
    (x, y) ∉ c.pairs

/-- An arc is violated when the values at its ends break its constraint. -/
theorem mem_violations {s : Solution} {a : Arc} :
    a ∈ s.violations net ↔ ∃ c x y,
      net.find? a = some c ∧ s.valueOf? a.tail = some x ∧
      s.valueOf? a.head = some y ∧ (x, y) ∉ c.pairs := by
  have hclash : clashes s.assignments.toArray net a ↔
      ∃ x y, s.valueOf? a.tail = some x ∧
      s.valueOf? a.head = some y ∧ net.allows a x y = false := by
    rw [clashes, valueOf?, valueOf?]
    cases lookup? s.assignments.toArray a.tail <;>
      cases lookup? s.assignments.toArray a.head <;> simp
  rw [violations, List.mem_filter, hclash, Network.mem_arcs]
  constructor
  · rintro ⟨hsome, x, y, hx, hy, hout⟩
    obtain ⟨c, hc⟩ := Option.isSome_iff_exists.mp hsome
    refine ⟨c, x, y, hc, hx, hy, fun hmem => ?_⟩
    rw [Network.allows, hc, Option.elim_some, Constraint.allows_iff.mpr hmem]
      at hout
    cases hout
  · rintro ⟨c, x, y, hc, hx, hy, hout⟩
    refine ⟨by rw [hc]; rfl, x, y, hx, hy, ?_⟩
    rw [Network.allows, hc, Option.elim_some]
    exact Bool.eq_false_iff.mpr fun h => hout (Constraint.allows_iff.mp h)

/-- The violations come in the order of their arcs, by tail and then by head. -/
theorem violations_ascending (s : Solution) (net : Network) :
    (s.violations net).Pairwise fun a b =>
      a.tail < b.tail ∨ a.tail = b.tail ∧ a.head < b.head :=
  net.arcs_ascending.filter _

/-- **Looking up and checking are exact.**  Of assignments to different
variables, in any order, a solution keeps each, in strict order of the
variables, and a search by halves finds the value of each variable that has one.
The violated arcs are those at whose ends they break the constraint, each once
and in ascending order. -/
theorem ofList_checks (l : List Assignment)
    (hl : (l.map Assignment.index).Nodup) (net : Network) :
    ((ofList l).assignments.Perm l ∧
      (ofList l).assignments.Pairwise (·.index < ·.index)) ∧
    (∀ i v, (ofList l).valueOf? i = some v ↔ ⟨i, v⟩ ∈ l) ∧
    (∀ i, (ofList l).valueOf? i = none ↔ ∀ v, ⟨i, v⟩ ∉ l) ∧
    (∀ m, m.Perm l → ofList m = ofList l) ∧
    (∀ arcs, (ofList l).violations net = arcs ↔
      (arcs.Pairwise fun a b => a.tail < b.tail ∨
          a.tail = b.tail ∧ a.head < b.head) ∧
        ∀ a, a ∈ arcs ↔ Breaks l net a) ∧
    ((ofList l).satisfies net ↔ ∀ a, ¬ Breaks l net a) := by
  have hmem : ∀ a, a ∈ (ofList l).violations net ↔ Breaks l net a := by
    intro a
    simp only [mem_violations, valueOf?_ofList hl, Breaks]
  refine ⟨⟨ofList_perm l, ofList_ascending hl⟩,
    fun i v => valueOf?_ofList hl, ?_,
    fun m hm => ofList_eq_of_perm hl hm, ?_, ?_⟩
  · intro i
    simp only [Option.eq_none_iff_forall_ne_some, ne_eq, valueOf?_ofList hl]
  · intro arcs
    rw [eq_iff_of_asymm Network.not_before_of_before
      (violations_ascending _ net)]
    simp only [hmem]
  · rw [satisfies, List.isEmpty_iff, List.eq_nil_iff_forall_not_mem]
    simp only [hmem]

/-- No value for `1`, an arc in one direction only, and one from `2` to
itself. -/
theorem ofList_checks_of_three :
    let l : List Assignment := [⟨3, 4⟩, ⟨2, 7⟩, ⟨0, 5⟩]
    let net : Network := .ofConstraints
      [{ first := 0, second := 2, pairs := [(5, 7)] },
        { first := 2, second := 2, pairs := [] },
        { first := 2, second := 0, pairs := [(5, 7)] },
        { first := 0, second := 1, pairs := [] }]
    (l.map Assignment.index).Nodup ∧
      (ofList l).assignments.Pairwise (·.index < ·.index) ∧
      (ofList l).valueOf? 2 = some 7 ∧ (ofList l).valueOf? 1 = none ∧
      ofList [⟨0, 5⟩, ⟨3, 4⟩, ⟨2, 7⟩] = ofList l ∧
      (ofList l).violations net = [⟨2, 0⟩, ⟨2, 2⟩] ∧ Breaks l net ⟨2, 2⟩ ∧
      ¬ (ofList l).satisfies net := by
  intro l net
  have hl : (l.map Assignment.index).Nodup := by decide
  obtain ⟨⟨-, hascending⟩, hvalue, hnone, hperm, hviolations, hsatisfies⟩ :=
    ofList_checks l hl net
  have hlist : (ofList l).violations net = [⟨2, 0⟩, ⟨2, 2⟩] := by cbv
  have hbreaks : Breaks l net ⟨2, 2⟩ :=
    (((hviolations _).mp hlist).2 ⟨2, 2⟩).mp (by simp)
  exact ⟨hl, hascending, (hvalue 2 7).mpr (by simp [l]),
    (hnone 1).mpr (by simp [l]),
    hperm _ (by decide), hlist, hbreaks, fun h => hsatisfies.mp h _ hbreaks⟩

end Solution

end ConstraintNet
