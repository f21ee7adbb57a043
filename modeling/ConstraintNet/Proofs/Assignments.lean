import ConstraintNet.Proofs.PropagationLaws
import ConstraintNet.Proofs.Symmetry
import ConstraintNet.Solution

/-!
# Assignments and the solutions they make

An assignment gives a value to every index.  The solution that it makes for the
first `n` variables lists their values in order; it satisfies a network within
these variables just when the assignment holds on all arcs.

`Enumerates` says of a list of solutions that it has those of the assignments
wanted, each once; after a search that was stopped some may be missing.
-/

namespace ConstraintNet

/-- The assignment is allowed on every arc. -/
def Network.Holds (net : Network) (τ : Nat → Int) : Prop :=
  ∀ a c, net.find? a = some c → (τ a.tail, τ a.head) ∈ c.pairs

namespace Network

variable {net : Network} {c : Constraint} {τ : Nat → Int}

theorem holds_empty (τ : Nat → Int) : (∅ : Network).Holds τ := by
  intro a c hc
  rw [find?_empty] at hc
  cases hc

/-- A constraint that the assignment satisfies can be added. -/
theorem Holds.insert (h : net.Holds τ)
    (hc : (τ c.first, τ c.second) ∈ c.pairs) : (net.insert c).Holds τ := by
  intro a d hd
  by_cases hca : c.arc = a
  · subst hca
    obtain ⟨e, he, hpairs⟩ := exists_find?_insert net c
    rw [he] at hd
    cases hd
    exact (hpairs _ _).mpr ⟨fun d hd => h _ d hd, hc⟩
  · rw [find?_insert_of_ne hca] at hd
    exact h a d hd

/-- A constraint put on both arcs is to hold one way only. -/
theorem Holds.insertSymmetric (h : net.Holds τ)
    (hc : (τ c.first, τ c.second) ∈ c.pairs) :
    (net.insertSymmetric c).Holds τ :=
  (h.insert (Constraint.mem_pairs_transposed.mpr hc)).insert hc

end Network

namespace Solution

/-- The solution that an assignment makes for the first `n` variables. -/
def tabulate (n : Nat) (τ : Nat → Int) : Solution :=
  ⟨(List.range n).map fun i => ⟨i, τ i⟩⟩

variable {n : Nat} {τ ρ : Nat → Int}

/-- A solution of `n` variables is made from their values alone. -/
theorem tabulate_congr (h : ∀ i, i < n → τ i = ρ i) :
    tabulate n τ = tabulate n ρ := by
  refine congrArg mk (List.map_congr_left fun i hi => ?_)
  rw [h i (List.mem_range.mp hi)]

/-- These values can be read off it. -/
theorem eq_of_tabulate_eq (h : tabulate n τ = tabulate n ρ) {i : Nat}
    (hi : i < n) : τ i = ρ i := by
  have hlists := congrArg (fun s => s.assignments[i]?) h
  simpa [tabulate, hi] using hlists

/-- A table of the first variables lists them in ascending order. -/
theorem tabulate_ascending (n : Nat) (τ : Nat → Int) :
    (tabulate n τ).assignments.Pairwise (·.index < ·.index) := by
  rw [tabulate, List.pairwise_map]
  exact List.pairwise_lt_range

/-- So each variable is found with its value, and no other is. -/
theorem valueOf?_tabulate {i : Nat} :
    (tabulate n τ).valueOf? i = if i < n then some (τ i) else none := by
  have hmem : ∀ v, (⟨i, v⟩ : Assignment) ∈ (tabulate n τ).assignments ↔
      i < n ∧ τ i = v := by
    intro v
    simp only [tabulate, List.mem_map, List.mem_range, Assignment.mk.injEq]
    constructor
    · rintro ⟨j, hj, rfl, hv⟩
      exact ⟨hj, hv⟩
    · exact fun ⟨hi, hv⟩ => ⟨i, hi, rfl, hv⟩
  ext v
  rw [valueOf?_eq_some_iff (tabulate_ascending n τ), hmem]
  by_cases hi : i < n
  · simp [hi]
  · simp [hi]

/-- Within the variables of a solution, to satisfy a network is to hold on its
arcs. -/
theorem satisfies_tabulate {net : Network} (hnet : net.Within n) :
    (tabulate n τ).satisfies net ↔ net.Holds τ := by
  have hclash : ∀ a c, net.find? a = some c →
      ((tabulate n τ).violatesAt net a = false ↔
        (τ a.tail, τ a.head) ∈ c.pairs) := by
    intro a c hc
    obtain ⟨htail, hhead⟩ := hnet a (Network.mem_arcs_of_find? hc)
    have ht := valueOf?_tabulate (n := n) (τ := τ) (i := a.tail)
    have hh := valueOf?_tabulate (n := n) (τ := τ) (i := a.head)
    rw [if_pos htail, valueOf?] at ht
    rw [if_pos hhead, valueOf?] at hh
    simp only [violatesAt, clashes, ht, hh, Network.allows, hc,
      Option.elim_some, Bool.not_eq_false', Constraint.allows_iff]
  rw [satisfies_iff]
  constructor
  · intro h a c hc
    exact (hclash a c hc).mp (h a (Network.mem_arcs_of_find? hc))
  · intro h a ha
    obtain ⟨c, hc⟩ := Option.isSome_iff_exists.mp (Network.mem_arcs.mp ha)
    exact (hclash a c hc).mpr (h a c hc)

/-- What variables in their places, each with a value, make up. -/
theorem ofArena?_eq {m : Arena}
    (h : ∀ i x, m.read i = .ok x → x.id = i ∧ x.value = some (τ i)) :
    ofArena? m = some (tabulate m.size τ) := by
  have hcomplete : m.isComplete := Arena.isComplete_iff.mpr fun i x hx => by
    rw [Variable.isAssigned, (h i x hx).2]
    rfl
  have hsome :
      m.toList.map (fun x : Variable => x.value.map (Assignment.mk x.id)) =
      m.toList.map (fun x : Variable =>
        some (Assignment.mk x.id (τ x.id))) := by
    apply List.map_congr_left
    intro x hx
    obtain ⟨i, hi⟩ := Arena.mem_toList.mp hx
    obtain ⟨hid, hvalue⟩ := h i x hi
    rw [hvalue, hid, Option.map_some]
  have hlist :
      (m.toList.filterMap fun x : Variable =>
        x.value.map (Assignment.mk x.id)) =
      (tabulate m.size τ).assignments := by
    have hmap := congrArg (List.filterMap id) hsome
    simp only [List.filterMap_map, Function.id_comp] at hmap
    rw [hmap, List.filterMap_eq_map']
    apply List.ext_getElem?
    intro i
    rw [tabulate, List.getElem?_map, List.getElem?_map, Arena.toList,
      Array.getElem?_toList]
    by_cases hi : i < m.size
    · obtain ⟨x, hx⟩ := Arena.exists_read hi
      rw [Arena.read_eq_ok.mp hx, List.getElem?_range hi, Option.map_some,
        Option.map_some, (h i x hx).1]
    · have hcells : m.cells[i]? = none :=
        Array.getElem?_eq_none (Nat.not_lt.mp hi)
      have hrange : (List.range m.size)[i]? = none :=
        List.getElem?_eq_none
          (by rw [List.length_range]; exact Nat.not_lt.mp hi)
      rw [hcells, hrange, Option.map_none, Option.map_none]
  rw [ofArena?, if_pos hcomplete, hlist, ofList, List.mergeSort_of_pairwise]
  exact (tabulate_ascending m.size τ).imp fun hab =>
    decide_eq_true (Nat.le_of_lt hab)

end Solution

/-- The list has the solutions of the assignments wanted, each once, and all of
them if the search was not stopped. -/
structure Enumerates (n : Nat) (Wanted : (Nat → Int) → Prop) (all : Prop)
    (l : List Solution) : Prop where
  nodup : l.Nodup
  sound : ∀ s ∈ l, ∃ τ, Wanted τ ∧ s = .tabulate n τ
  complete : all → ∀ τ, Wanted τ → .tabulate n τ ∈ l

namespace Enumerates

variable {n : Nat} {V V' W : (Nat → Int) → Prop} {P P' : Prop}
  {l l' : List Solution}

theorem nil (h : ∀ τ, ¬ V τ) : Enumerates n V P [] where
  nodup := List.nodup_nil
  sound := by simp
  complete _ τ hτ := absurd hτ (h τ)

theorem congr (h : Enumerates n V P l) (hV : ∀ τ, V τ ↔ W τ) :
    Enumerates n W P l where
  nodup := h.nodup
  sound s hs := by
    obtain ⟨τ, hτ, rfl⟩ := h.sound s hs
    exact ⟨τ, (hV τ).mp hτ, rfl⟩
  complete hP τ hτ := h.complete hP τ ((hV τ).mpr hτ)

/-- The solutions in the list are those of the assignments. -/
theorem mem_iff (h : Enumerates n V P l) (hP : P) {s : Solution} :
    s ∈ l ↔ ∃ τ, V τ ∧ s = .tabulate n τ := by
  refine ⟨h.sound s, fun hs => ?_⟩
  obtain ⟨τ, hτ, rfl⟩ := hs
  exact h.complete hP τ hτ

/-- Two enumerations without common solutions, one after the other. -/
theorem append (h : Enumerates n V P l) (h' : Enumerates n V' P' l') (hP : P)
    (hdisjoint : ∀ τ ρ, V τ → V' ρ → ∃ i, i < n ∧ τ i ≠ ρ i)
    (hW : ∀ τ, W τ ↔ V τ ∨ V' τ) : Enumerates n W P' (l ++ l') where
  nodup := by
    refine List.nodup_append.mpr ⟨h.nodup, h'.nodup, ?_⟩
    rintro s hs s' hs' rfl
    obtain ⟨τ, hτ, rfl⟩ := h.sound s hs
    obtain ⟨ρ, hρ, heq⟩ := h'.sound _ hs'
    obtain ⟨i, hi, hne⟩ := hdisjoint τ ρ hτ hρ
    exact hne (Solution.eq_of_tabulate_eq heq hi)
  sound s hs := by
    rcases List.mem_append.mp hs with hs | hs
    · obtain ⟨τ, hτ, rfl⟩ := h.sound s hs
      exact ⟨τ, (hW τ).mpr (Or.inl hτ), rfl⟩
    · obtain ⟨τ, hτ, rfl⟩ := h'.sound s hs
      exact ⟨τ, (hW τ).mpr (Or.inr hτ), rfl⟩
  complete hP' τ hτ := by
    rcases (hW τ).mp hτ with hτ | hτ
    · exact List.mem_append_left _ (h.complete hP τ hτ)
    · exact List.mem_append_right _ (h'.complete hP' τ hτ)

/-- An enumeration that was stopped is one of anything more. -/
theorem stopped (h : Enumerates n V P l) (hW : ∀ τ, V τ → W τ) :
    Enumerates n W False l where
  nodup := h.nodup
  sound s hs := by
    obtain ⟨τ, hτ, rfl⟩ := h.sound s hs
    exact ⟨τ, hW τ hτ, rfl⟩
  complete hP := hP.elim

end Enumerates

end ConstraintNet
