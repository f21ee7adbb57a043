import ConstraintNet.Proofs.Narrowing
import Mathlib.Combinatorics.SimpleGraph.Acyclic

/-!
# Networks without cycles

Join two variables when an arc between them carries a constraint.  If this graph
has no cycle and all arcs are consistent, any value that shows extends to an
assignment that holds on the network, and so no value that shows is a mistake.

The proof takes the arcs one by one.  An arc that closes no cycle is all that
joins its two sides, so that an assignment on the one side may go with any
assignment on the other, as long as the arc allows the two values at its ends.
-/

namespace ConstraintNet

/-! ## Assignments on graphs -/

/-- Two different variables are joined when an arc of the list leads from one to
the other. -/
def arcGraph (l : List Arc) : SimpleGraph Nat := .fromRel fun i j => ⟨i, j⟩ ∈ l

/-- The graph of the arcs that carry a constraint. -/
def Network.graph (net : Network) : SimpleGraph Nat := arcGraph net.arcs

/-- The assignment takes its values from a family, and those of joined variables
are related. -/
structure Fits (F : Nat → Int → Prop) (R : Nat → Nat → Int → Int → Prop)
    (G : SimpleGraph Nat) (τ : Nat → Int) : Prop where
  mem : ∀ i, F i (τ i)
  related : ∀ i j, G.Adj i j → R i j (τ i) (τ j)

open Classical in
/-- One assignment where the graph leads from `b`, and another elsewhere. -/
noncomputable def splice (G : SimpleGraph Nat) (b : Nat) (ρ τ : Nat → Int)
    (j : Nat) : Int :=
  if G.Reachable b j then ρ j else τ j

section

variable {F : Nat → Int → Prop} {R : Nat → Nat → Int → Int → Prop}
  {G : SimpleGraph Nat} {ρ τ : Nat → Int} {a b i j : Nat} {v : Int}
  {l : List Arc} {e : Arc}

/-- The spliced assignment is the new one on the part of the graph that is
reached. -/
theorem splice_of_reachable (h : G.Reachable b j) : splice G b ρ τ j = ρ j :=
  if_pos h

/-- It is the old one on all other variables. -/
theorem splice_of_not_reachable (h : ¬ G.Reachable b j) :
    splice G b ρ τ j = τ j := if_neg h

/-- Splicing does not split an edge. -/
theorem Fits.splice (hρ : Fits F R G ρ) (hτ : Fits F R G τ) (b : Nat) :
    Fits F R G (splice G b ρ τ) where
  mem i := by
    by_cases hi : G.Reachable b i
    · rw [splice_of_reachable hi]
      exact hρ.mem i
    · rw [splice_of_not_reachable hi]
      exact hτ.mem i
  related i j hadj := by
    by_cases hi : G.Reachable b i
    · rw [splice_of_reachable hi, splice_of_reachable (hi.trans hadj.reachable)]
      exact hρ.related i j hadj
    · have hj : ¬ G.Reachable b j := fun h => hi (h.trans hadj.symm.reachable)
      rw [splice_of_not_reachable hi, splice_of_not_reachable hj]
      exact hτ.related i j hadj

/-- Across an edge that alone joins its two sides, an assignment goes on from
the side of `a`. -/
theorem exists_fits_across
    (hextends : ∀ i v, F i v → ∃ τ, τ i = v ∧ Fits F R G τ)
    (hsupport : ∀ v, F a v → ∃ z, F b z ∧ R a b v z)
    (hapart : ¬ G.Reachable b a) (hi : ¬ G.Reachable b i) (hv : F i v) :
    ∃ τ, τ i = v ∧ Fits F R G τ ∧ R a b (τ a) (τ b) := by
  obtain ⟨τ, hτi, hτ⟩ := hextends i v hv
  obtain ⟨z, hz, hrelated⟩ := hsupport (τ a) (hτ.mem a)
  obtain ⟨ρ, hρb, hρ⟩ := hextends b z hz
  refine ⟨splice G b ρ τ, ?_, hρ.splice hτ b, ?_⟩
  · rw [splice_of_not_reachable hi, hτi]
  · rw [splice_of_not_reachable hapart,
      splice_of_reachable (SimpleGraph.Reachable.refl b), hρb]
    exact hrelated

/-! ## Arc by arc -/

/-- Two variables are neighbours in the graph if an arc leads from either of
them to the other. -/
theorem arcGraph_adj :
    (arcGraph l).Adj i j ↔ i ≠ j ∧ (⟨i, j⟩ ∈ l ∨ ⟨j, i⟩ ∈ l) :=
  SimpleGraph.fromRel_adj _ i j

/-- One arc more is one edge more, if it is not there already. -/
theorem arcGraph_cons_adj : (arcGraph (e :: l)).Adj i j ↔
    (arcGraph l).Adj i j ∨ i ≠ j ∧
    (i = e.tail ∧ j = e.head ∨ i = e.head ∧ j = e.tail) := by
  obtain ⟨t, h⟩ := e
  simp only [arcGraph_adj, List.mem_cons, Arc.mk.injEq]
  tauto

/-- The ends of an arc that closes no cycle are not joined in another way. -/
theorem not_reachable_of_isAcyclic (hacyclic : (arcGraph (e :: l)).IsAcyclic)
    (hne : e.tail ≠ e.head) (hnew : ¬ (arcGraph l).Adj e.tail e.head) :
    ¬ (arcGraph l).Reachable e.tail e.head := by
  have hadj : (arcGraph (e :: l)).Adj e.tail e.head :=
    arcGraph_cons_adj.mpr (.inr ⟨hne, .inl ⟨rfl, rfl⟩⟩)
  have hbridge := SimpleGraph.isAcyclic_iff_forall_adj_isBridge.mp hacyclic hadj
  have hle : arcGraph l ≤ (arcGraph (e :: l)).deleteEdges
      {s(e.tail, e.head)} := by
    intro i j hij
    refine SimpleGraph.deleteEdges_adj.mpr
      ⟨arcGraph_cons_adj.mpr (.inl hij), ?_⟩
    rw [Set.mem_singleton_iff, Sym2.eq_iff]
    rintro (⟨rfl, rfl⟩ | ⟨rfl, rfl⟩)
    · exact hnew hij
    · exact hnew hij.symm
  exact fun h => SimpleGraph.isBridge_iff.mp hbridge (h.mono hle)

/-- **Where there is no cycle, every value of a supported family extends to an
assignment.** -/
theorem exists_fits (hne : ∀ i, ∃ v, F i v)
    (hsymm : ∀ i j v z, R i j v z → R j i z v)
    (hsupport : ∀ i j, (arcGraph l).Adj i j →
      ∀ v, F i v → ∃ z, F j z ∧ R i j v z)
    (hacyclic : (arcGraph l).IsAcyclic) :
    ∀ i v, F i v → ∃ τ, τ i = v ∧ Fits F R (arcGraph l) τ := by
  induction l with
  | nil =>
      intro i v hv
      choose τ hτ using hne
      refine ⟨Function.update τ i v, Function.update_self i v τ, fun j => ?_,
        fun j k hadj => ?_⟩
      · by_cases hj : j = i
        · subst hj
          rw [Function.update_self]
          exact hv
        · rw [Function.update_of_ne hj]
          exact hτ j
      · simp [arcGraph_adj] at hadj
  | cons e l ih =>
      have hle : arcGraph l ≤ arcGraph (e :: l) := fun i j hij =>
        arcGraph_cons_adj.mpr (.inl hij)
      have hextends :=
        ih (fun i j hij => hsupport i j (hle hij)) (hacyclic.anti hle)
      intro i v hv
      by_cases hnew : e.tail ≠ e.head ∧ ¬ (arcGraph l).Adj e.tail e.head
      · obtain ⟨hdiffer, hnew⟩ := hnew
        have hadj : (arcGraph (e :: l)).Adj e.tail e.head :=
          arcGraph_cons_adj.mpr (.inr ⟨hdiffer, .inl ⟨rfl, rfl⟩⟩)
        have hapart := not_reachable_of_isAcyclic hacyclic hdiffer hnew
        -- The assignment starts on the side of `i`; the other side is joined to
        -- it by `e`.
        have hjoined : ∃ τ, τ i = v ∧ Fits F R (arcGraph l) τ ∧
            R e.tail e.head (τ e.tail) (τ e.head) := by
          by_cases hi : (arcGraph l).Reachable e.head i
          · have hi' : ¬ (arcGraph l).Reachable e.tail i := fun h =>
              hapart (h.trans hi.symm)
            obtain ⟨τ, hτi, hτ, hrelated⟩ := exists_fits_across hextends
              (hsupport e.head e.tail hadj.symm) hapart hi' hv
            exact ⟨τ, hτi, hτ, hsymm _ _ _ _ hrelated⟩
          · exact exists_fits_across hextends (hsupport e.tail e.head hadj)
              (fun h => hapart h.symm) hi hv
        obtain ⟨τ, hτi, hτ, hrelated⟩ := hjoined
        refine ⟨τ, hτi, hτ.mem, fun j k hjk => ?_⟩
        rcases arcGraph_cons_adj.mp hjk with hjk | ⟨_, ⟨rfl, rfl⟩ | ⟨rfl, rfl⟩⟩
        · exact hτ.related j k hjk
        · exact hrelated
        · exact hsymm _ _ _ _ hrelated
      · obtain ⟨τ, hτi, hτ⟩ := hextends i v hv
        refine ⟨τ, hτi, hτ.mem, fun j k hjk => hτ.related j k ?_⟩
        have hold : e.tail ≠ e.head →
            (arcGraph l).Adj e.tail e.head := fun hdiffer =>
          Classical.byContradiction fun h => hnew ⟨hdiffer, h⟩
        rcases arcGraph_cons_adj.mp hjk with
          hjk | ⟨hne, ⟨rfl, rfl⟩ | ⟨rfl, rfl⟩⟩
        · exact hjk
        · exact hold hne
        · exact (hold hne.symm).symm

end

/-! ## On a network -/

/-- The constraint from one variable to another, if there is any, allows the two
values. -/
def Network.Relates (net : Network) (i j : Nat) (v z : Int) : Prop :=
  ∀ c, net.find? ⟨i, j⟩ = some c → (v, z) ∈ c.pairs

/-- On a symmetric network a pair of values may be read from both ends. -/
theorem Network.IsSymmetric.relates {net : Network} (hsym : net.IsSymmetric)
    {i j : Nat} {v z : Int} (h : net.Relates i j v z) :
    net.Relates j i z v := by
  intro c hc
  obtain ⟨_, e, he, hpairs⟩ := hsym _ c hc
  exact (hpairs z v).mp (h e he)

/-- In a symmetric network joined variables have arcs both ways. -/
theorem Network.IsSymmetric.find?_of_adj {net : Network}
    (hsym : net.IsSymmetric) {i j : Nat} (h : net.graph.Adj i j) :
    ∃ c, net.find? ⟨i, j⟩ = some c := by
  obtain ⟨_, hmem | hmem⟩ := arcGraph_adj.mp h
  · exact Option.isSome_iff_exists.mp (mem_arcs.mp hmem)
  · obtain ⟨c, hc⟩ := Option.isSome_iff_exists.mp (mem_arcs.mp hmem)
    obtain ⟨_, e, he, _⟩ := hsym _ c hc
    exact ⟨e, he⟩

namespace Arena

variable {m : Arena} {net : Network} {i : Nat} {v : Int}

/-- In a whole arena a value can be named for each variable. -/
theorem Whole.exists_value (h : m.Whole) (i : Nat) :
    ∃ v, i < m.size → v ∈ m.effective i := by
  by_cases hi : i < m.size
  · obtain ⟨v, hv⟩ := h i hi
    exact ⟨v, fun _ => hv⟩
  · exact ⟨0, fun h => absurd h hi⟩

/-- **In an arc consistent arena over a network without cycles**, every value
that shows is that of an assignment that is admitted and holds. -/
theorem ArcConsistent.exists_admits (hm : m.ArcConsistent net)
    (hwhole : m.Whole) (hsym : net.IsSymmetric) (hnet : net.Within m.size)
    (hacyclic : net.graph.IsAcyclic) (hv : i < m.size → v ∈ m.effective i) :
    ∃ τ, τ i = v ∧ m.Admits τ ∧ net.Holds τ := by
  have hsupport : ∀ j k, net.graph.Adj j k →
      ∀ u, (j < m.size → u ∈ m.effective j) →
      ∃ z, (k < m.size → z ∈ m.effective k) ∧ net.Relates j k u z := by
    intro j k hadj u hu
    obtain ⟨c, hc⟩ := hsym.find?_of_adj hadj
    have hj : j < m.size := (hnet _ (Network.mem_arcs_of_find? hc)).1
    obtain ⟨_, z, hz, hpair⟩ := hm _ c hc u (hu hj)
    refine ⟨z, fun _ => hz, fun d hd => ?_⟩
    rw [hc] at hd
    cases hd
    exact hpair
  obtain ⟨τ, hτi, hτ⟩ :=
    exists_fits hwhole.exists_value (fun _ _ _ _ h => hsym.relates h)
      hsupport hacyclic i v hv
  refine ⟨τ, hτi, hτ.mem, fun a c hc => ?_⟩
  have hadj : net.graph.Adj a.tail a.head :=
    arcGraph_adj.mpr ⟨(hsym a c hc).1, .inl (Network.mem_arcs_of_find? hc)⟩
  exact hτ.related _ _ hadj c hc

end Arena

end ConstraintNet
