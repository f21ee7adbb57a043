import ConstraintNet.Proofs.Strategies

/-!
# What a strategy finds

A strategy without limit finds each solution once, except for those that some
call loses, and finds nothing else.  A solution is lost only where the value
order overlooks a value.  The ascending order overlooks none; the descending one
may, in domains of 2047 values and more, and then solutions are missing.
-/

namespace ConstraintNet.Algorithm

variable {σ : Type} {algorithm : Algorithm} {b : Branching σ} {m : Arena}
  {g : σ} {τ ρ : Nat → Int}

/-- Where an assignment is lost, a value is overlooked. -/
theorem Loses.overlooks (h : algorithm.Loses b m g τ)
    (hlegal : b.selector.IsLegal) (hm : m.IsFresh) (hnumbered : m.IsNumbered)
    (hnet : b.propagator.network.Within m.size) :
    ∃ c, algorithm.Makes b m g c ∧ b.Overlooks c ∧ c.search.arena.Admits τ := by
  obtain ⟨c, hmakes, hgives, hadmits⟩ := h
  exact ⟨c, hmakes,
    hgives.overlooks hlegal (hmakes.ready hlegal.isSafe hm hnumbered hnet)
      hadmits, hadmits⟩

theorem Loses.congr (h : algorithm.Loses b m g τ) (hsafe : b.selector.IsSafe)
    (hm : m.IsFresh) (hnumbered : m.IsNumbered)
    (hnet : b.propagator.network.Within m.size)
    (hτ : ∀ i, i < m.size → ρ i = τ i) : algorithm.Loses b m g ρ := by
  obtain ⟨c, hmakes, hgives, hadmits⟩ := h
  refine ⟨c, hmakes, hgives, fun i hi => ?_⟩
  obtain ⟨y, hy⟩ := Arena.exists_read hi
  obtain ⟨x, hx, _⟩ := (hmakes.ready hsafe hm hnumbered hnet).initials i y hy
  rw [hτ i (Arena.lt_of_read hx)]
  exact hadmits i hi

/-- **Soundness, and completeness but for what is lost.**  Without limit and
with any variable order that picks a variable whenever one is left, a strategy
finds each solution once, except for those that some call loses; and none is
lost under the ascending value order, or if no variable starts with 2047 values
or more. -/
theorem solve_finds_unless_lost (algorithm : Algorithm) {selector : Selector σ}
    (valueOrder : ValueOrder) {net : Network} (g : σ)
    (hlegal : selector.IsLegal) (hm : m.IsFresh) (hnumbered : m.IsNumbered)
    (hnet : net.Within m.size) :
    ∃ r, algorithm.solve selector valueOrder .all net m g = .ok r ∧
      r.outcome.solutions.Nodup ∧
      (∀ s ∈ r.outcome.solutions,
        ∃ τ, m.SolvedBy net τ ∧ s = .tabulate m.size τ) ∧
      (∀ τ, m.SolvedBy net τ →
        (Solution.tabulate m.size τ ∈ r.outcome.solutions ↔
          ¬ algorithm.Loses
            (algorithm.branching selector valueOrder .all net) m g τ)) ∧
      (∀ τ, algorithm.Loses
          (algorithm.branching selector valueOrder .all net) m g τ →
        ∃ c, algorithm.Makes
            (algorithm.branching selector valueOrder .all net) m g c ∧
          (algorithm.branching selector valueOrder .all net).Overlooks c ∧
          c.search.arena.Admits τ) ∧
      ((valueOrder = .ascending ∨
          ∀ i x, m.read i = .ok x → x.initial.size < 2047) →
        ∀ s, s ∈ r.outcome.solutions ↔
          ∃ τ, m.SolvedBy net τ ∧ s = .tabulate m.size τ) := by
  let b : Branching σ := algorithm.branching selector valueOrder .all net
  have hoverlooks : ∀ τ, algorithm.Loses b m g τ →
      ∃ c, algorithm.Makes b m g c ∧ b.Overlooks c ∧ c.search.arena.Admits τ :=
    fun τ h => h.overlooks hlegal hm hnumbered hnet
  obtain ⟨g', s, hexplore, _, htrail, all, hall, henumerates⟩ :=
    explore_of_isFresh (b := b) algorithm g hlegal.isSafe hm hnumbered hnet
  have hsound : ∀ s' ∈ s.solutions.toList,
      ∃ τ, m.SolvedBy net τ ∧ s' = .tabulate m.size τ := by
    intro s' hs'
    obtain ⟨τ, hτ, heq⟩ := henumerates.sound s' hs'
    exact ⟨τ, hτ.1, heq⟩
  have hfound : ∀ τ, m.SolvedBy net τ →
      (Solution.tabulate m.size τ ∈ s.solutions.toList ↔
        ¬ algorithm.Loses b m g τ) := by
    intro τ hτ
    constructor
    · intro hmem hlost
      obtain ⟨ρ, hρ, heq⟩ := henumerates.sound _ hmem
      exact hρ.2 (hlost.congr hlegal.isSafe hm hnumbered hnet fun i hi =>
        (Solution.eq_of_tabulate_eq heq hi).symm)
    · exact fun hlost => henumerates.complete (hall rfl) τ ⟨hτ, hlost⟩
  refine ⟨_, solve_of_explore hexplore htrail, henumerates.nodup, hsound,
    hfound, hoverlooks, ?_⟩
  intro hfew s'
  refine ⟨hsound s', ?_⟩
  intro hparts
  obtain ⟨τ, hτ, rfl⟩ := hparts
  refine (hfound τ hτ).mpr fun hlost => ?_
  obtain ⟨c, hmakes, hover, _⟩ := hoverlooks τ hlost
  exact (hmakes.ready hlegal.isSafe hm hnumbered hnet).not_overlooks hfew hover

/-- Two variables with one constraint between them, under the random and the
descending order. -/
theorem solve_finds_unless_lost_of_two :
    let net := Instance.coupleNetwork
    let m := Instance.coupleArena
    ∃ r, maintainArcConsistency.solve VariableOrder.random.select .descending
      .all net m
        (.ofSeed 7) = .ok r ∧ r.outcome.solutions.Nodup ∧
      ∀ s, s ∈ r.outcome.solutions ↔
        ∃ τ, m.SolvedBy net τ ∧ s = .tabulate 2 τ := by
  intro net m
  have hposed : m.Posed net := Instance.posed_couple
  obtain ⟨r, hr, hnodup, _, _, _, hall⟩ :=
    solve_finds_unless_lost maintainArcConsistency
      .descending (.ofSeed 7) (VariableOrder.isLegal .random) hposed.fresh
        hposed.numbered
      hposed.within
  exact ⟨r, hr, hnodup, hall (.inr Instance.size_initial_couple)⟩

end ConstraintNet.Algorithm
