import ConstraintNet.Proofs.Accounting
import ConstraintNet.Proofs.Forests
import ConstraintNet.Proofs.Maintaining

/-!
# Search without mistakes

On a network without cycles a search that maintains consistency makes no
mistake: whatever value it takes extends to a solution, so that the left branch
always stands, and the first solution is found on the way straight down.
Whether there is one is known at the root.

Only a value order that overlooks values can spoil this, since a call that does
not branch is left as if nothing were below it.
-/

namespace ConstraintNet

namespace Branching

variable {σ : Type} {b : Branching σ} {m : Arena} {c : Call σ} {g : σ}
  {t : Search} {ok : Bool} {flow : Flow}

/-- The search went straight down to one more solution. -/
structure Straight (c : Call σ) (flow : Flow) (t : Search) : Prop where
  flow : flow = .stop
  solutions : t.solutions.size = c.search.solutions.size + 1
  nodes : t.tally.nodes = c.search.tally.nodes + c.search.arena.vacant + 1
  backtracks : t.tally.backtracks = c.search.tally.backtracks
  wipeouts : t.tally.wipeouts = c.search.tally.wipeouts

/-- What a search needs to make no mistake: it maintains consistency on a
symmetric network without cycles and is done with the first solution. -/
structure Unerring (b : Branching σ) : Prop where
  legal : b.selector.IsLegal
  closure : b.propagator.closure = .full
  limit : b.limit = .first
  symmetric : b.propagator.network.IsSymmetric
  acyclic : b.propagator.network.graph.IsAcyclic

variable {d : Nat} {g' : σ} {s s₁ : Search} {i : Nat} {v : Int}

/-- **The left branch stands**, since the value that it takes extends to a
solution. -/
theorem Picks.stands (hpicks : b.Picks ⟨d + 1, g, s⟩ i v g') (hb : b.Unerring)
    (hc : b.Maintained m ⟨d + 1, g, s⟩)
    (haccept : b.accept i v s.node = .ok (ok, s₁)) : ok = true := by
  have hs : s.node.Sound b.propagator.network := hc.ready.sound.node
  obtain ⟨x, ho⟩ : ∃ x, s.node.arena.Offers i x v :=
    hpicks.offers hb.legal.isSafe hs.orderly
  have hshown : v ∈ s.node.arena.effective i := ho.mem_effective
  obtain ⟨τ, hτ, hadmits, hholds⟩ :=
    Arena.ArcConsistent.exists_admits (m := s.node.arena)
      hc.consistent hc.whole hb.symmetric hs.within hb.acyclic fun _ => hshown
  have hdecided := decided_of_accept hs ho haccept
  cases ok with
  | true => rfl
  | false => exact absurd hτ (hdecided.failed rfl τ hholds hadmits)

/-- **A search that makes no mistake goes straight down**, if no call gives
up. -/
theorem Descends.straight (h : b.Descends ok c flow g t) (hok : ok = true)
    (hb : b.Unerring) (hc : b.Maintained m c) (hthorough : b.Thorough c) :
    Straight c flow t := by
  have hsafe : b.selector.IsSafe := hb.legal.isSafe
  induction h with
  | failed => cases hok
  | @recorded d g s t flow hcomplete hrecord =>
      obtain ⟨hworkspace, ⟨sol, hsolutions⟩, hflow⟩ :=
        Search.of_record_eq_ok hrecord
      have hsize : t.solutions.size = s.solutions.size + 1 := by
        rw [hsolutions]
        exact Array.size_push sol
      have hvacant : s.arena.vacant = 0 := Arena.vacant_of_isComplete hcomplete
      refine ⟨?_, hsize, ?_, ?_, ?_⟩
      · rw [hflow, hb.limit, Limit.isReached, hsize]
        simp
      · rw [hworkspace, hvacant]
        rfl
      · rw [hworkspace]
        rfl
      · rw [hworkspace]
        rfl
  | unnamed hincomplete hselect =>
      exact absurd hselect
        (hb.legal.ne_none hc.ready.sound.orderly.numbered hincomplete)
  | exhausted hincomplete hselect hx hvalue =>
      exact absurd (givesUp_of_select_eq_none hincomplete hselect hx hvalue)
        (hthorough _ .refl)
  | @stopped d g g' g₁ s s₁ t₁ r t i v ok hpicks haccept hbelow hleft hend ih =>
      obtain rfl : ok = true := hpicks.stands hb hc haccept
      have hexplores :
          b.Explores ⟨d + 1, g, s⟩ (.accept i v) true ⟨d, g', s₁⟩ :=
        .left hpicks haccept
      have hbelow :=
        ih rfl (hexplores.maintained hb.closure hb.symmetric hsafe hc)
          ((thorough_of_stopped hpicks haccept hleft).mp hthorough)
      have hdraws := draws_accept haccept
      have hvacant := vacant_of_accept hsafe hc.ready hpicks haccept
      have htally := Search.tally_of_account hend
      refine ⟨rfl, ?_, ?_, ?_, ?_⟩
      · rw [Search.solutions_of_account hend, hbelow.solutions,
          hdraws.solutions]
        rfl
      · have hnode : s.node.tally.nodes = s.tally.nodes + 1 := rfl
        have hnodes := hbelow.nodes
        rw [htally]
        simp only [hdraws.drawn.nodes, hnode] at hnodes ⊢
        omega
      · rw [htally, hbelow.backtracks, hdraws.drawn.backtracks]
        rfl
      · rw [htally, hbelow.wipeouts, wipeouts_accept haccept]
        rfl
  | both hpicks haccept hbelow hleft hbetween hrefute _ _ ih =>
      obtain rfl := hpicks.stands hb hc haccept
      have hexplores := Explores.left hpicks haccept
      have hbelow :=
        ih rfl (hexplores.maintained hb.closure hb.symmetric hsafe hc)
          (((thorough_of_both hpicks haccept hleft hrefute).mp hthorough).1 rfl)
      cases hbelow.flow

end Branching

/-! ## From the root -/

namespace Algorithm

variable {σ : Type} {b : Branching σ} {m : Arena} {g : σ} {r : Call σ}

/-- **Where the search begins there is a solution.** -/
theorem Begins.exists_solvedBy (h : Begins b m g .maintainArcConsistency r)
    (hb : b.Unerring) (hposed : m.Posed b.propagator.network) :
    ∃ τ, m.SolvedBy b.propagator.network τ := by
  have hr := h.maintained hb.closure hposed
  obtain ⟨v, hv⟩ := hr.whole.exists_value 0
  obtain ⟨τ, _, hadmits, hholds⟩ :=
    hr.consistent.exists_admits hr.whole hb.symmetric
      hr.ready.sound.within hb.acyclic hv
  cases h with
  | maintainArcConsistency hroot =>
      have hp :=
        propagated_of_propagateAll hroot hposed.fresh hposed.numbered
          hposed.within
      exact ⟨τ, hposed.fresh.solvedBy_iff.mpr
        ⟨(hp.admits hposed.within hholds).mp hadmits, hholds⟩⟩

/-- Straight down from the root: one solution, a node for each variable and one
more, and nothing else. -/
def GoesStraight (m : Arena) (found : Nat) (tally : Tally) : Prop :=
  found = 1 ∧ tally.backtracks = 0 ∧ tally.wipeouts = 0 ∧
  tally.nodes = m.size + 1

/-- **The search goes straight down if and only if no call gives up.** -/
theorem Begins.goesStraight_iff (h : Begins b m g .maintainArcConsistency r)
    (hb : b.Unerring) (hposed : m.Posed b.propagator.network) {flow : Flow}
    {g' : σ} {t : Search} (hcourse : b.Descends true r flow g' t) :
    GoesStraight m t.solutions.size t.tally ↔
      ∀ e, Makes .maintainArcConsistency b m g e → ¬ b.GivesUp e := by
  obtain ⟨s, hroot, rfl⟩ : ∃ s,
    (Search.begin m).propagateAll b.propagator = .ok (true, s) ∧
      r = ⟨s.arena.depth, g, s⟩ := by
    cases h with
    | maintainArcConsistency hroot => exact ⟨_, hroot, rfl⟩
  have hdraws : (Search.begin m).Draws s := Search.draws_propagate hroot
  constructor
  · rintro ⟨hfound, hbacktracks, _, hnodes⟩
    obtain ⟨e, hbooks, hnone⟩ :=
      h.balances hdraws hcourse hb.legal hposed.fresh hposed.numbered
        hposed.within
    apply hnone.mp
    have hmet : b.limit.IsMet 1 := by
      rw [hb.limit]
      decide
    rw [hfound, if_pos hmet] at hbooks
    omega
  · intro hnone
    have hthorough : b.Thorough ⟨s.arena.depth, g, s⟩ :=
      fun e he => hnone e ((makes_of_begins h).mpr he)
    have hstraight :=
      hcourse.straight rfl hb (h.maintained hb.closure hposed) hthorough
    have hvacant := h.vacant hposed.fresh hposed.numbered hposed.within
    have hwipeouts : s.tally.wipeouts = 0 := Search.wipeouts_propagate hroot
    refine ⟨?_, ?_, ?_, ?_⟩
    · rw [hstraight.solutions, hdraws.solutions]
      rfl
    · rw [hstraight.backtracks, hdraws.drawn.backtracks]
      rfl
    · rw [hstraight.wipeouts, hwipeouts]
    · rw [hstraight.nodes, hdraws.drawn.nodes, hvacant]
      exact congrArg (· + 1) (Nat.zero_add _)

/-- **Maintaining consistency on a network without cycles makes no mistake.**
For an instance with a solution the search for one goes straight down if and
only if no call gives up, and whatever it finds is a solution.  For one without,
propagation fails at the root.  A call that gives up overlooks a value, and none
does under the ascending value order, or if no variable starts with 2047 values
or more. -/
theorem solve_goesStraight {c : Instance} {net : Network}
    {selector : Selector σ} (hbuild : c.build = .ok (m, net))
    (hacyclic : net.graph.IsAcyclic) (hlegal : selector.IsLegal)
    (valueOrder : ValueOrder) (g : σ) :
    let b := maintainArcConsistency.branching selector valueOrder .first net
    ∃ o, maintainArcConsistency.solve selector valueOrder .first net m g =
        .ok o ∧
      let found := o.outcome.solutions
      let tally := o.outcome.tally
      (∀ s ∈ found, ∃ τ, m.SolvedBy net τ ∧ s = .tabulate m.size τ) ∧
      ((∃ τ, m.SolvedBy net τ) → (GoesStraight m found.length tally ↔
        ∀ e, maintainArcConsistency.Makes b m g e → ¬ b.GivesUp e)) ∧
      ((¬ ∃ τ, m.SolvedBy net τ) → maintainArcConsistency.FailsAtRoot b m ∧
        found = [] ∧ tally.nodes = 0 ∧ tally.backtracks = 0 ∧
        tally.wipeouts = 1) ∧
      (∀ e, maintainArcConsistency.Makes b m g e → b.GivesUp e →
        b.Overlooks e) ∧
      ((valueOrder = .ascending ∨
          ∀ i x, m.read i = .ok x → x.initial.size < 2047) →
        (∃ τ, m.SolvedBy net τ) → GoesStraight m found.length tally) := by
  intro b
  have hposed : m.Posed net := Instance.posed_of_build hbuild
  have hb : b.Unerring := ⟨hlegal, rfl, rfl, hposed.symmetric, hacyclic⟩
  have hoverlooks : ∀ e, maintainArcConsistency.Makes b m g e → b.GivesUp e →
      b.Overlooks e :=
    fun e hmakes hgives =>
      hmakes.overlooks_of_givesUp hgives hlegal hposed.fresh hposed.numbered
      hposed.inhabited hposed.within
  have hnone :
      (valueOrder = .ascending ∨
        ∀ i x, m.read i = .ok x → x.initial.size < 2047) →
      ∀ e, maintainArcConsistency.Makes b m g e →
        ¬ b.GivesUp e := fun hfew e hmakes hgives =>
    (hmakes.ready hlegal.isSafe hposed.fresh hposed.numbered
      hposed.within).not_overlooks hfew (hoverlooks e hmakes hgives)
  obtain ⟨g', s, hexplore, _, htrail, _, _, henumerates⟩ :=
    explore_of_isFresh (b := b)
      maintainArcConsistency g hlegal.isSafe hposed.fresh hposed.numbered
        hposed.within
  have hsound : ∀ s' ∈ s.solutions.toList,
      ∃ τ, m.SolvedBy net τ ∧ s' = .tabulate m.size τ := by
    intro s' hs'
    obtain ⟨τ, hτ, heq⟩ := henumerates.sound s' hs'
    exact ⟨τ, hτ.1, heq⟩
  refine ⟨_, solve_of_explore hexplore htrail, hsound, ?_⟩
  cases explored_of_explore hexplore with
  | searched hbegins _ hsearch hend =>
      have hstraight :=
        hbegins.goesStraight_iff hb hposed
          (Branching.descends_of_search hsearch)
      have hsolved : ∃ τ, m.SolvedBy net τ := hbegins.exists_solvedBy hb hposed
      simp only [Search.solutions_of_account hend, Search.tally_of_account hend,
        Array.length_toList]
      exact ⟨fun _ => hstraight, fun hnot => absurd hsolved hnot, hoverlooks,
        fun hfew _ => hstraight.mpr (hnone hfew)⟩
  | @failed _ t hroot hend =>
      have hfails : FailsAtRoot maintainArcConsistency b m := ⟨rfl, t, hroot⟩
      obtain ⟨hsolutions, hnodes, hbacktracks, hwipeouts⟩ :=
        counts_of_propagateAll hroot
      have hunsolved : ¬ ∃ τ, m.SolvedBy net τ := by
        rintro ⟨τ, hτ⟩
        obtain ⟨r, hbegins⟩ :=
          exists_begins (b := b) maintainArcConsistency g hposed.fresh
            hposed.numbered hposed.within hτ
        exact hbegins.not_failsAtRoot hfails
      simp only [Search.solutions_of_account hend, Search.tally_of_account hend,
        hsolutions]
      exact ⟨fun h => absurd h hunsolved,
        fun _ => ⟨hfails, trivial, hnodes, hbacktracks, hwipeouts⟩,
        hoverlooks, fun _ h => absurd h hunsolved⟩

/-- Two variables with one constraint between them, under the random and the
descending order. -/
theorem solve_goesStraight_of_two :
    let net := Instance.coupleNetwork
    let m := Instance.coupleArena
    ∃ o, maintainArcConsistency.solve VariableOrder.random.select .descending
      .first net m
        (.ofSeed 7) = .ok o ∧
      (∀ s ∈ o.outcome.solutions,
        ∃ τ, m.SolvedBy net τ ∧ s = .tabulate m.size τ) ∧
      GoesStraight m o.outcome.solutions.length o.outcome.tally := by
  intro net m
  have hbuild : Instance.couple.build = .ok (m, net) := Instance.build_couple
  have harcs : net.arcs = [⟨0, 1⟩, ⟨1, 0⟩] := Instance.arcs_couple
  have hedge : net.graph ≤ ⊥ ⊔ SimpleGraph.edge 0 1 := by
    intro i j hij
    rw [Network.graph, harcs, arcGraph_adj] at hij
    simp only [List.mem_cons, Arc.mk.injEq, List.not_mem_nil, or_false] at hij
    rw [bot_sup_eq, SimpleGraph.edge_adj]
    tauto
  have hacyclic : net.graph.IsAcyclic := by
    apply SimpleGraph.IsAcyclic.anti hedge
    apply SimpleGraph.IsAcyclic.sup_edge_of_not_reachable
      _ SimpleGraph.isAcyclic_bot
    rw [SimpleGraph.reachable_bot]
    decide
  obtain ⟨o, ho, hsound, _, _, _, hstraight⟩ :=
    solve_goesStraight hbuild hacyclic
      (VariableOrder.isLegal .random) .descending (.ofSeed 7)
  exact ⟨o, ho, hsound, hstraight (.inr Instance.size_initial_couple)
    ⟨_, Instance.solvedBy_couple⟩⟩

end Algorithm

end ConstraintNet
