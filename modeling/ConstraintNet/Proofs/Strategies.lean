import ConstraintNet.Proofs.Built
import ConstraintNet.Proofs.Reached
import ConstraintNet.Strategy

/-!
# Strategies at fresh variables

Before a strategy ends its search it has explored everything below the root.
Forward checking makes its first call at the variables as they are, and
maintaining arc consistency after the whole network was propagated.  Both calls
are ready, and so are all that they make.

Fresh variables admit just the assignments to their initial domains, so what the
first call answers is what the strategy finds.
-/

namespace ConstraintNet

/-! ## Fresh variables -/

/-- The assignment gives every variable a value that it started with, and every
arc allows the values at its ends. -/
structure Arena.SolvedBy (m : Arena) (net : Network) (τ : Nat → Int) :
    Prop where
  mem_initial : ∀ i x, m.read i = .ok x → τ i ∈ x.initial
  allows : ∀ a ∈ net.arcs, net.allows a (τ a.tail) (τ a.head)

/-- An assignment satisfies a network if it satisfies each arc of it. -/
theorem Network.holds_iff {net : Network} {τ : Nat → Int} :
    net.Holds τ ↔ ∀ a ∈ net.arcs, net.allows a (τ a.tail) (τ a.head) := by
  constructor
  · intro h a ha
    obtain ⟨c, hc⟩ := Option.isSome_iff_exists.mp (mem_arcs.mp ha)
    rw [allows, hc]
    exact Constraint.allows_iff.mpr (h a c hc)
  · intro h a c hc
    have := h a (mem_arcs_of_find? hc)
    rw [allows, hc] at this
    exact Constraint.allows_iff.mp this

/-- Of the couple, each variable may take its own index as its value. -/
theorem Instance.solvedBy_couple :
    coupleArena.SolvedBy coupleNetwork Nat.cast := by
  have hholds : coupleNetwork.Holds Nat.cast :=
    (Network.holds_empty _).insertSymmetric (by decide)
  refine ⟨fun i x hx => ?_, Network.holds_iff.mp hholds⟩
  match i, hx with
  | 0, hx =>
    cases hx
    decide +kernel
  | 1, hx =>
    cases hx
    decide +kernel

namespace Arena

variable {m k : Arena} {net : Network} {i : Nat} {x : Variable} {τ : Nat → Int}

theorem Alike.isNumbered (h : m.Alike k) (hm : m.IsNumbered) :
    k.IsNumbered := by
  intro i y hy
  obtain ⟨x, hx, hxy⟩ := h.read_back hy
  exact hxy.id.trans (hm i x hx)

theorem Alike.isFresh (h : m.Alike k) (hm : m.IsFresh) : k.IsFresh := by
  intro i y hy
  obtain ⟨x, hx, hxy⟩ := h.read_back hy
  have hfresh := hm i x hx
  exact {
    value := hxy.value.trans hfresh.value
    tried := hxy.tried.trans hfresh.tried
    pruned := hxy.pruned.trans hfresh.pruned
    marked := hxy.marked.trans hfresh.marked
    pending := hxy.pending.trans hfresh.pending
    mem_domain := fun v => by rw [hxy.domain, hxy.initial, hfresh.mem_domain] }

/-- All values of a fresh variable are live. -/
theorem IsFresh.mem_live (hm : m.IsFresh) (hx : m.read i = .ok x) {v : Int} :
    v ∈ x.live ↔ v ∈ x.initial := by
  have hfresh := hm i x hx
  rw [Variable.mem_live, hfresh.mem_domain, hfresh.marked]
  exact and_iff_left Std.ExtTreeSet.not_mem_empty

/-- A fresh arena is one that a search may begin with: each variable is settled
and has its id. -/
theorem IsFresh.orderly (hm : m.IsFresh) (hnumbered : m.IsNumbered) :
    m.Orderly where
  numbered := hnumbered
  settled i x hx := (hm i x hx).settled
  live i x v hx hvalue := by
    rw [(hm i x hx).value] at hvalue
    cases hvalue
  tried i x v hx htried _ := by
    rw [(hm i x hx).tried] at htried
    cases htried

/-- In a fresh arena nothing was excluded, and no support is missing that the
network could have given. -/
theorem IsFresh.agrees (hm : m.IsFresh) (net : Network) : m.Agrees net := by
  intro a c _ x v hx hvalue
  rw [(hm a.tail x hx).value] at hvalue
  cases hvalue

/-- The search that begins on a fresh arena is sound for every network within
it. -/
theorem IsFresh.sound (hm : m.IsFresh) (hnumbered : m.IsNumbered)
    (hnet : net.Within m.size) : (Search.begin m).Sound net :=
  ⟨hm.orderly hnumbered, hm.agrees net, hnet⟩

/-- Fresh variables admit the assignments to their initial domains. -/
theorem IsFresh.solvedBy_iff (hm : m.IsFresh) :
    m.SolvedBy net τ ↔ m.Admits τ ∧ net.Holds τ := by
  have hadmits : m.Admits τ ↔ ∀ i x, m.read i = .ok x → τ i ∈ x.initial := by
    constructor
    · intro h i x hx
      have := h i (lt_of_read hx)
      rw [effective_of_read hx,
        Variable.mem_effective_of_value_eq_none (hm i x hx).value] at this
      exact (hm.mem_live hx).mp this
    · intro h i hi
      obtain ⟨x, hx⟩ := exists_read hi
      rw [effective_of_read hx,
        Variable.mem_effective_of_value_eq_none (hm i x hx).value]
      exact (hm.mem_live hx).mpr (h i x hx)
  rw [hadmits, Network.holds_iff]
  exact ⟨fun h => ⟨h.mem_initial, h.allows⟩, fun h => ⟨h.1, h.2⟩⟩

end Arena

namespace Algorithm

variable {σ : Type}

/-- What a strategy searches with. -/
def branching (algorithm : Algorithm) (selector : Selector σ)
    (valueOrder : ValueOrder) (limit : Limit) (net : Network) : Branching σ :=
  { propagator := ⟨net, algorithm.closure⟩, selector, valueOrder, limit }

/-- What a strategy does before it ends its search. -/
def explore (algorithm : Algorithm) (b : Branching σ) (m : Arena) (g : σ) :
    Except Fault (σ × Search) :=
  match algorithm with
  | .forwardChecking => fromRoot b g (.begin m)
  | .maintainArcConsistency => do
    let (consistent, s) ← (Search.begin m).propagateAll b.propagator
    let (g, s) ← if consistent then fromRoot b g s else pure (g, s)
    return (g, ← s.rewind Trail.empty.checkpoint)

/-- A solution of the whole is an exploration of the root, of which the
solutions, the counters and the restored variables are returned. -/
theorem solve_eq (algorithm : Algorithm) (selector : Selector σ)
    (valueOrder : ValueOrder) (limit : Limit) (net : Network) (m : Arena)
    (g : σ) :
    algorithm.solve selector valueOrder limit net m g = (do
      let (g, s) ← algorithm.explore
        (algorithm.branching selector valueOrder limit net) m g
      return ⟨← s.finish, s.arena, g⟩) := by
  cases algorithm with
  | forwardChecking => rfl
  | maintainArcConsistency =>
      simp only [solve, explore, branching, bind_assoc, pure_bind]
      apply bind_congr
      intro p
      obtain ⟨consistent, s⟩ := p
      cases consistent with
      | true =>
          simp only [if_true, bind_assoc, pure_bind]
          rfl
      | false =>
          simp only [Bool.false_eq_true, if_false, bind_assoc, pure_bind]
          rfl

/-- What a strategy leaves is what it explored. -/
theorem of_solve_eq_ok {algorithm : Algorithm} {selector : Selector σ}
    {valueOrder : ValueOrder} {limit : Limit} {net : Network} {m : Arena}
    {g : σ} {r : Solved σ}
    (h : algorithm.solve selector valueOrder limit net m g = .ok r) :
    ∃ s, algorithm.explore
        (algorithm.branching selector valueOrder limit net) m g =
          .ok (r.state, s) ∧
      r.outcome = ⟨s.solutions.toList, s.tally⟩ ∧ r.arena = s.arena := by
  rw [solve_eq] at h
  obtain ⟨⟨g', s⟩, hexplore, h⟩ := of_bind_eq_ok h
  obtain ⟨outcome, hfinish, h⟩ := of_bind_eq_ok h
  cases h
  refine ⟨s, hexplore, ?_, rfl⟩
  unfold Search.finish at hfinish
  split at hfinish
  · exact (Except.ok.inj hfinish).symm
  · cases hfinish

/-- The call with which a strategy begins its search, if there is any. -/
inductive Begins (b : Branching σ) (m : Arena) (g : σ) : Algorithm →
    Call σ → Prop
  | forwardChecking : Begins b m g .forwardChecking ⟨m.depth, g, .begin m⟩
  | maintainArcConsistency {s : Search}
      (hroot : (Search.begin m).propagateAll b.propagator = .ok (true, s)) :
      Begins b m g .maintainArcConsistency ⟨s.arena.depth, g, s⟩

/-- One of the calls that a strategy makes. -/
def Makes (algorithm : Algorithm) (b : Branching σ) (m : Arena) (g : σ)
    (c : Call σ) : Prop :=
  ∃ r, Begins b m g algorithm r ∧ b.Reaches r c

/-- Some call gives up while it admits the assignment. -/
def Loses (algorithm : Algorithm) (b : Branching σ) (m : Arena) (g : σ)
    (τ : Nat → Int) : Prop :=
  ∃ c, algorithm.Makes b m g c ∧ b.GivesUp c ∧ c.search.arena.Admits τ

variable {algorithm : Algorithm} {b : Branching σ} {m : Arena} {g : σ}
  {c : Call σ}

/-- A search begins with one call at most. -/
theorem Begins.unique {r r' : Call σ} (h : Begins b m g algorithm r)
    (h' : Begins b m g algorithm r') : r' = r := by
  cases h with
  | forwardChecking =>
      cases h'
      rfl
  | maintainArcConsistency hroot =>
      cases h' with
      | maintainArcConsistency hroot' =>
          rw [hroot] at hroot'
          cases hroot'
          rfl

/-- The calls that are made are those below the first one. -/
theorem makes_of_begins {r : Call σ} (h : Begins b m g algorithm r) :
    algorithm.Makes b m g c ↔ b.Reaches r c := by
  constructor
  · intro hmakes
    obtain ⟨r', hr', hreaches⟩ := hmakes
    exact h.unique hr' ▸ hreaches
  · exact fun hreaches => ⟨r, h, hreaches⟩

/-- What the algorithm loses on the way down is what the call that it begins
with loses. -/
theorem loses_of_begins {r : Call σ} {τ : Nat → Int}
    (h : Begins b m g algorithm r) : algorithm.Loses b m g τ ↔ b.Loses r τ := by
  simp only [Loses, Branching.Loses, makes_of_begins h]

/-- Propagation of the whole network, seen from the search. -/
theorem propagateAll_of_isFresh (hm : m.IsFresh) (hnumbered : m.IsNumbered)
    (hnet : b.propagator.network.Within m.size) :
    ∃ ok u, (Search.begin m).propagateAll b.propagator = .ok (ok, ⟨u, #[]⟩) ∧
      b.propagator.Propagated b.propagator.network.arcs
        (Search.begin m).toWorkspace ok u := by
  obtain ⟨ok, u, hrun, hp⟩ := Propagator.propagate_of_calm (p := b.propagator)
    (w := (Search.begin m).toWorkspace) (hm.orderly hnumbered).calm hnet hnet
  exact ⟨ok, u, Search.adjust_eq hrun, hp⟩

/-- The propagation at the root revises all arcs of the network, on variables
that are fresh. -/
theorem propagated_of_propagateAll {ok : Bool} {s : Search}
    (h : (Search.begin m).propagateAll b.propagator = .ok (ok, s))
    (hm : m.IsFresh) (hnumbered : m.IsNumbered)
    (hnet : b.propagator.network.Within m.size) :
    b.propagator.Propagated b.propagator.network.arcs
      (Search.begin m).toWorkspace ok
      s.toWorkspace := by
  obtain ⟨ok', u, hrun, hp⟩ :=
    propagateAll_of_isFresh (b := b) hm hnumbered hnet
  rw [h] at hrun
  cases hrun
  exact hp

/-- Where there is a solution, a strategy begins its search. -/
theorem exists_begins (algorithm : Algorithm) (g : σ) (hm : m.IsFresh)
    (hnumbered : m.IsNumbered) (hnet : b.propagator.network.Within m.size)
    {τ : Nat → Int} (hτ : m.SolvedBy b.propagator.network τ) :
    ∃ r, Begins b m g algorithm r := by
  cases algorithm with
  | forwardChecking => exact ⟨_, .forwardChecking⟩
  | maintainArcConsistency =>
      obtain ⟨ok, u, hroot, hp⟩ :=
        propagateAll_of_isFresh (b := b) hm hnumbered hnet
      cases ok with
      | true => exact ⟨_, .maintainArcConsistency hroot⟩
      | false =>
          obtain ⟨hadmits, hholds⟩ := hm.solvedBy_iff.mp hτ
          exact absurd hadmits (hp.not_admits hnet hholds)

/-- **The first call is ready.** -/
theorem Begins.ready (h : Begins b m g algorithm c) (hm : m.IsFresh)
    (hnumbered : m.IsNumbered) (hnet : b.propagator.network.Within m.size) :
    b.Ready m c := by
  cases h with
  | forwardChecking =>
      exact ⟨hm.sound hnumbered hnet, Nat.le_refl _,
        (Arena.Alike.refl m).keepsInitials⟩
  | maintainArcConsistency hroot =>
      have hp := propagated_of_propagateAll hroot hm hnumbered hnet
      exact ⟨⟨hp.later.orderly (hm.orderly hnumbered) (hp.left rfl),
        hp.later.agrees (hm.agrees _), hp.later.size.symm ▸ hnet⟩,
        Nat.le_refl _, hp.later.keepsInitials⟩

/-- The call that a search begins with has all variables of the arena. -/
theorem Begins.size (h : Begins b m g algorithm c) (hm : m.IsFresh)
    (hnumbered : m.IsNumbered) (hnet : b.propagator.network.Within m.size) :
    c.search.arena.size = m.size := by
  cases h with
  | forwardChecking => rfl
  | maintainArcConsistency hroot =>
      exact (propagated_of_propagateAll hroot hm hnumbered hnet).later.size

/-- **All calls are ready.** -/
theorem Makes.ready (h : algorithm.Makes b m g c) (hsafe : b.selector.IsSafe)
    (hm : m.IsFresh) (hnumbered : m.IsNumbered)
    (hnet : b.propagator.network.Within m.size) : b.Ready m c := by
  obtain ⟨r, hbegins, hreaches⟩ := h
  exact hreaches.ready hsafe (hbegins.ready hm hnumbered hnet)

/-- A search from the root goes as deep as there are variables, and drops the
flow of the root call: nothing is left that could stop. -/
theorem fromRoot_eq {flow : Flow} {g' : σ} {s t : Search}
    (h : b.search s.arena.depth g s = .ok (flow, g', t)) :
    fromRoot b g s = .ok (g', t) := by
  simp only [fromRoot, h, Except.map]

/-- **Exploring fresh variables** succeeds, leaves them as they were with
nothing on the trail, and finds the solutions that no call loses. -/
theorem explore_of_isFresh (algorithm : Algorithm) (g : σ)
    (hsafe : b.selector.IsSafe) (hm : m.IsFresh) (hnumbered : m.IsNumbered)
    (hnet : b.propagator.network.Within m.size) :
    ∃ g' s, algorithm.explore b m g = .ok (g', s) ∧ m.Alike s.arena ∧
      s.trail = ∅ ∧
      ∃ all, (b.limit = .all → all) ∧ Enumerates m.size
        (fun τ => m.SolvedBy b.propagator.network τ ∧
          ¬ algorithm.Loses b m g τ) all
        s.solutions.toList := by
  cases algorithm with
  | forwardChecking =>
      have hbegins : Begins b m g .forwardChecking ⟨m.depth, g, .begin m⟩ :=
        .forwardChecking
      have hready := hbegins.ready hm hnumbered hnet
      obtain ⟨flow, g', t, hrun, ha⟩ :=
        Branching.answers_of_sound hsafe _ g (.begin m) hready.sound hready.deep
      obtain ⟨l, hl, henumerates⟩ := ha.found
      refine ⟨g', t, fromRoot_eq hrun, ha.alike, ha.trail, flow = .goOn,
        ha.unlimited, ?_⟩
      rw [hl]
      apply henumerates.congr
      intro τ
      rw [hm.solvedBy_iff, loses_of_begins hbegins, and_assoc]
      exact Iff.rfl
  | maintainArcConsistency =>
      obtain ⟨ok, u, hroot, hp⟩ :=
        propagateAll_of_isFresh (b := b) hm hnumbered hnet
      have hsettled := (hm.orderly hnumbered).settled
      cases ok with
      | true =>
          have hbegins :
              Begins b m g .maintainArcConsistency
                ⟨u.arena.depth, g, ⟨u, #[]⟩⟩ :=
            .maintainArcConsistency hroot
          have hready := hbegins.ready hm hnumbered hnet
          obtain ⟨flow, g', t, hrun, ha⟩ :=
            Branching.answers_of_sound hsafe _ g ⟨u, #[]⟩
              hready.sound hready.deep
          obtain ⟨a, hrewind, halike⟩ :=
            Search.rewind_eq (hp.later.alike ha.alike ha.trail) hsettled
          obtain ⟨l, hl, henumerates⟩ := ha.found
          refine ⟨g', ⟨⟨a, ∅, t.tally⟩, t.solutions⟩, ?_, halike, rfl,
            flow = .goOn, ha.unlimited, ?_⟩
          · simp only [explore, hroot, if_true, bind, Except.bind, pure,
              Except.pure, fromRoot_eq (s := ⟨u, #[]⟩) hrun]
            rw [show Trail.empty.checkpoint =
              (Search.begin m).trail.checkpoint from rfl, hrewind]
            rfl
          · have hsize : u.arena.size = m.size := hp.later.size
            rw [hl]
            refine hsize ▸ henumerates.congr fun τ => ?_
            rw [hm.solvedBy_iff, loses_of_begins hbegins, and_assoc]
            constructor
            · intro hparts
              obtain ⟨hadmits, hholds, hlost⟩ := hparts
              exact ⟨(hp.admits hnet hholds).mp hadmits, hholds, hlost⟩
            · intro hparts
              obtain ⟨hadmits, hholds, hlost⟩ := hparts
              exact ⟨(hp.admits hnet hholds).mpr hadmits, hholds, hlost⟩
      | false =>
          obtain ⟨a, hrewind, halike⟩ :=
            Search.rewind_eq (t := ⟨u, #[]⟩) hp.later hsettled
          refine ⟨g, ⟨⟨a, ∅, u.tally⟩, #[]⟩, ?_, halike, rfl, True,
            fun _ => trivial, .nil ?_⟩
          · simp only [explore, hroot, bind, Except.bind, pure, Except.pure]
            rw [show Trail.empty.checkpoint =
              (Search.begin m).trail.checkpoint from rfl]
            simp only [hrewind]
            rfl
          · rintro τ ⟨hsolved, _⟩
            obtain ⟨hadmits, hholds⟩ := hm.solvedBy_iff.mp hsolved
            exact hp.not_admits hnet hholds hadmits

/-- A search that explored the root and restored its trail returns the solutions
in the order in which they were recorded. -/
theorem solve_of_explore {selector : Selector σ} {valueOrder : ValueOrder}
    {limit : Limit} {net : Network} {g' : σ} {s : Search}
    (h : algorithm.explore (algorithm.branching selector valueOrder limit net) m
      g = .ok (g', s))
    (htrail : s.trail = ∅) :
    algorithm.solve selector valueOrder limit net m g =
      .ok ⟨⟨s.solutions.toList, s.tally⟩, s.arena, g'⟩ := by
  have hempty : s.trail.isEmpty = true := by
    rw [htrail]
    rfl
  rw [solve_eq, h]
  simp only [bind, Except.bind, pure, Except.pure, Search.finish,
    hempty, if_true]

end Algorithm

end ConstraintNet
