import ConstraintNet.Proofs.Insertions

/-!
# Networks that match

A constraint keeps its pairs as a list, but nothing is done with the list other
than to look for pairs.  So networks that have the same arcs and allow the same
on each are interchangeable: a revision is the same under both, and with it
every step of a propagation, every call of a search, and what an engine answers.
-/

namespace ConstraintNet

namespace Network

variable {net net' : Network}

/-! ## What is read off the arcs -/

/-- The arcs decide where constraints are found. -/
theorem isSome_of_arcs (h : net.arcs = net'.arcs) (a : Arc) :
    (net.find? a).isSome ↔ (net'.find? a).isSome := by
  rw [← mem_arcs, ← mem_arcs, h]

/-- They decide the links as well, since these agree with them in both
networks. -/
theorem neighbors_of_arcs (h : net.arcs = net'.arcs) (i : Nat) :
    net.neighbors i = net'.neighbors i :=
  (eq_iff_of_asymm (fun _ _ => Nat.lt_asymm) (net.neighbors_ascending i)).mpr
    ⟨net'.neighbors_ascending i,
      fun j => by rw [mem_neighbors, mem_neighbors, isSome_of_arcs h]⟩

/-- The same for the arcs into a variable. -/
theorem incident_of_arcs (h : net.arcs = net'.arcs) (i : Nat) :
    net.incident i = net'.incident i :=
  (eq_iff_of_asymm (fun _ _ => Nat.lt_asymm) (net.incident_ascending i)).mpr
    ⟨net'.incident_ascending i,
      fun j => by rw [mem_incident, mem_incident, isSome_of_arcs h]⟩

/-- The degree of a variable counts its neighbours. -/
theorem degree_of_arcs (h : net.arcs = net'.arcs) (i : Nat) :
    net.degree i = net'.degree i := by
  rw [degree_eq_length, degree_eq_length, neighbors_of_arcs h]

/-- The arcs from a variable are those to its neighbours, in the same order. -/
theorem arcsFrom_of_arcs (h : net.arcs = net'.arcs) (i : Nat) :
    net.arcsFrom i = net'.arcsFrom i :=
  congrArg (List.map (Arc.mk i)) (neighbors_of_arcs h i)

/-- The arcs into a variable come in the same order as well. -/
theorem arcsInto_of_arcs (h : net.arcs = net'.arcs) (i : Nat) :
    net.arcsInto i = net'.arcsInto i :=
  congrArg (List.map (Arc.mk · i)) (incident_of_arcs h i)

/-- The greatest variable that a network names is named by an arc. -/
theorem maxVariable?_of_arcs (h : net.arcs = net'.arcs) :
    net.maxVariable? = net'.maxVariable? := by
  rw [maxVariable?, maxVariable?, h]

end Network

/-- A revision wakes the same arcs, in the same order, whichever of the networks
is looked at. -/
theorem Propagator.awakened_of_arcs {p p' : Propagator}
    (h : p.network.arcs = p'.network.arcs) (hclosure : p.closure = p'.closure)
    (a : Arc) (r : Revision) : p.awakened a r = p'.awakened a r := by
  simp only [awakened, Network.arcsInto_of_arcs h, hclosure]

/-- A variable order looks at nothing of a network but its arcs. -/
theorem VariableOrder.select_of_arcs {net net' : Network}
    (h : net.arcs = net'.arcs) (o : VariableOrder) (m : Arena)
    (g : Random.Generator) : o.select m net g = o.select m net' g := by
  cases o <;> simp only [select, Network.degree_of_arcs h]

/-! ## What is looked up in the pairs -/

namespace Constraint

variable {c d : Constraint}

/-- The supports of a value depend on which pairs are listed only. -/
theorem supports_of_pairs (h : ∀ x y, (x, y) ∈ c.pairs ↔ (x, y) ∈ d.pairs)
    (x : Int) : c.supports x = d.supports x :=
  ValueSet.ext_mem fun y => by rw [mem_supports, mem_supports, h]

/-- Which values of a list have support is a matter of which pairs are listed,
too, and not of their order or number. -/
theorem supported_of_pairs (h : ∀ x y, (x, y) ∈ c.pairs ↔ (x, y) ∈ d.pairs)
    (l : List Int) : c.supported l = d.supported l :=
  Std.ExtTreeSet.ext_mem fun y => by simp only [mem_supported, h]

end Constraint

namespace Network.Matches

variable {net net' : Network} {p p' : Propagator} {w : Workspace}

/-- The constraints on an arc that both networks constrain list the same
pairs. -/
theorem pairs (h : net.Matches net') {a : Arc} {c d : Constraint}
    (hc : net.find? a = some c) (hd : net'.find? a = some d) (x y : Int) :
    (x, y) ∈ c.pairs ↔ (x, y) ∈ d.pairs := by
  have hallows := h.allows a x y
  rwa [Network.allows, Network.allows, hc, hd, Option.elim_some,
    Option.elim_some, Bool.eq_iff_iff,
    Constraint.allows_iff, Constraint.allows_iff] at hallows

/-- **A revision is the same under networks that match.** -/
theorem revise (h : net.Matches net') (a : Arc) (w : Workspace) :
    net.revise a w = net'.revise a w := by
  have hsome := isSome_of_arcs h.arcs a
  unfold Network.revise
  cases hc : net.find? a with
  | none =>
      cases hd : net'.find? a with
      | none => rfl
      | some d => simp [hc, hd] at hsome
  | some c =>
      cases hd : net'.find? a with
      | none => simp [hc, hd] at hsome
      | some d =>
          have hpairs := h.pairs hc hd
          simp only [Constraint.supports_of_pairs hpairs,
            Constraint.supported_of_pairs hpairs]

/-! ## Propagation -/

/-- A step of propagation takes the same arc and revises it in the same way. -/
theorem step (h : p.network.Matches p'.network)
    (hclosure : p.closure = p'.closure) (q : Agenda) (w : Workspace) :
    p.step q w = p'.step q w := by
  simp only [Propagator.step, h.revise,
    Propagator.awakened_of_arcs h.arcs hclosure]

/-- **So is a whole propagation.** -/
theorem run {β : Type} (h : p.network.Matches p'.network)
    (hclosure : p.closure = p'.closure) (observe : Arc → Arena → β → β)
    (q : Agenda) (w : Workspace) (seen : β) :
    p.run observe q w seen = p'.run observe q w seen := by
  induction q, w, seen using Propagator.run.induct p observe with
  | case1 q w seen e he =>
      have he' := (h.step hclosure q w).symm.trans he
      rw [Propagator.run, Propagator.run, he, he']
  | case2 q w seen he =>
      have he' := (h.step hclosure q w).symm.trans he
      rw [Propagator.run, Propagator.run, he, he']
  | case3 q w seen w' changed he =>
      have he' := (h.step hclosure q w).symm.trans he
      rw [Propagator.run, Propagator.run, he, he']
  | case4 q w seen q' w' changed he ih =>
      have he' := (h.step hclosure q w).symm.trans he
      rw [Propagator.run.eq_def p, Propagator.run.eq_def p', he, he']
      exact ih

/-- Propagation from the same arcs comes to the same result, with the same
counts. -/
theorem propagate (h : p.network.Matches p'.network)
    (hclosure : p.closure = p'.closure) (seed : List Arc) (s : Search) :
    s.propagate p seed = s.propagate p' seed := by
  have hrun : p.propagate seed = p'.propagate seed := funext fun w => by
    rw [Propagator.propagate, Propagator.propagate, h.run hclosure]
  rw [Search.propagate, Search.propagate, hrun]

/-! ## Search -/

/-- A solution that violates no arc of one network violates none of the
other. -/
theorem record (h : net.Matches net') (s : Search) (limit : Limit) :
    s.record net limit = s.record net' limit := by
  have hviolations : ∀ sol : Solution,
      sol.violations net = sol.violations net' := by
    intro sol
    have hclashes : Solution.clashes sol.assignments.toArray net =
        Solution.clashes sol.assignments.toArray net' :=
      funext fun a => by simp only [Solution.clashes, h.allows]
    rw [Solution.violations, Solution.violations, h.arcs, hclashes]
  simp only [Search.record, Solution.satisfies, hviolations]
  rfl

end Network.Matches

/-- Two searches that differ at most in networks that match, under a variable
order that sees no difference. -/
structure Branching.Matches {σ : Type} (b b' : Branching σ) : Prop where
  network : b.propagator.network.Matches b'.propagator.network
  closure : b.propagator.closure = b'.propagator.closure
  selector : ∀ m g, b.selector m b.propagator.network g =
    b'.selector m b'.propagator.network g
  valueOrder : b.valueOrder = b'.valueOrder
  limit : b.limit = b'.limit

namespace Branching.Matches

variable {σ : Type} {b b' : Branching σ}

/-- Propagation from a variable begins with the same arcs. -/
theorem propagateFrom (h : b.Matches b') (i : Nat) (s : Search) :
    s.propagateFrom b.propagator i = s.propagateFrom b'.propagator i := by
  rw [Search.propagateFrom, Search.propagateFrom, h.network.propagate h.closure,
    Network.arcsFrom_of_arcs h.network.arcs]

/-- A branching does the same under both networks, if the searches below it are
the same. -/
theorem branch (h : b.Matches b')
    (below : σ → Search → Except Fault (Flow × σ × Search)) (i : Nat) (v : Int)
    (g : σ) (entry : Checkpoint) (s : Search) :
    b.branch below i v g entry s = b'.branch below i v g entry s := by
  simp only [Branching.branch, left, right, refute, h.propagateFrom]

/-- **Searches under networks that match are the same.** -/
theorem search (h : b.Matches b') :
    ∀ d g s, b.search d g s = b'.search d g s := by
  intro d
  induction d with
  | zero => exact fun _ _ => rfl
  | succ d ih =>
      have hbelow : b.search d = b'.search d :=
        funext fun g => funext fun s => ih g s
      intro g s
      simp only [Branching.search, h.network.record, h.limit, h.selector,
        h.valueOrder, hbelow, h.branch]

/-- So are explorations. -/
theorem explore (h : b.Matches b') (algorithm : Algorithm) (m : Arena) (g : σ) :
    algorithm.explore b m g = algorithm.explore b' m g := by
  have hroot : ∀ g s, Algorithm.fromRoot b g s = Algorithm.fromRoot b' g s :=
    fun g s => by
      rw [Algorithm.fromRoot, Algorithm.fromRoot, h.search]
  have hall : ∀ s : Search, s.propagateAll b.propagator =
      s.propagateAll b'.propagator := by
    intro s
    rw [Search.propagateAll, Search.propagateAll, h.network.propagate h.closure,
      h.network.arcs]
  cases algorithm <;> simp only [Algorithm.explore, hroot, hall]

end Branching.Matches

namespace Network.Matches

variable {net net' : Network}

/-- The searches of one strategy. -/
theorem branching (h : net.Matches net') (algorithm : Algorithm)
    (o : VariableOrder) (valueOrder : ValueOrder) (limit : Limit) :
    (algorithm.branching o.select valueOrder limit net).Matches
      (algorithm.branching o.select valueOrder limit net') where
  network := h
  closure := rfl
  selector := VariableOrder.select_of_arcs h.arcs o
  valueOrder := rfl
  limit := rfl

/-- **What an engine answers is the same under networks that match.** -/
theorem solveBuilt (h : net.Matches net') (e : Engine) (m : Arena) :
    e.solveBuilt m net = e.solveBuilt m net' := by
  have hcheck : Engine.check m net = Engine.check m net' := by
    simp only [Engine.check, maxVariable?_of_arcs h.arcs]
  have hsolve :
      e.algorithm.solve e.variableOrder.select e.valueOrder e.limit net m
        e.generator =
      e.algorithm.solve e.variableOrder.select e.valueOrder e.limit net' m
        e.generator := by
    rw [Algorithm.solve_eq, Algorithm.solve_eq, (h.branching _ _ _ _).explore]
  rw [Engine.solveBuilt, Engine.solveBuilt, hcheck, hsolve]

end Network.Matches

end ConstraintNet
