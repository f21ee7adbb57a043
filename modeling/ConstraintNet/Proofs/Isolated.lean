import ConstraintNet.Proofs.Extensions

/-!
# A variable without constraints

A last variable that no constraint names costs a run no propagation, under an
order that puts it off until all others have values.  The search goes on as
without it; only where it would record a solution does it list what the last
variable makes of this solution, and then it goes on as if nothing had been.
With a limit of one it stops at the first.

* `VariableOrder.IsStatic.putsOff` — the static orders put such a variable off;
* `Branching.search_beside` — the search with the variable goes beside the one
  without;
* `Algorithm.solve_with_isolated` — and so does a whole run.
-/

namespace ConstraintNet

/-! ## Static orders -/

/-- One more at the end, better than none of the others, is not the best. -/
theorem best?_concat {α : Type} {better : α → α → Bool} {l : List α} {a : α}
    (hl : l ≠ []) (ha : ∀ b ∈ l, better a b = false) :
    best? better (l ++ [a]) = best? better l := by
  induction l with
  | nil => exact absurd rfl hl
  | cons b l ih =>
      cases l with
      | nil => simp [best?, ha b]
      | cons c l =>
          have hrest :=
            ih (List.cons_ne_nil c l) fun d hd =>
              ha d (List.mem_cons_of_mem b hd)
          rw [List.cons_append, best?, hrest, ← best?]

/-- A variable that the network is too small for has no neighbours. -/
theorem Network.degree_eq_zero {net : Network} {n : Nat} (h : net.Within n) :
    net.degree n = 0 := by
  have harcs := arcsFrom_eq_nil h
  rw [arcsFrom, List.map_eq_nil_iff] at harcs
  rw [degree_eq_length, harcs]
  rfl

/-- **A static order puts off a last variable without constraints.** -/
theorem VariableOrder.IsStatic.putsOff {o : VariableOrder} (ho : o.IsStatic)
    (net : Network) : o.select.PutsOff net where
  before {m x} g hnet hincomplete hvalue hid := by
    have hne := Arena.unassigned_ne_nil hincomplete
    rcases ho with rfl | rfl
    · simp only [select, Arena.firstUnassigned?_eq,
        Arena.unassigned_push m hvalue, List.head?_append_of_ne_nil _ hne]
    · have hdegree : net.degree x.id = 0 := hid ▸ Network.degree_eq_zero hnet
      simp only [select, greatest?, Arena.unassigned_push m hvalue,
        List.map_append, List.map_cons, List.map_nil, hdegree]
      rw [best?_concat (by simpa using hne) (by simp)]
  last {m x} g hcomplete hvalue hid := by
    rcases ho with rfl | rfl
    · simp [select, Arena.firstUnassigned?_eq, Arena.unassigned_push m hvalue,
        Arena.unassigned_eq_nil hcomplete, hid]
    · simp [select, greatest?, Arena.unassigned_push m hvalue,
        Arena.unassigned_eq_nil hcomplete, hid, best?]

/-! ## What becomes of a solution -/

namespace Spread

/-- A solution for each of the values. -/
def all (i : Nat) (values : List Int) : Spread where
  solutions s := values.map (s.extend i)
  nodes := 2 * values.length - 1
  backtracks := 1

/-- One solution, with the value. -/
def first (i : Nat) (v : Int) : Spread where
  solutions s := [s.extend i v]
  nodes := 1
  backtracks := 0

end Spread

namespace Branching

variable {σ : Type} {b : Branching σ} {m : Arena} {y : Variable} {e : Spread}
  {d d' : Nat} {g : σ} {s t : Search}

/-- Where all others have values, a search that branches on a variable that
looks like `y` lists what this makes of the solution, and leaves variable and
trail as they were.  Whether it stops then does not depend on how many solutions
were found before. -/
def Lists (b : Branching σ) (y : Variable) (e : Spread) : Prop :=
  ∀ {m : Arena} {τ : Nat → Int} {x : Variable},
    m.Takes b.propagator.network τ → m.size = y.id → y.Alike x →
    ∀ (g : σ) (trail : Trail) (tally : Tally) (sols : Array Solution)
      (found : Nat),
      ∃ d x', y.Alike x' ∧ b.search d g ⟨⟨m.push x, trail, tally⟩, sols⟩ =
        .ok (b.flowAfter found, g,
          ⟨⟨m.push x', trail, tally.strolled (e.nodes + 1) e.backtracks⟩,
          sols ++ (e.solutions (.tabulate m.size τ)).toArray⟩)

/-- Taking the variable back to where it began brings back its line, whatever
shape its domain has now. -/
theorem line_of_alike {o : ValueOrder} {x : Variable} (hy : y.IsFresh)
    (hx : y.Alike x) : o.line x.domain = o.line y.initial :=
  ValueOrder.line_eq
    (fun v => by rw [ValueOrder.mem_line, hx.domain, hy.mem_domain])
    (o.pairwise_line y.initial)

/-- A search for all solutions lists the new variable's values in the order of
the line, below each solution of the others. -/
theorem lists_all (hlimit : b.limit = .all)
    (hputsOff : b.selector.PutsOff b.propagator.network) (hy : y.IsFresh)
    (hne : ∃ v, v ∈ y.initial) :
    b.Lists y (.all y.id (b.valueOrder.line y.initial)) := by
  intro m τ x hm hid hx g trail tally sols found
  obtain ⟨u, hu⟩ := hne
  obtain ⟨v, l, hl⟩ := List.exists_cons_of_ne_nil
    (List.ne_nil_of_mem (ValueOrder.mem_line (o := b.valueOrder).mpr hu))
  obtain ⟨x', hx', hsearch⟩ :=
    search_spare_all (g := g) hputsOff hm trail tally sols hlimit
      (hx.spare hy.spare) (hx.id.trans hid.symm)
      ((line_of_alike hy hx).trans hl) (Nat.le_refl _)
  have hflow := flowAfter_all hlimit found
  have hnodes : 2 * (v :: l).length - 1 + 1 = 2 * (l.length + 1) := by
    rw [List.length_cons]
    omega
  refine ⟨l.length + 2, x', hx.trans hx', ?_⟩
  rw [hsearch, hl, hflow, Spread.all, hnodes, hid]

/-- A search for the first solution lists the first of these values. -/
theorem lists_first {v : Int} (hlimit : b.limit = .first)
    (hputsOff : b.selector.PutsOff b.propagator.network) (hy : y.IsFresh)
    (hv : (b.valueOrder.line y.initial).head? = some v) :
    b.Lists y (.first y.id v) := by
  intro m τ x hm hid hx g trail tally sols found
  have hfirst : (b.valueOrder.line x.domain).head? = some v := by
    rw [line_of_alike hy hx]
    exact hv
  have hsearch :=
    search_spare_first (d := 0) (g := g) hputsOff hm trail tally sols hlimit
      (hx.spare hy.spare) (hx.id.trans hid.symm) hfirst
  have hflow := flowAfter_first hlimit found
  refine ⟨2, x, hx, ?_⟩
  rw [hsearch, hflow, Spread.first, hid, Array.append_singleton]

/-- A search that succeeds does so in one way, however deep it may go. -/
theorem search_unique {p q : Flow × σ × Search} (hp : b.search d g s = .ok p)
    (hq : b.search d' g s = .ok q) : p = q := by
  rcases Nat.le_total d d' with hle | hle
  · exact Except.ok.inj ((search_extends hle g s p hp).symm.trans hq)
  · exact Except.ok.inj (hp.symm.trans (search_extends hle g s q hq))

/-- Where a solution would be recorded, the search lists what the last variable
makes of it. -/
theorem search_beside_of_isComplete (hlists : b.Lists y e)
    (hs : s.Sound b.propagator.network) (hcomplete : s.arena.isComplete)
    (h : s.Beside y e t) :
    Jointly (SameEnds (Search.Beside y e)) (b.search (d + 1) g s)
      (b.search d' g t) := by
  obtain ⟨τ, hm⟩ := exists_takes hs hcomplete
  obtain ⟨⟨k, trail, tally⟩, sols⟩ := t
  obtain ⟨x, hx, rfl⟩ := h.workspace.arena.pushed
  obtain ⟨n, x', hx', hsearch⟩ :=
    hlists hm h.workspace.arena.place hx g trail tally sols s.solutions.size
  intro p q hp hq
  rw [search_of_takes hm] at hp
  cases hp
  obtain rfl := search_unique hsearch hq
  have hsize : (s.solutions.push (.tabulate s.arena.size τ)).size =
      s.solutions.size + 1 :=
    Array.size_push _
  have htally : tally = s.tally.strolled (e.nodes * s.solutions.size)
      (e.backtracks * s.solutions.size) := h.workspace.tally
  have hsolutions : sols.toList = s.solutions.toList.flatMap e.solutions :=
    h.solutions
  refine ⟨rfl, rfl,
    ⟨⟨h.workspace.arena.place, x', hx', rfl⟩, h.workspace.trail, ?_⟩, ?_⟩
  · simp only [hsize, htally, Tally.strolled_strolled, Nat.mul_succ]
    change _ = (s.tally.strolled 1 0).strolled _ _
    rw [Tally.strolled_strolled]
    congr 1 <;> omega
  · simp [hsolutions]

/-- Till all others have values, both searches decide on the same variable. -/
theorem same_decision (hputsOff : b.selector.PutsOff b.propagator.network)
    (hvalue : y.value = none) (hnet : b.propagator.network.Within s.arena.size)
    (hcomplete : s.arena.isComplete = false) (h : s.Beside y e t) (g : σ) :
    t.arena.isComplete = false ∧
      b.selector t.arena b.propagator.network g =
        b.selector s.arena b.propagator.network g ∧
      ∀ {i x}, s.arena.read i = .ok x → t.arena.read i = .ok x := by
  obtain ⟨x, hx, hpush⟩ := h.workspace.arena.pushed
  have hid : x.id = s.arena.size := hx.id.trans h.workspace.arena.place.symm
  rw [hpush, Arena.isComplete_push, hcomplete]
  exact ⟨rfl, hputsOff.before g hnet hcomplete (hx.value.trans hvalue) hid,
    fun hread => Arena.read_push_of_read hread x⟩

/-- **The search with the last variable goes beside the one without.** -/
theorem search_beside (hsafe : b.selector.IsSafe)
    (hputsOff : b.selector.PutsOff b.propagator.network) (hlists : b.Lists y e)
    (hvalue : y.value = none) :
    ∀ d g s, b.Ready m ⟨d, g, s⟩ → ∀ d' t, s.Beside y e t →
      Jointly (SameEnds (Search.Beside y e)) (b.search d g s)
        (b.search d' g t) := by
  -- By induction on the first bound only: where the first search ends, the
  -- second goes deeper.
  intro d
  induction d with
  | zero =>
      intro g s _ d' t _ _ _ h
      cases h
  | succ d ih =>
      intro g s hc d' t h
      cases hcomplete : s.node.arena.isComplete with
      | true => exact search_beside_of_isComplete hlists hc.sound hcomplete h
      | false =>
          have hnode := h.node
          obtain ⟨hcomplete', hselector, hread⟩ := same_decision hputsOff hvalue
            (hc.sound.node).within hcomplete hnode g
          rintro ⟨flow, g₁, s₁⟩ q hp hq
          cases d' with
          | zero => cases hq
          | succ d' =>
              cases ends_of_search hp with
              | recorded hcomplete₁ =>
                  exact absurd hcomplete₁ (Bool.eq_false_iff.mp hcomplete)
              | unnamed _ hselect =>
                  rw [search_of_none hcomplete' (hselector.trans hselect)] at hq
                  cases hq
                  exact ⟨rfl, rfl, hnode⟩
              | exhausted _ hselect hx hv =>
                  rw [search_of_no_value hcomplete' (hselector.trans hselect)
                    (hread hx) hv] at hq
                  cases hq
                  exact ⟨rfl, rfl, hnode.backtrack⟩
              | @branched g' _ _ i v _ hpicks hbranch =>
                  obtain ⟨x, hx, hv⟩ := hpicks.offered
                  have hpicks' : b.Picks ⟨d' + 1, g, t⟩ i v g' :=
                    ⟨hcomplete', hselector.trans hpicks.selected, x,
                      hread hx, hv⟩
                  rw [search_of_picks hpicks', hnode.workspace.trail] at hq
                  exact (b.carries_beside y e i v).branch hnode
                    (fun s' t' haccept h' =>
                      ih g' s' ((Enters.left hpicks haccept).ready hsafe hc)
                        d' t' h')
                    (fun g'' r s' t' hleft hrefute h' =>
                      ih g'' s'
                        ((Enters.right hpicks hleft hrefute).ready hsafe hc)
                        d' t' h')
                    _ _ hbranch hq

end Branching

/-! ## Runs -/

namespace Arena

variable {m : Arena} {x : Variable}

/-- A fresh arena with one more fresh variable is fresh. -/
theorem IsFresh.push (hm : m.IsFresh) (hx : x.IsFresh) : (m.push x).IsFresh :=
  fun i y hy =>
    (read_push.mp hy).elim (hm i y) fun h => h.2 ▸ hx

/-- The new variable is in its place if its id is the number of the others. -/
theorem IsNumbered.push (hm : m.IsNumbered) (hid : x.id = m.size) :
    (m.push x).IsNumbered :=
  fun i y hy => (read_push.mp hy).elim (hm i y) fun h => by rw [h.1, h.2, hid]

end Arena

/-- The second run has one variable more than the first, and what this makes of
each of its solutions.  Apart from nodes and backtracks both count the same. -/
structure Solved.Beside {σ : Type} (y : Variable) (e : Spread)
    (r r' : Solved σ) : Prop where
  solutions : r'.outcome.solutions = r.outcome.solutions.flatMap e.solutions
  tally : r'.outcome.tally = r.outcome.tally.strolled
    (e.nodes * r.outcome.solutions.length)
    (e.backtracks * r.outcome.solutions.length)
  arena : r.arena.Beside y r'.arena
  state : r'.state = r.state

/-- What the two searches leave is beside each other as they are. -/
theorem Search.Beside.solved {σ : Type} {y : Variable} {e : Spread}
    {s t : Search} (h : s.Beside y e t) (g : σ) :
    Solved.Beside y e ⟨⟨s.solutions.toList, s.tally⟩, s.arena, g⟩
      ⟨⟨t.solutions.toList, t.tally⟩, t.arena, g⟩ where
  solutions := h.solutions
  tally := h.workspace.tally
  arena := h.workspace.arena
  state := rfl

namespace Algorithm

section

variable {σ : Type} {b : Branching σ} {m : Arena} {y : Variable} {e : Spread}
  {g : σ} (hlegal : b.selector.IsLegal)
  (hputsOff : b.selector.PutsOff b.propagator.network) (hlists : b.Lists y e)
  (hy : y.IsFresh)

include hlegal hputsOff hlists hy

/-- From the root, where nothing was done yet, the two searches stay beside each
other. -/
theorem fromRoot_beside {s t : Search} (hc : b.Ready m ⟨s.arena.depth, g, s⟩)
    (h : s.Beside y e t) :
    Jointly (Same (Search.Beside y e)) (fromRoot b g s) (fromRoot b g t) :=
  (Branching.search_beside hlegal.isSafe hputsOff hlists hy.value _ g s hc
    _ t h).map fun _ _ he => he.2

/-- Exploring with the last variable goes beside exploring without it. -/
theorem explore_beside (algorithm : Algorithm) (hm : m.IsFresh)
    (hnumbered : m.IsNumbered) (hnet : b.propagator.network.Within m.size)
    (hid : y.id = m.size) :
    Jointly (Same (Search.Beside y e)) (algorithm.explore b m g)
      (algorithm.explore b (m.push y) g) := by
  have hbegin : (Search.begin m).Beside y e (.begin (m.push y)) :=
    .begin ⟨hid.symm, y, .refl y, rfl⟩
  refine algorithm.explore_related hbegin (hbegin.propagate b.propagator _)
    (fun s t hs hst => ?_) fun _ _ c hst => hst.rewind c
  exact fromRoot_beside hlegal hputsOff hlists hy
    (hs.ready hm hnumbered hnet) hst

end

variable {σ : Type} {selector : Selector σ} {valueOrder : ValueOrder}
  {limit : Limit} {net : Network} {m : Arena} {y : Variable} {e : Spread}

/-- So does a whole run. -/
theorem solve_beside (algorithm : Algorithm) (g : σ) (hlegal : selector.IsLegal)
    (hputsOff : selector.PutsOff net)
    (hlists : (algorithm.branching selector valueOrder limit net).Lists y e)
    (hm : m.IsFresh) (hnumbered : m.IsNumbered) (hnet : net.Within m.size)
    (hy : y.IsFresh) (hid : y.id = m.size) :
    ∃ r r', algorithm.solve selector valueOrder limit net m g = .ok r ∧
      algorithm.solve selector valueOrder limit net (m.push y) g = .ok r' ∧
      r.Beside y e r' := by
  let b := algorithm.branching selector valueOrder limit net
  have hnet' : net.Within (m.push y).size := hnet.push y
  obtain ⟨g₁, s, hexplore, _, htrail, _⟩ :=
    explore_of_isFresh (b := b) algorithm g hlegal.isSafe hm hnumbered hnet
  obtain ⟨g₂, t, hexplore', _, htrail', _⟩ :=
    explore_of_isFresh (b := b) algorithm g hlegal.isSafe (hm.push hy)
      (hnumbered.push hid) hnet'
  obtain ⟨hg, hst⟩ :=
    explore_beside (b := b) hlegal hputsOff hlists hy algorithm hm
      hnumbered hnet hid _ _ hexplore hexplore'
  obtain rfl : g₁ = g₂ := hg
  exact ⟨_, _, solve_of_explore hexplore htrail,
    solve_of_explore hexplore' htrail', hst.solved g₁⟩

/-- **A variable without constraints costs no propagation.**  Under a static
variable order, append a fresh variable with some values to variables that a
network stays within.  Without limit a strategy then finds, in the place of each
solution, its extensions by these values in their order, and with a limit of one
the first solution is extended by the first of the values.  Nodes and backtracks
apart, all counts stay as they were. -/
theorem solve_with_isolated (algorithm : Algorithm) {order : VariableOrder}
    (valueOrder : ValueOrder) (g : Random.Generator) (horder : order.IsStatic)
    (hm : m.IsFresh) (hnumbered : m.IsNumbered) (hnet : net.Within m.size)
    (hy : y.IsFresh) (hid : y.id = m.size) (hne : ∃ v, v ∈ y.initial) :
    let solve := fun limit k =>
      algorithm.solve order.select valueOrder limit net k g
    let values := valueOrder.line y.initial
    (∃ r r', solve .all m = .ok r ∧ solve .all (m.push y) = .ok r' ∧
      r.Beside y (.all m.size values) r') ∧
    ∃ r r' v, solve .first m = .ok r ∧ solve .first (m.push y) = .ok r' ∧
      values.head? = some v ∧
      r.Beside y (.first m.size v) r' := by
  intro solve values
  have hlegal := order.isLegal
  have hputsOff := horder.putsOff net
  obtain ⟨u, hu⟩ := hne
  obtain ⟨v, l, hvalues⟩ := List.exists_cons_of_ne_nil
    (List.ne_nil_of_mem (ValueOrder.mem_line (o := valueOrder).mpr hu))
  have hv : values.head? = some v := List.head?_eq_some_iff.mpr ⟨l, hvalues⟩
  rw [← hid]
  obtain ⟨r, r', hr, hr', hbeside⟩ := solve_beside algorithm g hlegal hputsOff
    (Branching.lists_all rfl hputsOff hy ⟨u, hu⟩) hm hnumbered hnet hy hid
  obtain ⟨q, q', hq, hq', hbeside'⟩ := solve_beside algorithm g hlegal hputsOff
    (Branching.lists_first rfl hputsOff hy hv) hm hnumbered hnet hy hid
  exact ⟨⟨r, r', hr, hr', hbeside⟩, q, q', v, hq, hq', hv, hbeside'⟩

/-- Two variables with one constraint between them, and a third one with the
values 5, 6 and 7 that no constraint names. -/
theorem solve_with_isolated_of_two :
    let net := Instance.coupleNetwork
    let m := Instance.coupleArena
    let solve := fun limit k => maintainArcConsistency.solve
      VariableOrder.mostConstrainedFirst.select .descending limit net k
        (.ofSeed 7)
    (∃ r r', solve .all m = .ok r ∧
        solve .all (m.push (.ofBounds 2 5 7)) = .ok r' ∧
      r'.outcome.solutions = r.outcome.solutions.flatMap
        (fun s => [s.extend 2 7, s.extend 2 6, s.extend 2 5]) ∧
      r'.outcome.tally.revisions = r.outcome.tally.revisions) ∧
    ∃ r r', solve .first m = .ok r ∧
      solve .first (m.push (.ofBounds 2 5 7)) = .ok r' ∧
      r'.outcome.solutions = r.outcome.solutions.flatMap fun s =>
        [s.extend 2 7] := by
  intro net m solve
  have hposed : m.Posed net := Instance.posed_couple
  have hvalues : ValueOrder.descending.line (Variable.ofBounds 2 5 7).initial =
      [7, 6, 5] := by
    decide +kernel
  have hne : ∃ v, v ∈ (Variable.ofBounds 2 5 7).initial :=
    ⟨7, ValueOrder.mem_line.mp (hvalues ▸ List.mem_cons_self)⟩
  obtain ⟨⟨r, r', hr, hr', hbeside⟩, q, q', v, hq, hq', hv, hbeside'⟩ :=
    solve_with_isolated maintainArcConsistency .descending (.ofSeed 7)
      (.inr rfl)
      hposed.fresh hposed.numbered hposed.within (Variable.isFresh_fresh _ _)
      (y := .ofBounds 2 5 7) rfl hne
  rw [hvalues] at hbeside hv
  cases hv
  have hrevisions : r'.outcome.tally.revisions = r.outcome.tally.revisions := by
    rw [hbeside.tally]
    rfl
  exact ⟨⟨r, r', hr, hr', hbeside.solutions, hrevisions⟩, q, q', hq, hq',
    hbeside'.solutions⟩

end Algorithm

end ConstraintNet
