import ConstraintNet.Proofs.Bystanders
import ConstraintNet.Proofs.Nesting

/-!
# The values of the last variable

Where all variables but the last have values, and no constraint names the last
one, a search tries the values of that variable one after the other.  It makes a
solution with each, prunes it and goes on, revises nothing on the way, and in
the end has everything back as it was.

The value that is tried is the first of those left, in a domain of any size:
however much the walk down a high tree passes over, it begins with the greatest
value.

* `Variable.Spare.select` — the first value is tried;
* `Branching.search_spare_first`, `Branching.search_spare_all` — what the search
  comes to.
-/

namespace ConstraintNet

/-! ## The first value -/

/-- A walk down a row goes through its last child in full, and then on through
the others, where it may skip. -/
theorem Domain.Tree.walk_row {height : Nat} (r : Row (Tree height)) :
    @Node.walk (Tree (height + 1)) _ r =
      Node.walk r.top ++ Row.skimRest r.rest := by
  rw [node_row]
  rfl

/-- A walk down begins with the greatest value. -/
theorem Domain.Tree.head?_walk : (height : Nat) → (t : Tree height) →
    (Node.walk t).head? = (Node.down t).head?
  | 0, _ => rfl
  | height + 1, ⟨top, rest⟩ => by
      rw [walk_row, down_row, List.head?_append, List.head?_append,
        head?_walk height top]
      cases rest <;> rfl

/-- The first value of a walk down is the last in ascending order. -/
theorem Domain.head?_walk (d : Domain) :
    d.walk.head? = d.toList.reverse.head? := by
  rw [walk, toList, List.reverse_reverse]
  exact Tree.head?_walk d.height d.tree

/-- A test that all members pass finds the first of them. -/
theorem find?_of_forall {l : List Int} {p : Int → Bool}
    (h : ∀ v ∈ l, p v = true) : l.find? p = l.head? := by
  rw [← List.head?_filter, List.filter_eq_self.mpr h]

/-- The line of a domain is that of its members. -/
theorem ValueOrder.line_eq {o : ValueOrder} {d : Domain} {l : List Int}
    (hmem : ∀ v, v ∈ l ↔ v ∈ d) (hl : l.Pairwise o.Before) : o.line d = l := by
  have hline := o.pairwise_line d
  have hnodup : ∀ {l : List Int}, l.Pairwise o.Before → l.Nodup :=
    Paired.nodup_of_pairwise fun _ _ => Before.asymm
  refine List.Perm.eq_of_pairwise
    (fun u v _ _ huv hvu => absurd hvu huv.asymm) hline hl
    ((List.perm_ext_iff_of_nodup (hnodup hline) (hnodup hl)).mpr fun v => ?_)
  rw [mem_line, hmem]

namespace Variable

/-- The variable has no value, no marks, and what was tried of it is out of the
domain. -/
structure Spare (x : Variable) : Prop where
  value : x.value = none
  settled : x.Settled
  unmarked : ∀ v, v ∉ x.marked.excluded
  untried : ∀ v ∈ x.domain, v ∉ x.tried.values

variable {x y z : Variable} {v : Int} {l : List Int}

/-- A fresh variable is spare: nothing of it was tried yet. -/
theorem IsFresh.spare (h : x.IsFresh) : x.Spare where
  value := h.value
  settled := h.settled
  unmarked v := by
    rw [h.marked]
    exact Std.ExtTreeSet.not_mem_empty
  untried v _ := by
    rw [h.tried]
    exact List.not_mem_nil

/-- Being spare is shared by alike variables. -/
theorem Alike.spare (h : x.Alike y) (hx : x.Spare) : y.Spare where
  value := h.value.trans hx.value
  settled := h.settled hx.settled
  unmarked v := h.marked ▸ hx.unmarked v
  untried v hv := h.tried ▸ hx.untried v ((h.domain v).mp hv)

/-- Trying a value and giving it up again changes nothing. -/
theorem retire_of_value_eq_none (h : x.value = none) (v : Int) :
    (x.assign v).unassign.retire = .ok x := by
  have hpop : (x.assign v).unassign.tried.pop? = some (v, x.tried) :=
    Choices.pop?_push x.tried v
  rw [retire, hpop]
  cases x
  cases h
  rfl

namespace Spare

/-- All values left in the domain of a spare variable are live. -/
theorem mem_live (h : x.Spare) : v ∈ x.live ↔ v ∈ x.domain := by
  rw [Variable.mem_live]
  exact and_iff_left (h.unmarked v)

/-- **The first value is tried.** -/
theorem select (h : x.Spare) (o : ValueOrder) :
    o.select x = (o.line x.domain).head? := by
  have htest : ∀ v ∈ x.domain,
      (!x.marked.contains v && !x.wasTried v) = true := fun v hv => by
    have htried : x.wasTried v = false := by
      rw [← Bool.not_eq_true, wasTried, Choices.contains_iff]
      exact h.untried v hv
    simp [Exclusion.Stack.contains, h.unmarked v, htried]
  cases o with
  | ascending =>
      rw [ValueOrder.select, smallestUntried?, Domain.findUp?_eq,
        ValueOrder.line]
      exact find?_of_forall htest
  | descending =>
      rw [ValueOrder.select, largestUntried?, Domain.findDown?_eq,
        ValueOrder.line,
        find?_of_forall fun v hv => htest v (Domain.mem_of_mem_walk hv),
        Domain.head?_walk]

/-- After the first value was tried it can be pruned, which leaves the
others. -/
theorem exists_prune (h : x.Spare) {o : ValueOrder}
    (hl : o.line x.domain = v :: l) :
    ∃ y, (x.assign v).unassign.prune v = .ok (true, y) ∧
      (x.assign v).unassign.Pruned [v] y ∧
      y.Spare ∧ o.line y.domain = l ∧ y.isWipedOut = l.isEmpty := by
  have hmem : ∀ u, u ∈ x.domain ↔ u = v ∨ u ∈ l := fun u => by
    rw [← ValueOrder.mem_line (o := o), hl, List.mem_cons]
  have hpairs := o.pairwise_line x.domain
  rw [hl] at hpairs
  obtain ⟨hbefore, hpairs⟩ := List.pairwise_cons.mp hpairs
  have hv : v ∉ l := fun hv => (hbefore v hv).asymm (hbefore v hv)
  have hsettled : (x.assign v).unassign.Settled := { h.settled with }
  obtain ⟨y, hprune, hpruned⟩ :=
    prune_of_mem_live (x := (x.assign v).unassign) hsettled.calm
      (h.mem_live.mpr ((hmem v).mpr (.inl rfl)))
  have hdomain : ∀ u, u ∈ y.domain ↔ u ∈ l := fun u => by
    rw [hpruned.mem_domain u, List.mem_singleton]
    exact (and_congr_left' (hmem u)).trans
      ⟨fun hu => hu.1.resolve_left hu.2,
        fun hu => ⟨.inr hu, fun he => hv (he ▸ hu)⟩⟩
  have hspare : y.Spare := {
    value := hpruned.later.value
    settled := hpruned.later.settled hsettled
    unmarked := fun u => hpruned.marked ▸ h.unmarked u
    -- To what was tried before comes `v`, which is out of the domain now.
    untried := fun u hu => by
      rw [hpruned.later.tried]
      intro htried
      have hul := (hdomain u).mp hu
      rcases List.mem_cons.mp htried with rfl | htried
      · exact hv hul
      · exact h.untried u ((hmem u).mpr (.inr hul)) htried }
  refine ⟨y, hprune, hpruned, hspare,
    ValueOrder.line_eq (fun u => (hdomain u).symm) hpairs, ?_⟩
  rw [Bool.eq_iff_iff, isWipedOut_iff, List.isEmpty_iff,
    List.eq_nil_iff_forall_not_mem]
  refine forall_congr' fun u => not_congr ?_
  rw [mem_effective_of_value_eq_none hspare.value, hspare.mem_live, hdomain]

/-- Taking the prune back and retiring the value leaves the variable as it
was. -/
theorem exists_undo (h : x.Spare) (hpruned : (x.assign v).unassign.Pruned [v] y)
    (hz : y.Alike z) :
    ∃ u x' x'', z.undoPrune = .ok (u, x') ∧ x'.retire = .ok x'' ∧
      x.Alike x'' := by
  have hsettled : (x.assign v).unassign.Settled := { h.settled with }
  have hlater := hpruned.later.alike hz
  have hpos : 0 < z.pruned.batches.length := by
    rw [hz.pruned, hpruned.batches]
    simp
  obtain ⟨u, x', hundo, hundone⟩ := (hlater.settled hsettled).undoPrune hpos
  have halike := hlater.alike_of_undone hsettled hundone
  have hpop : x'.tried.pop? = some (v, x.tried) := by
    rw [halike.tried]
    exact Choices.pop?_push x.tried v
  refine ⟨u, x', { x' with tried := x.tried }, hundo, by rw [retire, hpop], ?_⟩
  exact { halike with
    value := halike.value.trans h.value.symm
    tried := rfl }

end Spare

end Variable

/-! ## Where all other variables have values -/

/-- The solution with a value for one variable more. -/
def Solution.extend (s : Solution) (i : Nat) (v : Int) : Solution :=
  ⟨s.assignments ++ [⟨i, v⟩]⟩

/-- With one variable more a network stays within as many. -/
theorem Network.Within.push {net : Network} {m : Arena} (h : net.Within m.size)
    (x : Variable) : net.Within (m.push x).size := fun a ha => by
  obtain ⟨htail, hhead⟩ := h a ha
  rw [Arena.size_push]
  exact ⟨Nat.lt_succ_of_lt htail, Nat.lt_succ_of_lt hhead⟩

/-- Every variable has the value that `τ` has for it, and `τ` holds. -/
structure Arena.Takes (m : Arena) (net : Network) (τ : Nat → Int) : Prop where
  read : ∀ i x, m.read i = .ok x → x.id = i ∧ x.value = some (τ i)
  within : net.Within m.size
  holds : net.Holds τ

namespace Arena

variable {m : Arena} {net : Network} {τ : Nat → Int} {x : Variable} {v : Int}

/-- Where every variable takes its value the arena is complete. -/
theorem Takes.isComplete (h : m.Takes net τ) : m.isComplete :=
  isComplete_iff.mpr fun i x hx => by
    rw [Variable.isAssigned, (h.read i x hx).2]
    rfl

/-- The last variable may take any value. -/
theorem Takes.push (h : m.Takes net τ) (hid : x.id = m.size) (v : Int) :
    (m.push (x.assign v)).Takes net
      (fun i => if i = m.size then v else τ i) where
  read i z hz := by
    rcases read_push.mp hz with hz | ⟨rfl, rfl⟩
    · rw [if_neg (Nat.ne_of_lt (lt_of_read hz))]
      exact h.read i z hz
    · rw [if_pos rfl]
      exact ⟨hid, rfl⟩
  within := h.within.push _
  holds a c hc := by
    obtain ⟨htail, hhead⟩ := h.within a (Network.mem_arcs_of_find? hc)
    simp only [if_neg (Nat.ne_of_lt htail), if_neg (Nat.ne_of_lt hhead)]
    exact h.holds a c hc

end Arena

/-- One variable more makes a solution longer by one assignment, at its end. -/
theorem Solution.tabulate_extend (n : Nat) (τ : Nat → Int) (v : Int) :
    tabulate (n + 1) (fun i => if i = n then v else τ i) =
      (tabulate n τ).extend n v := by
  have hinit :
      (List.range n).map (fun i =>
        Assignment.mk i (if i = n then v else τ i)) =
      (List.range n).map fun i => Assignment.mk i (τ i) :=
    List.map_congr_left fun i hi => by
      rw [if_neg (Nat.ne_of_lt (List.mem_range.mp hi))]
  rw [tabulate, extend, tabulate, List.range_succ, List.map_append, hinit]
  simp

/-- A variable order that comes to a last variable, which no constraint names,
when all others have values, and till then goes on as without it. -/
structure Selector.PutsOff {σ : Type} (select : Selector σ) (net : Network) :
    Prop where
  before {m : Arena} {x : Variable} (g : σ) (hnet : net.Within m.size)
    (hincomplete : m.isComplete = false) (hvalue : x.value = none)
    (hid : x.id = m.size) :
    select (m.push x) net g = select m net g
  last {m : Arena} {x : Variable} (g : σ) (hcomplete : m.isComplete)
    (hvalue : x.value = none)
    (hid : x.id = m.size) : select (m.push x) net g = (some m.size, g)

/-! ## Searching there -/

/-- No arcs lead from a variable that the network is too small for, so that its
assignment propagates nothing. -/
theorem Network.arcsFrom_eq_nil {net : Network} {n : Nat} (h : net.Within n) :
    net.arcsFrom n = [] := by
  refine List.eq_nil_iff_forall_not_mem.mpr fun a ha => ?_
  obtain ⟨ha, htail⟩ := mem_arcsFrom.mp ha
  exact absurd (h a ha).1 (htail ▸ Nat.lt_irrefl _)

/-- Without arcs there is nothing to propagate. -/
theorem Propagator.propagate_nil (p : Propagator) (w : Workspace) :
    p.propagate [] w = .ok (true, w) := by
  have hstep : p.step (.ofList []) w = .ok .settled := rfl
  rw [propagate, run, hstep]
  rfl

/-- Rewinding over one prune undoes it. -/
theorem Trail.rewind_recordPrune (t : Trail) (i : Nat) (m : Arena) :
    (t.recordPrune i).rewind t.checkpoint m =
      (m.adjust i Variable.undoPrune).map fun p => (t, p.2) := by
  have hmarks : (t.recordPrune i).marked.size - t.checkpoint.marked = 0 :=
    Nat.sub_self _
  have hprunes : (t.recordPrune i).pruned.size - t.checkpoint.pruned = 1 :=
    Nat.add_sub_cancel _ _
  have hle : t.checkpoint.pruned ≤ (t.recordPrune i).pruned.size ∧
      t.checkpoint.marked ≤ (t.recordPrune i).marked.size :=
    ⟨Nat.le_add_left _ _, Nat.le_refl _⟩
  have hlatest : (t.recordPrune i).pruned.latest 1 = [i] := rfl
  have hdrop : (t.recordPrune i).pruned.drop 1 = t.pruned :=
    Track.ext_entries rfl
  rw [rewind, if_pos hle, hmarks, hprunes]
  simp only [hlatest, hdrop, undoMarks, undoPrunes, Track.latest_zero,
    List.foldlM_nil, List.foldlM_cons, pure_bind, bind_pure, Track.drop_zero]
  cases m.adjust i Variable.undoPrune <;> rfl

/-- Rewinding to where the trail stands changes nothing. -/
theorem Search.rewind_self (s : Search) :
    s.rewind s.trail.checkpoint = .ok s := by
  obtain ⟨⟨m, trail, tally⟩, sols⟩ := s
  refine modify_eq (w := ⟨m, trail, tally⟩) ?_
  rw [Workspace.rewind, Trail.rewind_checkpoint]
  rfl

namespace Branching

variable {σ : Type} {b : Branching σ} {m : Arena} {τ : Nat → Int} {d : Nat}
  {g : σ} {x y z : Variable} {v : Int} {l : List Int} {s : Search}
  {trail : Trail} {tally : Tally} {sols : Array Solution}

/-- Where variables and values agree, so it is at every complete node. -/
theorem exists_takes (hs : s.Sound b.propagator.network)
    (hcomplete : s.arena.isComplete) :
    ∃ τ, s.arena.Takes b.propagator.network τ := by
  obtain ⟨τ, _, hholds, hadmits, _⟩ := exists_assignment hs hcomplete
  refine ⟨τ, fun i x hx => ⟨hs.orderly.numbered i x hx, ?_⟩, hs.within, hholds⟩
  obtain ⟨v, hv⟩ :=
    Option.isSome_iff_exists.mp (Arena.isComplete_iff.mp hcomplete i x hx)
  have hshown := hadmits i (Arena.lt_of_read hx)
  rw [Arena.effective_of_read hx] at hshown
  rw [hv, (Variable.mem_effective.mp hshown).2 v hv]

/-- Whether a search stops at its next solution, when so many were found
before. -/
def flowAfter (b : Branching σ) (found : Nat) : Flow :=
  if b.limit.isReached (found + 1) then .stop else .goOn

/-- A search for all solutions never stops. -/
theorem flowAfter_all (hlimit : b.limit = .all) (found : Nat) :
    b.flowAfter found = .goOn := by
  simp [flowAfter, hlimit, Limit.isReached]

/-- A search for one solution stops at the first. -/
theorem flowAfter_first (hlimit : b.limit = .first) (found : Nat) :
    b.flowAfter found = .stop := by
  simp [flowAfter, hlimit, Limit.isReached]

/-- At a complete node the solution is recorded. -/
theorem search_of_takes (h : s.arena.Takes b.propagator.network τ) :
    b.search (d + 1) g s = .ok (b.flowAfter s.solutions.size, g,
      ⟨s.node.toWorkspace, s.solutions.push (.tabulate s.arena.size τ)⟩) := by
  have hsatisfies := (Solution.satisfies_tabulate h.within).mpr h.holds
  refine search_of_isComplete h.isComplete ?_
  have hsolution : Solution.ofArena? s.node.arena =
      some (.tabulate s.arena.size τ) :=
    Solution.ofArena?_eq h.read
  have hsize : (s.solutions.push (.tabulate s.arena.size τ)).size =
      s.solutions.size + 1 :=
    Array.size_push _
  have hnode : s.node.solutions = s.solutions := rfl
  simp only [Search.record, hsolution, hsatisfies, if_true, flowAfter,
    hnode, hsize]

/-- A variable that no arc leaves has nothing to propagate. -/
theorem propagateFrom_of_within {p : Propagator} {i : Nat}
    (hnet : p.network.Within i) (s : Search) :
    s.propagateFrom p i = .ok (true, s) := by
  rw [Search.propagateFrom, Network.arcsFrom_eq_nil hnet]
  exact Search.adjust_eq (p.propagate_nil s.toWorkspace)

/-- Assigning the last variable asks for no revision. -/
theorem accept_push (hnet : b.propagator.network.Within m.size) :
    b.accept m.size v ⟨⟨m.push x, trail, tally⟩, sols⟩ =
      .ok (true, ⟨⟨m.push (x.assign v), trail, tally⟩, sols⟩) := by
  rw [accept, Search.assign_eq (Arena.read_push_self m x), Search.write,
    Arena.write_push_self]
  exact propagateFrom_of_within hnet ⟨⟨m.push (x.assign v), trail, tally⟩, sols⟩

/-- Nor does pruning it. -/
theorem refute_push (hnet : b.propagator.network.Within m.size)
    (hprune : x.prune v = .ok (true, y)) :
    b.refute m.size v ⟨⟨m.push x, trail, tally⟩, sols⟩ =
      .ok (!y.isWipedOut,
        ⟨⟨m.push y, trail.recordPrune m.size, tally⟩, sols⟩) := by
  have hexclude : Search.exclude ⟨⟨m.push x, trail, tally⟩, sols⟩ m.size v =
      .ok (true, ⟨⟨m.push y, trail.recordPrune m.size, tally⟩, sols⟩) := by
    refine Search.adjust_eq (w := ⟨m.push y, trail.recordPrune m.size, tally⟩)
      ?_
    rw [Workspace.exclude_eq_map,
      Arena.adjust_eq (Arena.read_push_self m x) hprune, Arena.write_push_self]
    rfl
  simp only [refute, hexclude, Arena.read_push_self, bind, Except.bind,
    Bool.true_and]
  cases y.isWipedOut with
  | true => rfl
  | false => exact propagateFrom_of_within hnet _

/-- **The left branch** finds the solution with the value. -/
theorem left_push (hm : m.Takes b.propagator.network τ) (hid : x.id = m.size) :
    b.left (b.search (d + 1)) m.size v g trail.checkpoint
      ⟨⟨m.push x, trail, tally⟩, sols⟩ =
      .ok (b.flowAfter sols.size, g,
        ⟨⟨m.push (x.assign v).unassign, trail, tally.node⟩,
        sols.push ((Solution.tabulate m.size τ).extend m.size v)⟩) := by
  let r : Search := ⟨⟨m.push (x.assign v), trail, tally.node⟩,
    sols.push ((Solution.tabulate m.size τ).extend m.size v)⟩
  have hsearch :
      b.search (d + 1) g ⟨⟨m.push (x.assign v), trail, tally⟩, sols⟩ =
      .ok (b.flowAfter sols.size, g, r) := by
    rw [search_of_takes (hm.push hid v), Arena.size_push,
      Solution.tabulate_extend]
    rfl
  have hrewind : r.rewind trail.checkpoint = .ok r := r.rewind_self
  have hunassign : r.unassign m.size =
      .ok (r.write m.size (x.assign v).unassign) :=
    Search.unassign_eq (Arena.read_push_self m (x.assign v))
  rw [left_eq, accept_push hm.within]
  simp only [bind, Except.bind, descend, if_true, hsearch, hrewind, hunassign,
    Search.write, r, Arena.write_push_self]
  rfl

/-- **The right branch** takes the prune of the value back. -/
theorem right_push {below : σ → Search → Except Fault (Flow × σ × Search)}
    {u : Int} {tally' : Tally} {sols' : Array Solution} {x' : Variable}
    {flow : Flow} (hnet : b.propagator.network.Within m.size)
    (hprune : x.prune v = .ok (true, y))
    (hbelow : descend below g (!y.isWipedOut)
      ⟨⟨m.push y, trail.recordPrune m.size, tally⟩, sols⟩ =
        .ok (flow, g, ⟨⟨m.push z, trail.recordPrune m.size, tally'⟩, sols'⟩))
    (hundo : z.undoPrune = .ok (u, x')) :
    b.right below m.size v g trail.checkpoint ⟨⟨m.push x, trail, tally⟩, sols⟩ =
      .ok (flow, g, ⟨⟨m.push x', trail, tally'⟩, sols'⟩) := by
  have hrewind :
      Search.rewind ⟨⟨m.push z, trail.recordPrune m.size, tally'⟩, sols'⟩
      trail.checkpoint = .ok ⟨⟨m.push x', trail, tally'⟩, sols'⟩ := by
    refine Search.modify_eq (w := ⟨m.push x', trail, tally'⟩) ?_
    rw [Workspace.rewind, Trail.rewind_recordPrune,
      Arena.adjust_eq (Arena.read_push_self m z) hundo, Arena.write_push_self]
    rfl
  rw [right, refute_push hnet hprune]
  simp only [bind, Except.bind, hbelow, hrewind]
  rfl

section

variable (hputsOff : b.selector.PutsOff b.propagator.network)
  (hm : m.Takes b.propagator.network τ)

include hputsOff hm

/-- The search branches on the last variable and its first value. -/
theorem picks_push (hx : x.Spare) (hid : x.id = m.size)
    (hv : (b.valueOrder.line x.domain).head? = some v) :
    b.Picks ⟨d, g, ⟨⟨m.push x, trail, tally⟩, sols⟩⟩ m.size v g where
  incomplete := by
    rw [Arena.isComplete_push, Variable.isAssigned, hx.value]
    exact Bool.and_false _
  selected := hputsOff.last g hm.isComplete hx.value hid
  offered := ⟨x, Arena.read_push_self m x, (hx.select _).trans hv⟩

/-- **To find one solution takes one value.** -/
theorem search_spare_first (trail : Trail) (tally : Tally)
    (sols : Array Solution) (hlimit : b.limit = .first) (hx : x.Spare)
    (hid : x.id = m.size) (hv : (b.valueOrder.line x.domain).head? = some v) :
    b.search (d + 2) g ⟨⟨m.push x, trail, tally⟩, sols⟩ =
      .ok (.stop, g, ⟨⟨m.push x, trail, tally.strolled 2 0⟩,
        sols.push ((Solution.tabulate m.size τ).extend m.size v)⟩) := by
  let r : Search := ⟨⟨m.push (x.assign v).unassign, trail, tally.node.node⟩,
    sols.push ((Solution.tabulate m.size τ).extend m.size v)⟩
  have hflow := flowAfter_first hlimit sols.size
  have hleft : b.left (b.search (d + 1)) m.size v g trail.checkpoint
      ⟨⟨m.push x, trail, tally.node⟩, sols⟩ = .ok (.stop, g, r) :=
        hflow ▸ left_push hm hid
  have hretire : r.retire m.size = .ok (r.write m.size x) :=
    Search.retire_eq (Arena.read_push_self m _)
      (Variable.retire_of_value_eq_none hx.value v)
  rw [search_of_picks (picks_push hputsOff hm hx hid hv)]
  change b.branch _ _ _ _ trail.checkpoint
    ⟨⟨m.push x, trail, tally.node⟩, sols⟩ = _
  simp only [branch, bind, Except.bind, pure, Except.pure, hleft, hretire,
    Search.write, r, Arena.write_push_self, if_true]
  rfl

/-- One value found, pruned and taken back, around what is searched without
it. -/
theorem search_spare_of_descend {tally' : Tally} {sols' : Array Solution}
    (hlimit : b.limit = .all) (hx : x.Spare) (hid : x.id = m.size)
    (hv : (b.valueOrder.line x.domain).head? = some v)
    (hprune : (x.assign v).unassign.prune v = .ok (true, y))
    (hpruned : (x.assign v).unassign.Pruned [v] y) (hz : y.Alike z)
    (hbelow : descend (b.search (d + 1)) g (!y.isWipedOut)
      ⟨⟨m.push y, trail.recordPrune m.size, tally.node.node⟩,
        sols.push ((Solution.tabulate m.size τ).extend m.size v)⟩ = .ok (.goOn,
        g, ⟨⟨m.push z, trail.recordPrune m.size, tally'⟩, sols'⟩)) :
    ∃ x', x.Alike x' ∧ b.search (d + 2) g ⟨⟨m.push x, trail, tally⟩, sols⟩ =
      .ok (.goOn, g, ⟨⟨m.push x', trail, tally'⟩, sols'⟩) := by
  obtain ⟨u, x', x'', hundo, hretire, halike⟩ := hx.exists_undo hpruned hz
  let r : Search := ⟨⟨m.push (x.assign v).unassign, trail, tally.node.node⟩,
    sols.push ((Solution.tabulate m.size τ).extend m.size v)⟩
  let t : Search := ⟨⟨m.push x', trail, tally'⟩, sols'⟩
  have hflow := flowAfter_all hlimit sols.size
  have hleft : b.left (b.search (d + 1)) m.size v g trail.checkpoint
      ⟨⟨m.push x, trail, tally.node⟩, sols⟩ = .ok (.goOn, g, r) :=
        hflow ▸ left_push hm hid
  have hright : b.right (b.search (d + 1)) m.size v g r.trail.checkpoint r =
      .ok (.goOn, g, t) :=
    right_push hm.within hprune hbelow hundo
  have hretired : t.retire m.size = .ok (t.write m.size x'') :=
    Search.retire_eq (Arena.read_push_self m x') hretire
  refine ⟨x'', halike, ?_⟩
  rw [search_of_picks (picks_push hputsOff hm hx hid hv)]
  change b.branch _ _ _ _ trail.checkpoint
    ⟨⟨m.push x, trail, tally.node⟩, sols⟩ = _
  simp only [branch, bind, Except.bind, pure, Except.pure, hleft, hright,
    hretired, Search.write, t, Arena.write_push_self, if_true]

/-- **To find all solutions takes all values, one after the other.** -/
theorem search_spare_all (trail : Trail) (tally : Tally) (sols : Array Solution)
    (hlimit : b.limit = .all) (hx : x.Spare) (hid : x.id = m.size)
    (hl : b.valueOrder.line x.domain = v :: l) (hd : l.length + 2 ≤ d) :
    ∃ x', x.Alike x' ∧ b.search d g ⟨⟨m.push x, trail, tally⟩, sols⟩ =
      .ok (.goOn, g, ⟨⟨m.push x', trail, tally.strolled (2 * (l.length + 1)) 1⟩,
        sols ++ ((v :: l).map
          ((Solution.tabulate m.size τ).extend m.size)).toArray⟩) := by
  -- Pruning the first value leaves a spare variable with the others, and one
  -- prune on the trail.
  induction l generalizing v x d trail tally sols with
  | nil =>
      obtain ⟨d, rfl⟩ : ∃ k, d = k + 2 := ⟨d - 2, by omega⟩
      obtain ⟨y, hprune, hpruned, hy, hyl, hwiped⟩ := hx.exists_prune hl
      refine search_spare_of_descend hputsOff hm hlimit hx hid (by rw [hl]; rfl)
        hprune hpruned (.refl y) ?_
      rw [hwiped, List.map_singleton, Array.append_singleton]
      rfl
  | cons u l ih =>
      obtain ⟨d, rfl⟩ : ∃ k, d = k + 2 := ⟨d - 2, by omega⟩
      obtain ⟨y, hprune, hpruned, hy, hyl, hwiped⟩ := hx.exists_prune hl
      have hyid : y.id = m.size := hpruned.later.id.trans hid
      have hd' : l.length + 2 ≤ d + 1 := by
        rw [List.length_cons] at hd
        omega
      obtain ⟨z, hz, hsearch⟩ := ih (trail.recordPrune m.size) tally.node.node
        (sols.push ((Solution.tabulate m.size τ).extend m.size v)) hy
        hyid hyl hd'
      refine search_spare_of_descend hputsOff hm hlimit hx hid (by rw [hl]; rfl)
        hprune hpruned hz ?_
      have htally : tally.node.node.strolled (2 * (l.length + 1)) 1 =
          tally.strolled (2 * (l.length + 1 + 1)) 1 := by
        rw [show tally.node.node = tally.strolled 2 0 from rfl,
          Tally.strolled_strolled]
        congr 1
        omega
      rw [hwiped, List.length_cons, ← htally,
        List.map_cons, ← List.push_append_toArray]
      exact hsearch

end

end Branching

end ConstraintNet
