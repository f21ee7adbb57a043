import ConstraintNet.Proofs.Strategies
import ConstraintNet.Proofs.Twins

/-!
# Running again

A variable order is steady if it picks the same among alike variables, whatever
its state.  Under a steady order two searches of alike variables go the same
way, as long as no call of either overlooks a value: what is overlooked depends
on the shape of a domain's search tree, which a search may leave another than it
found.

A strategy leaves variables alike to those that it was given.  So its next run
begins with the twin of the first search, and answers the same.
-/

namespace ConstraintNet

/-! ## Steady orders -/

/-- A variable order that picks the same among alike variables, whatever its
state. -/
def Selector.IsSteady {σ : Type} (select : Selector σ) : Prop :=
  ∀ (m k : Arena) net g g', m.Alike k → (select k net g').1 = (select m net g).1

namespace Arena.Alike

variable {m k : Arena}

/-- What is read off each variable alone is the same. -/
theorem map_toList {β : Type} {f : Variable → β} (h : m.Alike k)
    (hf : ∀ x y, x.Alike y → f y = f x) : k.toList.map f = m.toList.map f := by
  apply List.ext_getElem?
  intro i
  rw [List.getElem?_map, List.getElem?_map]
  by_cases hi : i < m.size
  · obtain ⟨x, hx⟩ := exists_read hi
    obtain ⟨y, hy, hxy⟩ := h.read i x hx
    rw [getElem?_toList.mpr hx, getElem?_toList.mpr hy, Option.map_some,
      Option.map_some, hf x y hxy]
  · have hm : m.toList.length ≤ i := Nat.not_lt.mp hi
    have hk : k.toList.length ≤ i := Nat.le_trans (Nat.le_of_eq h.size) hm
    rw [List.getElem?_eq_none hm, List.getElem?_eq_none hk]

/-- What is told of variables that look alike is told of both arenas alike. -/
theorem filterMap_toList {β : Type} {f : Variable → Option β} (h : m.Alike k)
    (hf : ∀ x y, x.Alike y → f y = f x) :
    k.toList.filterMap f = m.toList.filterMap f := by
  have hmap := congrArg (List.filterMap id) (h.map_toList hf)
  simpa only [List.filterMap_map, Function.id_comp] using hmap

/-- So it is of the variables without a value, which are the same ones. -/
theorem map_unassigned {β : Type} {f : Variable → β} (h : m.Alike k)
    (hf : ∀ x y, x.Alike y → f y = f x) :
    k.unassigned.map f = m.unassigned.map f := by
  have hfilter : ∀ a : Arena, a.unassigned.map f =
      a.toList.filterMap fun x =>
        if x.isAssigned then none else some (f x) := by
    intro a
    rw [unassigned, ← List.filterMap_eq_map, List.filterMap_filter]
    refine congrArg (a.toList.filterMap ·) (funext fun x => ?_)
    cases x.isAssigned <;> rfl
  rw [hfilter, hfilter]
  apply h.filterMap_toList
  intro x y hxy
  rw [Variable.isAssigned, Variable.isAssigned, hxy.value, hf x y hxy]

end Arena.Alike

/-- **All orders but the random one are steady.** -/
theorem VariableOrder.isSteady {o : VariableOrder} (ho : o ≠ .random) :
    o.select.IsSteady := by
  intro m k net g g' h
  cases o with
  | ascending =>
      simp only [select, Arena.firstUnassigned?_eq, ← List.head?_map]
      rw [h.map_unassigned fun x y hxy => hxy.id]
  | smallestDomainFirst =>
      simp only [select, least?]
      rw [h.map_unassigned fun x y hxy => by rw [hxy.id, hxy.effectiveSize]]
  | mostConstrainedFirst =>
      simp only [select, greatest?]
      rw [h.map_unassigned fun x y hxy => by rw [hxy.id]]
  | random => exact absurd rfl ho

/-- What a value order should select does not depend on the shape of the
domain. -/
theorem ValueOrder.rightful_of_alike {o : ValueOrder} {x y : Variable}
    (h : x.Alike y) : o.rightful y = o.rightful x := by
  have hlist : y.domain.toList = x.domain.toList := by
    have : y.domain.values = x.domain.values := ValueSet.ext_mem fun v => by
      rw [Domain.mem_values, Domain.mem_values, h.domain]
    exact congrArg ValueSet.toList this
  have hline : o.line y.domain = o.line x.domain := by
    cases o with
    | ascending => exact hlist
    | descending => exact congrArg List.reverse hlist
  simp only [rightful, hline, h.marked, Variable.wasTried, h.tried]

/-! ## Searches -/

/-- Searches with twin workspaces that have found the same. -/
structure Search.Twin (s t : Search) : Prop where
  workspace : s.toWorkspace.Twin t.toWorkspace
  solutions : t.solutions = s.solutions

namespace Search.Twin

variable {s t : Search}

/-- A search keeps its twin through whatever its workspace keeps one through. -/
theorem modify {f : Workspace → Except Fault Workspace} (h : s.Twin t)
    (hf : Both Workspace.Twin (f s.toWorkspace) (f t.toWorkspace)) :
    Both Search.Twin (s.modify f) (t.modify f) :=
  hf.map fun _ _ hwu => ⟨hwu, h.solutions⟩

/-- The same where the operation answers something. -/
theorem adjust {α : Type} {f : Workspace → Except Fault (α × Workspace)}
    (h : s.Twin t)
    (hf : Both (Same Workspace.Twin) (f s.toWorkspace) (f t.toWorkspace)) :
    Both (Same Search.Twin) (s.adjust f) (t.adjust f) :=
  hf.map fun _ _ hpq => ⟨hpq.1, hpq.2, h.solutions⟩

theorem assign (h : s.Twin t) (i : Nat) (v : Int) :
    Both Search.Twin (s.assign i v) (t.assign i v) :=
  h.modify (h.workspace.modify i fun _ _ hxy => .ok (hxy.assign v))

theorem unassign (h : s.Twin t) (i : Nat) :
    Both Search.Twin (s.unassign i) (t.unassign i) :=
  h.modify (h.workspace.modify i fun _ _ hxy => .ok hxy.unassign)

/-- The same choice is retired in both. -/
theorem retire (h : s.Twin t) (i : Nat) :
    Both Search.Twin (s.retire i) (t.retire i) :=
  h.modify (h.workspace.modify i fun _ _ hxy => hxy.retire)

/-- Both are rewound to the same checkpoint. -/
theorem rewind (h : s.Twin t) (c : Checkpoint) :
    Both Search.Twin (s.rewind c) (t.rewind c) :=
  h.modify (h.workspace.rewind c)

/-- The same value is pruned in both, whatever the shapes of the domains. -/
theorem exclude (h : s.Twin t) (i : Nat) (v : Int) :
    Both (Same Search.Twin) (s.exclude i v) (t.exclude i v) :=
  h.adjust (h.workspace.exclude i v)

/-- Propagation goes alike in both. -/
theorem propagate (h : s.Twin t) (p : Propagator) (seed : List Arc) :
    Both (Same Search.Twin) (s.propagate p seed) (t.propagate p seed) :=
  h.adjust (Propagator.propagate_twin h.workspace seed)

theorem node (h : s.Twin t) : s.node.Twin t.node :=
  ⟨{ h.workspace with tally := congrArg Tally.node h.workspace.tally },
    h.solutions⟩

theorem backtrack (h : s.Twin t) : s.backtrack.Twin t.backtrack :=
  ⟨{ h.workspace with tally := congrArg Tally.backtrack h.workspace.tally },
    h.solutions⟩

/-- Both record the same solution, or fail for the same reason. -/
theorem record (h : s.Twin t) (net : Network) (limit : Limit) :
    Both (Same Search.Twin) (s.record net limit) (t.record net limit) := by
  have hsolution : Solution.ofArena? t.arena = Solution.ofArena? s.arena := by
    rw [Solution.ofArena?, Solution.ofArena?, h.workspace.arena.isComplete,
      h.workspace.arena.filterMap_toList
        fun x y hxy => by rw [hxy.id, hxy.value]]
  simp only [Search.record, hsolution, h.solutions]
  split
  · exact .error _
  · split
    · exact .ok ⟨rfl, h.workspace, rfl⟩
    · exact .error _

end Search.Twin

namespace Branching

variable {σ : Type} {b : Branching σ} {s t : Search} {i : Nat} {v : Int}
  {g h : σ} {below : σ → Search → Except Fault (Flow × σ × Search)}

/-- Twin ends of two searches, whatever the states of the variable order. -/
def TwinEnds (p q : Flow × σ × Search) : Prop := p.1 = q.1 ∧ p.2.2.Twin q.2.2

/-- Accepting a value goes alike. -/
theorem accept_twin (hst : s.Twin t) (i : Nat) (v : Int) :
    Both (Same Search.Twin) (b.accept i v s) (b.accept i v t) :=
  (hst.assign i v).bind fun _ _ _ _ hst => hst.propagate b.propagator _

/-- Refuting a value goes alike, with propagation in both or in neither. -/
theorem refute_twin (hst : s.Twin t) (i : Nat) (v : Int) :
    Both (Same Search.Twin) (b.refute i v s) (b.refute i v t) := by
  refine (hst.exclude i v).bind fun p q _ _ hpq => ?_
  obtain ⟨pruned, s'⟩ := p
  obtain ⟨_, t'⟩ := q
  obtain ⟨rfl, hst'⟩ := hpq
  refine (hst'.workspace.arena.reads i).bind fun x y _ _ hxy => ?_
  simp only [hxy.isWipedOut]
  split
  · exact hst'.propagate b.propagator _
  · exact .ok ⟨rfl, hst'⟩

/-- Below a decision both go on or both backtrack. -/
theorem descend_twin (hst : s.Twin t) (ok : Bool)
    (hbelow : ok = true → Both TwinEnds (below g s) (below h t)) :
    Both TwinEnds (descend below g ok s) (descend below h ok t) := by
  cases ok with
  | true => exact hbelow rfl
  | false => exact .ok ⟨rfl, hst.backtrack⟩

/-- So the left branches go alike if the searches below them do. -/
theorem left_twin (hst : s.Twin t) (entry : Checkpoint)
    (hbelow : ∀ s' t', b.accept i v s = .ok (true, s') →
      b.accept i v t = .ok (true, t') → s'.Twin t' →
      Both TwinEnds (below g s') (below h t')) :
    Both TwinEnds (b.left below i v g entry s)
      (b.left below i v h entry t) := by
  rw [left_eq, left_eq]
  refine (accept_twin hst i v).bind fun p q hp hq hpq => ?_
  obtain ⟨ok, s'⟩ := p
  obtain ⟨_, t'⟩ := q
  obtain ⟨rfl, hst'⟩ := hpq
  have hdescend :
      Both TwinEnds (descend below g ok s') (descend below h ok t') :=
    descend_twin hst' ok fun hok => hbelow s' t' (hok ▸ hp) (hok ▸ hq) hst'
  apply hdescend.bind
  intro e e' _ _ he
  refine (he.2.rewind entry).bind fun r r' _ _ hr => ?_
  refine (hr.unassign i).bind fun u u' _ _ hu => ?_
  exact .ok ⟨he.1, hu⟩

/-- So do the right branches. -/
theorem right_twin (hst : s.Twin t) (entry : Checkpoint)
    (hbelow : ∀ s' t', b.refute i v s = .ok (true, s') →
      b.refute i v t = .ok (true, t') → s'.Twin t' →
      Both TwinEnds (below g s') (below h t')) :
    Both TwinEnds (b.right below i v g entry s)
      (b.right below i v h entry t) := by
  refine (refute_twin hst i v).bind fun p q hp hq hpq => ?_
  obtain ⟨ok, s'⟩ := p
  obtain ⟨_, t'⟩ := q
  obtain ⟨rfl, hst'⟩ := hpq
  have hdescend :
      Both TwinEnds (descend below g ok s') (descend below h ok t') :=
    descend_twin hst' ok fun hok => hbelow s' t' (hok ▸ hp) (hok ▸ hq) hst'
  apply hdescend.bind
  intro e e' _ _ he
  refine (he.2.rewind entry).bind fun r r' _ _ hr => ?_
  exact .ok ⟨he.1, hr⟩

/-- And so do both branches of a node.  What is below need go alike only where
the node really gets. -/
theorem branch_twin (hst : s.Twin t) (entry : Checkpoint)
    (haccepted : ∀ s' t', b.accept i v s = .ok (true, s') →
      b.accept i v t = .ok (true, t') → s'.Twin t' →
      Both TwinEnds (below g s') (below h t'))
    (hrefuted : ∀ g' r s' h' r' t',
      b.left below i v g entry s = .ok (.goOn, g', r) →
      b.refute i v r = .ok (true, s') →
      b.left below i v h entry t = .ok (.goOn, h', r') →
      b.refute i v r' = .ok (true, t') → s'.Twin t' →
      Both TwinEnds (below g' s') (below h' t')) :
    Both TwinEnds (b.branch below i v g entry s)
      (b.branch below i v h entry t) := by
  refine (left_twin hst entry haccepted).bind fun p q hp hq hpq => ?_
  obtain ⟨flow, g', r⟩ := p
  obtain ⟨_, h', r'⟩ := q
  obtain ⟨rfl, hr⟩ := hpq
  -- Both ways end by retiring the choice and checking the trail.
  have hclose : ∀ e e' : Flow × σ × Search, TwinEnds e e' →
    Both TwinEnds
      (do
        let u ← e.2.2.retire i
        if u.trail.checkpoint = entry then return (e.1, e.2.1, u)
        else throw (.unbalanced i entry u.trail.checkpoint))
      (do
        let u ← e'.2.2.retire i
        if u.trail.checkpoint = entry then return (e'.1, e'.2.1, u)
        else throw (.unbalanced i entry u.trail.checkpoint)) := by
    intro e e' he
    refine (he.2.retire i).bind fun u u' _ _ hu => ?_
    rw [hu.workspace.trail]
    split
    · exact .ok ⟨he.1, hu⟩
    · exact .error _
  cases flow with
  | stop => exact hclose (.stop, g', r) (.stop, h', r') ⟨rfl, hr⟩
  | goOn =>
      have hright : Both TwinEnds (b.right below i v g' r.trail.checkpoint r)
          (b.right below i v h' r'.trail.checkpoint r') := by
        rw [hr.workspace.trail]
        exact right_twin hr _ fun s' t' hs' ht' =>
          hrefuted g' r s' h' r' t' hp hs' hq ht'
      exact hright.bind fun e e' _ _ he => hclose e e' he

/-- **Twin searches end in twins**, under a steady variable order, if no call of
either overlooks a value. -/
theorem search_twin (hsteady : b.selector.IsSteady) :
    ∀ (d : Nat) (g h : σ) (s t : Search),
    s.Twin t → (∀ c, b.Reaches ⟨d, g, s⟩ c → ¬ b.Overlooks c) →
    (∀ c, b.Reaches ⟨d, h, t⟩ c → ¬ b.Overlooks c) →
    Both TwinEnds (b.search d g s) (b.search d h t) := by
  intro d
  induction d with
  | zero => exact fun _ _ _ _ _ _ _ => .error _
  | succ d ih =>
      intro g h s t hst hs ht
      have hnode : s.node.Twin t.node := hst.node
      have hcomplete : t.node.arena.isComplete = s.node.arena.isComplete :=
        hnode.workspace.arena.isComplete
      have hselect := hsteady _ _ b.propagator.network g h hnode.workspace.arena
      rw [search, search]
      simp only [hcomplete]
      split
      · refine (hnode.record _ _).bind fun p q _ _ hpq => ?_
        exact .ok hpq
      · rename_i hincomplete
        have hincomplete : s.node.arena.isComplete =
          false := by simpa using hincomplete
        cases hg : b.selector s.node.arena b.propagator.network g with
        | mk index g' =>
            cases hh : b.selector t.node.arena b.propagator.network h with
            | mk index' h' =>
                rw [hg, hh] at hselect
                simp only at hselect
                subst hselect
                cases index' with
                | none => exact .ok ⟨rfl, hnode⟩
                | some i =>
                    refine (hnode.workspace.arena.reads i).bind
                      fun x y hx hy hxy => ?_
                    have hvalue : b.valueOrder.select y =
                        b.valueOrder.select x := by
                      rw [select_of_not_overlooks (hs _ .refl)
                        hincomplete hg hx,
                        select_of_not_overlooks (ht _ .refl)
                          (hcomplete.trans hincomplete) hh hy,
                        ValueOrder.rightful_of_alike hxy]
                    rw [hvalue]
                    cases hv : b.valueOrder.select x with
                    | none => exact .ok ⟨rfl, hnode.backtrack⟩
                    | some v =>
                        have hpicks : b.Picks ⟨d + 1, g, s⟩ i v g' :=
                          ⟨hincomplete, hg, x, hx, hv⟩
                        have hpicks' : b.Picks ⟨d + 1, h, t⟩ i v h' :=
                          ⟨hcomplete.trans hincomplete, hh, y, hy,
                            hvalue.trans hv⟩
                        have htrail : t.node.trail.checkpoint =
                            s.node.trail.checkpoint :=
                          congrArg Trail.checkpoint hnode.workspace.trail
                        simp only [htrail]
                        refine branch_twin hnode _ ?_ ?_
                        · intro s' t' hs' ht' hst'
                          exact ih g' h' s' t' hst'
                            (fun c hc => hs c (.head (.left hpicks hs') hc))
                            (fun c hc => ht c (.head (.left hpicks' ht') hc))
                        · intro g'' r s' h'' r' t' hr hs' hr' ht' hst'
                          exact ih g'' h'' s' t' hst'
                            (fun c hc => hs c (.head (.right hpicks hr hs') hc))
                            (fun c hc =>
                              ht c
                                (.head (.right hpicks' (htrail ▸ hr') ht') hc))

end Branching

/-! ## Strategies -/

namespace Algorithm

variable {σ : Type} {b : Branching σ} {m k : Arena} {g h : σ} {s t : Search}

/-- From the root, too, searches go alike unless one of them overlooks a value.
This is where the shapes of the domains would matter. -/
theorem fromRoot_twin (hsteady : b.selector.IsSteady) (hst : s.Twin t)
    (hs : ∀ c, b.Reaches ⟨s.arena.depth, g, s⟩ c → ¬ b.Overlooks c)
    (ht : ∀ c, b.Reaches ⟨t.arena.depth, h, t⟩ c → ¬ b.Overlooks c) :
    Both (fun p q => p.2.Twin q.2) (fromRoot b g s) (fromRoot b h t) := by
  have hdepth : t.arena.depth = s.arena.depth := hst.workspace.arena.depth
  rw [hdepth] at ht
  rw [fromRoot, fromRoot, hdepth]
  exact (Branching.search_twin hsteady _ g h s t hst hs ht).map fun _ _ hpq =>
    hpq.2

/-- Before they begin, searches at variables that look alike are twins. -/
theorem begin_twin (hmk : m.Alike k) : (Search.begin m).Twin (Search.begin k) :=
  ⟨⟨hmk, rfl, rfl⟩, rfl⟩

/-- **Exploring alike variables** ends in twins. -/
theorem explore_twin (algorithm : Algorithm) (hsteady : b.selector.IsSteady)
    (hmk : m.Alike k) (hm : ∀ c, algorithm.Makes b m g c → ¬ b.Overlooks c)
    (hk : ∀ c, algorithm.Makes b k h c → ¬ b.Overlooks c) :
    Both (fun p q => p.2.Twin q.2) (algorithm.explore b m g)
      (algorithm.explore b k h) := by
  cases algorithm with
  | forwardChecking =>
      exact fromRoot_twin hsteady (begin_twin hmk)
        (fun c hc => hm c ⟨_, .forwardChecking, hc⟩) fun c hc =>
          hk c ⟨_, .forwardChecking, hc⟩
  | maintainArcConsistency =>
      refine ((begin_twin hmk).propagate b.propagator _).bind
        fun p q hp hq hpq => ?_
      obtain ⟨ok, s⟩ := p
      obtain ⟨_, t⟩ := q
      obtain ⟨rfl, hst⟩ := hpq
      have hroot : Both (fun p q => p.2.Twin q.2)
          (if ok then fromRoot b g s else pure (g, s))
          (if ok then fromRoot b h t else pure (h, t)) := by
        cases ok with
        | true =>
            exact fromRoot_twin hsteady hst
              (fun c hc => hm c ⟨_, .maintainArcConsistency hp, hc⟩)
              fun c hc => hk c ⟨_, .maintainArcConsistency hq, hc⟩
        | false => exact .ok hst
      cases ok with
      | true =>
          apply hroot.bind
          intro e e' _ _ he
          exact (he.rewind _).bind fun r r' _ _ hr => .ok hr
      | false => exact (hst.rewind _).bind fun r r' _ _ hr => .ok hr

/-- **A search leaves no trace.**  Every call leaves variables and trail as it
found them, and so does the strategy.  Under a steady variable order the next
run on the variables that it leaves answers the same, with the same counts, if
no call of the two runs overlooks a value; and none does under the ascending
value order, or if no variable starts with 2047 values or more. -/
theorem solve_leaves_no_trace (algorithm : Algorithm) {selector : Selector σ}
    (valueOrder : ValueOrder) (limit : Limit) {net : Network} (g : σ)
    (hsafe : selector.IsSafe) (hm : m.IsFresh) (hnumbered : m.IsNumbered)
    (hnet : net.Within m.size) :
    let b := algorithm.branching selector valueOrder limit net
    (∀ c, algorithm.Makes b m g c → ∃ flow g' t,
      b.search c.depth c.state c.search = .ok (flow, g', t) ∧
        c.search.arena.Alike t.arena ∧ t.trail = c.search.trail) ∧
    ∃ g' s, algorithm.explore b m g = .ok (g', s) ∧ m.Alike s.arena ∧
      s.trail = ∅ ∧
      algorithm.solve selector valueOrder limit net m g =
        .ok ⟨⟨s.solutions.toList, s.tally⟩, s.arena, g'⟩ ∧
      (selector.IsSteady →
        (∀ c, algorithm.Makes b m g c ∨ algorithm.Makes b s.arena g' c →
          ¬ b.Overlooks c) →
        ∃ a g'', m.Alike a ∧ algorithm.solve selector valueOrder limit net
          s.arena g' = .ok ⟨⟨s.solutions.toList, s.tally⟩, a, g''⟩) ∧
      ((valueOrder = .ascending ∨
          ∀ i x, m.read i = .ok x → x.initial.size < 2047) →
        ∀ c, algorithm.Makes b m g c ∨ algorithm.Makes b s.arena g' c →
          ¬ b.Overlooks c) := by
  intro b
  obtain ⟨g', s, hexplore, halike, htrail, _⟩ :=
    explore_of_isFresh (b := b) algorithm g hsafe hm hnumbered hnet
  have hfresh : s.arena.IsFresh := halike.isFresh hm
  have hnumbered' : s.arena.IsNumbered := halike.isNumbered hnumbered
  have hnet' : net.Within s.arena.size := halike.size.symm ▸ hnet
  refine ⟨fun c hc => ?_, g', s, hexplore, halike, htrail,
    solve_of_explore hexplore htrail,
    fun hsteady hnone => ?_, fun hfew c hc => ?_⟩
  · have hready := hc.ready hsafe hm hnumbered hnet
    obtain ⟨flow, h, t, hrun, ha⟩ :=
      Branching.answers_of_sound hsafe c.depth c.state c.search hready.sound
        hready.deep
    exact ⟨flow, h, t, hrun, ha.alike, ha.trail⟩
  · obtain ⟨g'', t, hagain, halike', htrail', _⟩ :=
      explore_of_isFresh (b := b) algorithm g' hsafe hfresh hnumbered' hnet'
    obtain ⟨e, he, htwin⟩ := (explore_twin algorithm hsteady halike
      (fun c hc => hnone c (Or.inl hc)) fun c hc =>
        hnone c (Or.inr hc)).of_ok hexplore
    rw [hagain] at he
    cases he
    refine ⟨t.arena, g'', halike.trans halike', ?_⟩
    have hsame : t.tally = s.tally := htwin.workspace.tally
    rw [solve_of_explore hagain htrail', ← htwin.solutions, ← hsame]
  · rcases hc with hc | hc
    · exact (hc.ready hsafe hm hnumbered hnet).not_overlooks hfew
    · refine (hc.ready hsafe hfresh hnumbered' hnet').not_overlooks
        (hfew.imp_right ?_)
      intro hfew i y hy
      obtain ⟨x, hx, hxy⟩ := halike.keepsInitials i y hy
      exact hxy ▸ hfew i x hx

/-- Two variables with one constraint between them, searched for one solution
and searched again. -/
theorem solve_leaves_no_trace_of_two :
    let net := Instance.coupleNetwork
    let m := Instance.coupleArena
    let solve :=
      forwardChecking.solve VariableOrder.smallestDomainFirst.select .descending
        .first net
    ∃ r r', solve m (.ofSeed 7) = .ok r ∧ solve r.arena r.state = .ok r' ∧
      m.Alike r.arena ∧ m.Alike r'.arena ∧ r'.outcome = r.outcome := by
  intro net m solve
  have hposed : m.Posed net := Instance.posed_couple
  obtain ⟨_, g, s, _, halike, _, hsolve, hagain, hnone⟩ :=
    solve_leaves_no_trace forwardChecking
      .descending .first (.ofSeed 7)
        (VariableOrder.isLegal .smallestDomainFirst).isSafe
      hposed.fresh hposed.numbered hposed.within
  obtain ⟨a, g', halike', hagain⟩ := hagain (VariableOrder.isSteady (by decide))
    (hnone (.inr Instance.size_initial_couple))
  exact ⟨_, _, hsolve, hagain, halike, halike', rfl⟩

end Algorithm

end ConstraintNet
