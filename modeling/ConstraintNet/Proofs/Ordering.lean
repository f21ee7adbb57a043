import Mathlib.Data.List.Basic
import ConstraintNet.Proofs.Completeness
import ConstraintNet.Proofs.Narrowing
import ConstraintNet.Proofs.Runs

/-!
# The order in which solutions are found

A search whose variable order goes along a line finds its solutions in
lexicographic order along that line.  Where a call decides a variable, all
before it on the line have values, so that the solutions on both branches agree
there; on the left branch the variable has the value that comes first of all
that it shows, unless the call overlooks one.  Two solutions are found in the
wrong order only below a call that admits both and overlooks a value.

Which values propagation prunes or hides does not matter.  So all strategies
find the same solutions in the same order, as long as no value is overlooked.
-/

namespace ConstraintNet

/-! ## Reading along a line -/

/-- The values of a solution in the order of a line of variables. -/
def Solution.along (s : Solution) (line : List Nat) : List Int :=
  line.filterMap s.valueOf?

/-- Read along a line of variables, the solution of an assignment is its values
on the line. -/
theorem Solution.along_tabulate {n : Nat} {τ : Nat → Int} {line : List Nat}
    (h : ∀ i ∈ line, i < n) : (tabulate n τ).along line = line.map τ := by
  refine List.filterMap_eq_map_iff_forall_eq_some.mpr fun i hi => ?_
  rw [valueOf?_tabulate, if_pos (h i hi)]

namespace ValueOrder

variable {o : ValueOrder} {τ ρ : Nat → Int} {before after : List Nat} {i : Nat}

/-- The first variable on the line where they differ decides between two
assignments. -/
theorem before_map (h : ∀ j ∈ before, τ j = ρ j) (hi : o.Before (τ i) (ρ i)) :
    o.Before ((before ++ i :: after).map τ) ((before ++ i :: after).map ρ) := by
  have hsame : before.map τ = before.map ρ := List.map_congr_left h
  rw [List.map_append, List.map_append, hsame, List.map_cons, List.map_cons]
  cases o with
  | ascending =>
      exact List.append_left_lt (List.cons_lt_cons_iff.mpr (Or.inl hi))
  | descending =>
      exact List.append_left_lt (List.cons_lt_cons_iff.mpr (Or.inl hi))

/-- Two things do not come before each other. -/
theorem not_before_of_before {α : Type} [LT α] [Std.Asymm (α := α) (· < ·)]
    {a a' : α} (h : o.Before a a') : ¬ o.Before a' a := by
  cases o with
  | ascending => exact Std.Asymm.asymm (r := (· < · : α → α → Prop)) _ _ h
  | descending => exact Std.Asymm.asymm (r := (· < · : α → α → Prop)) _ _ h

end ValueOrder

/-- Whether one solution comes before another, read along a line of
variables. -/
def ValueOrder.BeforeAlong (o : ValueOrder) (line : List Nat)
    (s s' : Solution) : Prop :=
  o.Before (s.along line) (s'.along line)

/-- The arena admits an assignment that makes the solution for the first `n`
variables. -/
def Arena.Covers (m : Arena) (n : Nat) (s : Solution) : Prop :=
  ∃ τ, m.Admits τ ∧ s = .tabulate n τ

namespace Branching

variable {σ : Type} {b : Branching σ} {m k k' : Arena} {c c' : Call σ}
  {d : Decision} {g : σ} {s s' : Solution} {t : Search} {ok ok' : Bool}
  {flow : Flow} {line : List Nat} {l l' : List Solution} {n i : Nat} {v : Int}
  {τ ρ : Nat → Int}

/-! ## Where two solutions part -/

/-- Some call below, or the call itself, overlooks a value while it admits both
solutions. -/
def Confuses (b : Branching σ) (c : Call σ) (n : Nat) (s s' : Solution) :
    Prop :=
  ∃ c', b.Reaches c c' ∧ b.Overlooks c' ∧ c'.search.arena.Covers n s ∧
    c'.search.arena.Covers n s'

/-- What confuses two solutions below a call does so above it. -/
theorem Confuses.enters (h : b.Confuses c' n s s') (henters : b.Enters c c') :
    b.Confuses c n s s' := by
  obtain ⟨c'', hreaches, hparts⟩ := h
  exact ⟨c'', Relation.ReflTransGen.head henters hreaches, hparts⟩

/-- The value that a call takes comes before all others that show, unless it
overlooks one. -/
theorem Picks.before_of_mem (h : b.Picks c i v g) (hsafe : b.selector.IsSafe)
    (hc : b.Ready m c) (hnot : ¬ b.Overlooks c) {u : Int}
    (hu : u ∈ c.search.arena.effective i) (hne : u ≠ v) :
    b.valueOrder.Before v u := by
  have hs := hc.sound.orderly
  obtain ⟨x, hx, hselect⟩ := h.offered
  obtain ⟨x', hx', hvalue⟩ :=
    hsafe _ _ _ i g hs.numbered h.incomplete h.selected
  obtain rfl := Arena.read_unique hx hx'
  rw [select_of_not_overlooks hnot h.incomplete h.selected hx] at hselect
  rw [Arena.effective_of_read hx] at hu
  have hlive := (Variable.mem_effective_of_value_eq_none hvalue).mp hu
  exact ValueOrder.before_of_head?_rightful hselect
    (ValueOrder.mem_rightful.mpr ⟨hlive, hs.untried hx hvalue hlive⟩) hne

/-- What is admitted on the left branch comes before what is on the right one,
unless the call overlooks a value. -/
theorem Picks.before (h : b.Picks c i v g) (hsafe : b.selector.IsSafe)
    (hc : b.Ready m c) (hsize : c.search.arena.size = m.size)
    (hnot : ¬ b.Overlooks c)
    (halong : b.selector.GoesAlong b.propagator.network m.size line)
    (hline : ∀ j ∈ line, j < m.size) (hτ : c.search.arena.Admits τ)
    (hτi : τ i = v) (hρ : c.search.arena.Admits ρ) (hρi : ρ i ≠ v) :
    b.valueOrder.Before (line.map τ) (line.map ρ) := by
  have hs := hc.sound.orderly
  obtain ⟨before, after, rfl, hassigned⟩ :=
    halong _ _ _ _ hsize hs.numbered h.selected
  refine ValueOrder.before_map (fun j hj => ?_) ?_
  · -- Both are admitted, so both have the value that the variable has.
    have hj' : j < c.search.arena.size :=
      hsize ▸ hline j (List.mem_append_left _ hj)
    obtain ⟨y, hy⟩ := Arena.exists_read hj'
    obtain ⟨w, hw⟩ := Option.ne_none_iff_exists'.mp (hassigned j hj y hy)
    have hvalue : ∀ τ : Nat → Int, c.search.arena.Admits τ → τ j = w := by
      intro τ hτ
      have hshown := hτ j hj'
      rw [Arena.effective_of_read hy] at hshown
      exact (Variable.mem_effective.mp hshown).2 w hw
    rw [hvalue τ hτ, hvalue ρ hρ]
  · obtain ⟨x, hx, _⟩ := h.offered
    rw [hτi]
    exact h.before_of_mem hsafe hc hnot (hρ i (Arena.lt_of_read hx)) hρi

/-- **Two solutions from the two branches of a call** come in order along the
line, unless the call overlooks a value. -/
theorem Picks.orders (h : b.Picks c i v g) (hsafe : b.selector.IsSafe)
    (hc : b.Ready m c) (hsize : c.search.arena.size = m.size)
    (halong : b.selector.GoesAlong b.propagator.network m.size line)
    (hline : ∀ j ∈ line, j < m.size)
    (hleft : Narrowed b.propagator c.search.arena (.accept i v) ok k)
    (hright : Narrowed b.propagator c.search.arena (.refute i v) ok' k')
    (hs : k.Covers m.size s) (hs' : k'.Covers m.size s') :
    b.valueOrder.BeforeAlong line s s' ∨ b.Confuses c m.size s s' := by
  obtain ⟨τ, hτ, rfl⟩ := hs
  obtain ⟨ρ, hρ, rfl⟩ := hs'
  obtain ⟨hτ, hallows⟩ := hleft.admits hτ
  obtain ⟨hρ, hallows'⟩ := hright.admits hρ
  by_cases hover : b.Overlooks c
  · exact Or.inr ⟨c, .refl, hover, ⟨τ, hτ, rfl⟩, ⟨ρ, hρ, rfl⟩⟩
  · obtain ⟨x, hx, _⟩ := h.offered
    have hi : i < c.search.arena.size := Arena.lt_of_read hx
    rw [ValueOrder.BeforeAlong, Solution.along_tabulate hline,
      Solution.along_tabulate hline]
    exact Or.inl
      (h.before hsafe hc hsize hover halong hline hτ (hallows i hi rfl) hρ
      (hallows' i hi rfl))

/-! ## Along a whole search -/

/-- What a search finds below a decision: solutions that the call admits, any
two of them in order along the line, unless some call that admits both overlooks
a value. -/
structure Ordered (b : Branching σ) (ok : Bool) (c : Call σ) (line : List Nat)
    (n : Nat) (l : List Solution) : Prop where
  pairwise : l.Pairwise fun s s' =>
    b.valueOrder.BeforeAlong line s s' ∨ (ok = true ∧ b.Confuses c n s s')
  admitted : ∀ s ∈ l, c.search.arena.Covers n s

theorem Ordered.nil : b.Ordered ok c line n [] :=
  ⟨List.Pairwise.nil, fun _ hs => nomatch hs⟩

/-- What is found on a branch is so from the call above. -/
theorem Ordered.explores (h : b.Ordered ok c' line n l)
    (hexplores : b.Explores c d ok c')
    (hnarrowed : Narrowed b.propagator c.search.arena d ok c'.search.arena) :
    b.Ordered true c line n l where
  pairwise := by
    refine h.pairwise.imp fun hs => hs.imp_right fun hconfused => ?_
    obtain ⟨rfl, hconfused⟩ := hconfused
    exact ⟨rfl, hconfused.enters (enters_iff.mpr ⟨d, hexplores⟩)⟩
  admitted s hs := by
    obtain ⟨τ, hτ, rfl⟩ := h.admitted s hs
    exact ⟨τ, (hnarrowed.admits hτ).1, rfl⟩

/-- The solutions of the left branch, then those of the right one. -/
theorem Ordered.append (h : b.Ordered true c line n l)
    (h' : b.Ordered true c line n l')
    (hparts : ∀ s ∈ l, ∀ s' ∈ l',
      b.valueOrder.BeforeAlong line s s' ∨ b.Confuses c n s s') :
    b.Ordered true c line n (l ++ l') where
  pairwise :=
    List.pairwise_append.mpr ⟨h.pairwise, h'.pairwise, fun s hs s' hs' =>
      (hparts s hs s' hs').imp_right fun hconfused => ⟨rfl, hconfused⟩⟩
  admitted _ hs := (List.mem_append.mp hs).elim (h.admitted _) (h'.admitted _)

/-- **What a search finds comes in order**, unless a call overlooks a value. -/
theorem Descends.ordered (h : b.Descends ok c flow g t)
    (hsafe : b.selector.IsSafe)
    (halong : b.selector.GoesAlong b.propagator.network m.size line)
    (hline : ∀ j ∈ line, j < m.size)
    (hc : ok = true → b.Ready m c ∧ c.search.arena.size = m.size) :
    ∃ l, t.solutions.toList = c.search.solutions.toList ++ l ∧
      b.Ordered ok c line m.size l := by
  induction h with
  | failed => exact ⟨[], (List.append_nil _).symm, .nil⟩
  | unnamed => exact ⟨[], (List.append_nil _).symm, .nil⟩
  | exhausted => exact ⟨[], (List.append_nil _).symm, .nil⟩
  | @recorded d g s t flow hcomplete hrecord =>
      obtain ⟨hready, hsize⟩ := hc rfl
      have hs : s.node.Sound b.propagator.network := hready.sound.node
      obtain ⟨flow', t', τ, hrecord', _, hsolutions, _, hadmits, _⟩ :=
        record_of_isComplete hs hcomplete b.limit
      rw [hrecord] at hrecord'
      cases hrecord'
      refine ⟨[.tabulate s.node.arena.size τ], hsolutions,
        List.pairwise_singleton _ _, ?_⟩
      intro s' hs'
      exact ⟨τ, hadmits, hsize ▸ List.mem_singleton.mp hs'⟩
  | @stopped d g g₀ g₁ s s₁ t₁ r t i v ok hpicks haccept hbelow hleft hend ih =>
      obtain ⟨hready, hsize⟩ := hc rfl
      have hexplores := Explores.left hpicks haccept
      have hnarrowed := hexplores.narrowed hsafe hready
      obtain ⟨l, hl, hordered⟩ := ih fun hok =>
        ⟨hexplores.ready hsafe hready hok, hnarrowed.size.trans hsize⟩
      refine ⟨l, ?_, hordered.explores hexplores hnarrowed⟩
      rw [Search.solutions_of_account hend, hl,
        (draws_accept haccept).solutions]
      rfl
  | @both d g g₀ g₁ g₂ s s₁ t₁ r s₂ t₂ t i v ok₁ ok₂ flow hpicks haccept hbelow₁
      hleft hbetween hrefute hbelow₂ hend ih₁ ih₂ =>
      obtain ⟨hready, hsize⟩ := hc rfl
      have hexplores₁ := Explores.left hpicks haccept
      have hexplores₂ := Explores.right hpicks hleft hrefute
      have hnarrowed₁ := hexplores₁.narrowed hsafe hready
      have hnarrowed₂ := hexplores₂.narrowed hsafe hready
      obtain ⟨l₁, hl₁, hordered₁⟩ := ih₁ fun hok =>
        ⟨hexplores₁.ready hsafe hready hok, hnarrowed₁.size.trans hsize⟩
      obtain ⟨l₂, hl₂, hordered₂⟩ := ih₂ fun hok =>
        ⟨hexplores₂.ready hsafe hready hok, hnarrowed₂.size.trans hsize⟩
      refine ⟨l₁ ++ l₂, ?_, (hordered₁.explores hexplores₁ hnarrowed₁).append
        (hordered₂.explores hexplores₂ hnarrowed₂) fun s₃ hs₃ s₄ hs₄ => ?_⟩
      · rw [Search.solutions_of_account hend, hl₂,
          (draws_refute hrefute).solutions,
          Search.solutions_of_account hbetween, hl₁,
          (draws_accept haccept).solutions, List.append_assoc]
        rfl
      · exact hpicks.orders hsafe hready hsize halong hline hnarrowed₁
          hnarrowed₂ (hordered₁.admitted s₃ hs₃) (hordered₂.admitted s₄ hs₄)

end Branching

/-! ## From the root -/

/-- Two lists of the same solutions, both in order along the line, are equal. -/
theorem Enumerates.eq_of_pairwise {n : Nat} {V : (Nat → Int) → Prop}
    {P P' : Prop} {l l' : List Solution} {o : ValueOrder} {line : List Nat}
    (h : Enumerates n V P l) (h' : Enumerates n V P' l') (hP : P) (hP' : P')
    (hl : l.Pairwise (o.BeforeAlong line))
    (hl' : l'.Pairwise (o.BeforeAlong line)) : l = l' := by
  have hmem : ∀ s, s ∈ l ↔ s ∈ l' := by
    intro s
    rw [h.mem_iff hP, h'.mem_iff hP']
  refine List.Perm.eq_of_pairwise (fun s s' _ _ hs hs' => ?_) hl hl'
    ((List.perm_ext_iff_of_nodup h.nodup h'.nodup).mpr hmem)
  exact absurd hs' (ValueOrder.not_before_of_before hs)

namespace Algorithm

variable {σ : Type} {algorithm : Algorithm} {b : Branching σ} {m : Arena}
  {g g' : σ} {s : Search} {line : List Nat}

/-- Some call that a strategy makes overlooks a value while it admits both
solutions. -/
def Confuses (algorithm : Algorithm) (b : Branching σ) (m : Arena) (g : σ)
    (s s' : Solution) : Prop :=
  ∃ c, algorithm.Makes b m g c ∧ b.Overlooks c ∧
    c.search.arena.Covers m.size s ∧
    c.search.arena.Covers m.size s'

/-- What a strategy finds comes in order, unless a call overlooks a value. -/
theorem Explored.pairwise (h : Explored b m g algorithm g' s)
    (hsafe : b.selector.IsSafe) (hm : m.IsFresh) (hnumbered : m.IsNumbered)
    (hnet : b.propagator.network.Within m.size)
    (halong : b.selector.GoesAlong b.propagator.network m.size line)
    (hline : ∀ j ∈ line, j < m.size) :
    s.solutions.toList.Pairwise fun s s' =>
      b.valueOrder.BeforeAlong line s s' ∨ algorithm.Confuses b m g s s' := by
  cases h with
  | searched hbegins hdraws hsearch hend =>
      obtain ⟨l, hl, hordered⟩ :=
        (Branching.descends_of_search hsearch).ordered hsafe halong hline
          fun _ => ⟨hbegins.ready hm hnumbered hnet,
            hbegins.size hm hnumbered hnet⟩
      rw [Search.solutions_of_account hend, hl, hdraws.solutions]
      refine hordered.pairwise.imp fun hs => hs.imp_right fun hconfused => ?_
      obtain ⟨_, c, hreaches, hparts⟩ := hconfused
      exact ⟨c, (makes_of_begins hbegins).mpr hreaches, hparts⟩
  | failed hroot hend =>
      rw [Search.solutions_of_account hend,
        (Search.draws_propagate hroot).solutions]
      exact List.Pairwise.nil

/-- What a strategy lists under a variable order that goes along a line. -/
theorem exists_solve_of_goesAlong (algorithm : Algorithm)
    {selector : Selector σ} (valueOrder : ValueOrder) {net : Network} (g : σ)
    (hlegal : selector.IsLegal) (hm : m.IsFresh) (hnumbered : m.IsNumbered)
    (hnet : net.Within m.size) (halong : selector.GoesAlong net m.size line)
    (hline : ∀ j ∈ line, j < m.size) :
    let b := algorithm.branching selector valueOrder .all net
    ∃ r, algorithm.solve selector valueOrder .all net m g = .ok r ∧
      (r.outcome.solutions.Pairwise fun s s' =>
        valueOrder.BeforeAlong line s s' ∨ algorithm.Confuses b m g s s') ∧
      ((∀ c, algorithm.Makes b m g c → ¬ b.Overlooks c) →
        r.outcome.solutions.Pairwise (valueOrder.BeforeAlong line) ∧
          Enumerates m.size (m.SolvedBy net) True r.outcome.solutions) := by
  intro b
  obtain ⟨g', s, hexplore, _, htrail, all, hall, henumerates⟩ :=
    explore_of_isFresh (b := b) algorithm g hlegal.isSafe hm hnumbered hnet
  have hpairwise :=
    (explored_of_explore hexplore).pairwise hlegal.isSafe hm hnumbered
      hnet halong hline
  refine ⟨_, solve_of_explore hexplore htrail, hpairwise,
    fun hattentive => ⟨?_, ?_⟩⟩
  · refine hpairwise.imp fun hs => hs.resolve_right fun hconfused => ?_
    obtain ⟨c, hmakes, hover, _⟩ := hconfused
    exact hattentive c hmakes hover
  · have hkept : ∀ τ, ¬ algorithm.Loses b m g τ := by
      intro τ hlost
      obtain ⟨c, hmakes, hover, _⟩ := hlost.overlooks hlegal hm hnumbered hnet
      exact hattentive c hmakes hover
    have hsolutions := henumerates.congr fun τ => and_iff_left (hkept τ)
    exact ⟨hsolutions.nodup, hsolutions.sound,
      fun _ => hsolutions.complete (hall rfl)⟩

/-- **The order of the solutions.**  Under a static variable order a strategy
without limit lists its solutions in order along the line of that order, any two
of them, unless some call that admits both overlooks a value.  If none does, all
strategies list all solutions in the same order; and none does under the
ascending value order, or if no variable starts with 2047 values or more. -/
theorem solve_lists_in_order {o : VariableOrder} (ho : o.IsStatic)
    (valueOrder : ValueOrder) {net : Network} (hm : m.IsFresh)
    (hnumbered : m.IsNumbered) (hnet : net.Within m.size) :
    let line := o.line net m.size
    let b := fun algorithm : Algorithm =>
      algorithm.branching o.select valueOrder .all net
    (∀ (algorithm : Algorithm) g, ∃ r,
      algorithm.solve o.select valueOrder .all net m g = .ok r ∧
        r.outcome.solutions.Pairwise fun s s' =>
          valueOrder.BeforeAlong line s s' ∨
          algorithm.Confuses (b algorithm) m g s s') ∧
    ((∀ (algorithm : Algorithm) g c, algorithm.Makes (b algorithm) m g c →
        ¬ (b algorithm).Overlooks c) →
      ∃ l : List Solution, l.Pairwise (valueOrder.BeforeAlong line) ∧
        (∀ s, s ∈ l ↔ ∃ τ, m.SolvedBy net τ ∧ s = .tabulate m.size τ) ∧
        ∀ (algorithm : Algorithm) g, ∃ r,
          algorithm.solve o.select valueOrder .all net m g = .ok r ∧
          r.outcome.solutions = l) ∧
    ((valueOrder = .ascending ∨
        ∀ i x, m.read i = .ok x → x.initial.size < 2047) →
      ∀ (algorithm : Algorithm) g c, algorithm.Makes (b algorithm) m g c →
        ¬ (b algorithm).Overlooks c) := by
  intro line b
  have hsolve := fun (algorithm : Algorithm) (g : Random.Generator) =>
    exists_solve_of_goesAlong algorithm valueOrder g o.isLegal hm hnumbered hnet
      (VariableOrder.goesAlong ho net m.size) fun _ => VariableOrder.mem_line.mp
  refine ⟨fun algorithm g => ?_, fun hattentive => ?_,
    fun hfew algorithm g c hmakes => ?_⟩
  · obtain ⟨r, hr, hpairwise, _⟩ := hsolve algorithm g
    exact ⟨r, hr, hpairwise⟩
  · obtain ⟨r, _, _, hlists⟩ := hsolve .forwardChecking (.ofSeed 0)
    obtain ⟨hpairwise, henumerates⟩ := hlists (hattentive _ _)
    refine ⟨r.outcome.solutions, hpairwise,
      fun s => henumerates.mem_iff trivial, fun algorithm g => ?_⟩
    obtain ⟨r', hr', _, hlists'⟩ := hsolve algorithm g
    obtain ⟨hpairwise', henumerates'⟩ := hlists' (hattentive _ _)
    exact ⟨r', hr',
      henumerates'.eq_of_pairwise henumerates trivial trivial hpairwise'
        hpairwise⟩
  · exact (hmakes.ready o.isLegal.isSafe hm hnumbered hnet).not_overlooks hfew

/-- Two variables with one constraint between them, under the descending
order. -/
theorem solve_lists_in_order_of_two :
    let net := Instance.coupleNetwork
    let m := Instance.coupleArena
    let o : VariableOrder := .mostConstrainedFirst
    ∃ l : List Solution,
        l.Pairwise (ValueOrder.descending.BeforeAlong (o.line net 2)) ∧
      (∀ s, s ∈ l ↔ ∃ τ, m.SolvedBy net τ ∧ s = .tabulate 2 τ) ∧
      ∀ (algorithm : Algorithm) g, ∃ r,
        algorithm.solve o.select .descending .all net m g = .ok r ∧
        r.outcome.solutions = l := by
  intro net m o
  have hposed : m.Posed net := Instance.posed_couple
  obtain ⟨_, hall, hattentive⟩ :=
    solve_lists_in_order (Or.inr rfl : o.IsStatic) .descending
      hposed.fresh hposed.numbered hposed.within
  exact hall (hattentive (.inr Instance.size_initial_couple))

end Algorithm

end ConstraintNet
