import ConstraintNet.Proofs.Narrowing
import ConstraintNet.Proofs.Runs

/-!
# Accounting for a search

In a binary tree there is one leaf more than there are inner nodes.  The leaves
of a search are its solutions and its backtracks, and its inner nodes are the
other nodes, so that nodes and one more are twice the solutions and the
backtracks together.

Two things add to this.  A search that its limit stopped leaves the right
branches on its path unexplored, one for each variable that it had assigned.  A
call that gives up is counted both as a node and as a backtrack.  It should not
happen, since no call is made that leaves a variable nothing to show; it happens
where the value order overlooks a value.
-/

namespace ConstraintNet

/-! ## Variables without a value -/

namespace Arena

variable {m k : Arena} {i : Nat} {x : Variable}

/-- The values of the variables. -/
def values (m : Arena) : List (Option Int) := m.toList.map Variable.value

/-- The number of variables without a value. -/
def vacant (m : Arena) : Nat := m.values.count none

/-- The entry of `values` at a position is the value of the variable there, so
that what holds of the list can be said of the variables. -/
theorem getElem?_values {o : Option Int} :
    m.values[i]? = some o ↔ ∃ x, m.read i = .ok x ∧ x.value = o := by
  rw [values, List.getElem?_map, Option.map_eq_some_iff]
  simp only [getElem?_toList]

/-- There is one entry for each variable. -/
theorem length_values (m : Arena) : m.values.length = m.size := by
  rw [values, List.length_map]
  rfl

/-- Values are the same if each is. -/
theorem values_eq (hsize : k.size = m.size)
    (h : ∀ i y, k.read i = .ok y → ∃ x, m.read i = .ok x ∧ y.value = x.value) :
    k.values = m.values := by
  refine List.ext_getElem? fun i => ?_
  by_cases hi : i < k.size
  · obtain ⟨y, hy⟩ := exists_read hi
    obtain ⟨x, hx, hxy⟩ := h i y hy
    rw [getElem?_values.mpr ⟨y, hy, rfl⟩, getElem?_values.mpr ⟨x, hx, rfl⟩, hxy]
  · rw [List.getElem?_eq_none (by rw [length_values]; omega),
      List.getElem?_eq_none (by rw [length_values]; omega)]

/-- Alike arenas give the same values; taking a search back to a checkpoint
therefore changes none of them. -/
theorem Alike.values (h : m.Alike k) : k.values = m.values :=
  values_eq h.size fun _ _ hy =>
    let ⟨x, hx, hxy⟩ := h.read_back hy
    ⟨x, hx, hxy.value⟩

/-- Whether all variables have values is seen from these. -/
theorem isComplete_of_values (h : k.values = m.values) :
    k.isComplete = m.isComplete := by
  have hiff : ∀ m : Arena, m.isComplete ↔ none ∉ m.values := by
    intro m
    rw [isComplete_iff, values, List.mem_map]
    constructor
    · rintro hall ⟨x, hx, hvalue⟩
      obtain ⟨i, hi⟩ := mem_toList.mp hx
      have := hall i x hi
      rw [Variable.isAssigned, hvalue] at this
      cases this
    · intro hnone i x hx
      cases hvalue : x.value with
      | some v => rw [Variable.isAssigned, hvalue]; rfl
      | none => exact absurd ⟨x, mem_toList.mpr ⟨i, hx⟩, hvalue⟩ hnone
  rw [Bool.eq_iff_iff, hiff, hiff, h]

/-- Writing a variable changes the one entry that stands for it. -/
theorem values_write (m : Arena) (i : Nat) (x : Variable) :
    (m.write i x).values = m.values.set i x.value := by
  rw [values, toList, write, Array.toList_setIfInBounds, List.map_set]
  rfl

/-- A variable gets a value. -/
theorem vacant_set (hx : m.read i = .ok x) (hvalue : x.value = none) (v : Int) :
    (m.values.set i (some v)).count none + 1 = m.vacant := by
  have hnone : m.values[i]? = some none := getElem?_values.mpr ⟨x, hx, hvalue⟩
  obtain ⟨hi, hget⟩ := List.getElem?_eq_some_iff.mp hnone
  have hpos : 0 < m.values.count none :=
    List.count_pos_iff.mpr (List.mem_of_getElem? hnone)
  rw [List.count_set hi, hget, vacant]
  simp
  omega

/-- A complete assignment leaves nothing vacant. -/
theorem vacant_of_isComplete (h : m.isComplete) : m.vacant = 0 := by
  refine List.count_eq_zero.mpr fun hmem => ?_
  obtain ⟨i, hi⟩ := List.getElem?_of_mem hmem
  obtain ⟨x, hx, hvalue⟩ := getElem?_values.mp hi
  have := isComplete_iff.mp h i x hx
  rw [Variable.isAssigned, hvalue] at this
  cases this

/-- In a fresh arena every variable is vacant, so that the root call begins with
as many as there are variables. -/
theorem IsFresh.vacant (h : m.IsFresh) : m.vacant = m.size := by
  rw [Arena.vacant, ← m.length_values]
  refine List.count_eq_length.mpr fun o ho => ?_
  obtain ⟨i, hi⟩ := List.getElem?_of_mem ho
  obtain ⟨x, hx, rfl⟩ := getElem?_values.mp hi
  exact (h i x hx).value.symm

end Arena

/-- Excluding values assigns nothing: what propagation leaves behind has the
values that it found. -/
theorem Workspace.Later.values {w u : Workspace} (h : w.Later u) :
    u.arena.values = w.arena.values :=
  Arena.values_eq h.size fun _ _ hy =>
    let ⟨x, _, _, hx, hxy⟩ := h.read_back hy
    ⟨x, hx, hxy.value⟩

/-- The values that variables have after a decision. -/
def Decision.enact : Decision → List (Option Int) → List (Option Int)
  | accept i v, l => l.set i (some v)
  | refute _ _, l => l

namespace Branching

variable {σ : Type} {b : Branching σ} {m : Arena} {c c' : Call σ} {d : Nat}
  {g g' g'' : σ} {s r t u : Search} {i : Nat} {v : Int} {ok : Bool}
  {flow : Flow}

/-- On the left branch the variable has the value. -/
theorem values_of_accept (hsafe : b.selector.IsSafe)
    (hc : b.Ready m ⟨d + 1, g, s⟩) (hpicks : b.Picks ⟨d + 1, g, s⟩ i v g')
    (haccept : b.accept i v s.node = .ok (ok, t)) :
    t.arena.values = s.arena.values.set i (some v) := by
  have hs : s.node.Sound b.propagator.network := hc.sound.node
  obtain ⟨x, ho⟩ := hpicks.offers hsafe hs.orderly
  obtain ⟨ok', t', haccept', _, hlater, _⟩ :=
    accept_of_offers (s := s.node) hs ho
  rw [haccept] at haccept'
  cases haccept'
  exact hlater.values.trans (Arena.values_write _ _ _)

/-- On the right branch the values are those that were there before. -/
theorem values_of_refute (hsafe : b.selector.IsSafe)
    (hc : b.Ready m ⟨d + 1, g, s⟩) (hpicks : b.Picks ⟨d + 1, g, s⟩ i v g')
    (hleft : b.left (b.search d) i v g' s.node.trail.checkpoint s.node =
      .ok (flow, g'', r))
    (hrefute : b.refute i v r = .ok (ok, t)) :
    t.arena.values = s.arena.values := by
  have hs : s.node.Sound b.propagator.network := hc.sound.node
  obtain ⟨x, ho⟩ := hpicks.offers hsafe hs.orderly
  have hopened := hc.opened hsafe ho hleft
  obtain ⟨ok', t', hrefute', _, hlater, _⟩ :=
    refute_of_offers (b := b) (s := s.node) hs ho hopened
  rw [hrefute] at hrefute'
  cases hrefute'
  have hvalues : t.arena.values = s.arena.values.set i none :=
    (hlater.values.trans hopened.values).trans (Arena.values_write _ _ _)
  have hnone : s.arena.values[i]? = some none :=
    Arena.getElem?_values.mpr ⟨x, ho.read, ho.value⟩
  obtain ⟨hi, hget⟩ := List.getElem?_eq_some_iff.mp hnone
  have hset : s.arena.values.set i none = s.arena.values := by
    have := List.set_getElem_self hi
    rwa [hget] at this
  rw [hvalues, hset]

/-- What a decision does to the values does not depend on the propagation that
follows it, nor, on the right, on what the left branch did in the meantime. -/
theorem Explores.values {d : Decision} (h : b.Explores c d ok c')
    (hsafe : b.selector.IsSafe) (hc : b.Ready m c) :
    c'.search.arena.values = d.enact c.search.arena.values := by
  cases h with
  | left hpicks haccept => exact values_of_accept hsafe hc hpicks haccept
  | right hpicks hleft hrefute =>
      exact values_of_refute hsafe hc hpicks hleft hrefute

/-- Nothing is found on the way to the left branch. -/
theorem Explores.solutions {i : Nat} {v : Int}
    (h : b.Explores c (.accept i v) ok c') :
    c'.search.solutions = c.search.solutions := by
  cases h with
  | left _ haccept => exact (draws_accept haccept).solutions

/-- On the left branch one variable more has a value. -/
theorem vacant_of_accept (hsafe : b.selector.IsSafe)
    (hc : b.Ready m ⟨d + 1, g, s⟩) (hpicks : b.Picks ⟨d + 1, g, s⟩ i v g')
    (haccept : b.accept i v s.node = .ok (ok, t)) :
    t.arena.vacant + 1 = s.arena.vacant := by
  obtain ⟨x, ho⟩ : ∃ x, s.arena.Offers i x v :=
    hpicks.offers hsafe hc.sound.orderly
  rw [Arena.vacant, values_of_accept hsafe hc hpicks haccept]
  exact Arena.vacant_set ho.read ho.value v

/-- On the right branch as many have one as before. -/
theorem vacant_of_refute (hsafe : b.selector.IsSafe)
    (hc : b.Ready m ⟨d + 1, g, s⟩) (hpicks : b.Picks ⟨d + 1, g, s⟩ i v g')
    (hleft : b.left (b.search d) i v g' s.node.trail.checkpoint s.node =
      .ok (flow, g'', r))
    (hrefute : b.refute i v r = .ok (ok, t)) :
    t.arena.vacant = s.arena.vacant :=
  congrArg (List.count none) (values_of_refute hsafe hc hpicks hleft hrefute)

end Branching

/-! ## The surplus -/

namespace Search

variable {s t : Search}

/-- The nodes beyond those that solutions and backtracks account for. -/
def surplus (s : Search) : Int :=
  s.tally.nodes - 2 * s.solutions.size - s.tally.backtracks

/-- The surplus is seen from what the account of a search names. -/
theorem surplus_of_account (h : t.account = s.account) :
    t.surplus = s.surplus := by
  rw [surplus, surplus, solutions_of_account h, tally_of_account h]

/-- Propagation and the moves around a branch visit no node and record nothing,
and leave the surplus alone. -/
theorem Draws.surplus (h : s.Draws t) : t.surplus = s.surplus := by
  rw [Search.surplus, Search.surplus, h.solutions, h.drawn.nodes,
    h.drawn.backtracks]

theorem surplus_node (s : Search) : s.node.surplus = s.surplus + 1 := by
  obtain ⟨w, solutions⟩ := s
  simp only [surplus, node, Workspace.node, Tally.node]
  omega

theorem surplus_backtrack (s : Search) :
    s.backtrack.surplus = s.surplus - 1 := by
  obtain ⟨w, solutions⟩ := s
  simp only [surplus, backtrack, Workspace.backtrack, Tally.backtrack]
  omega

/-- A solution lowers it by two, whether or not it makes the search stop. -/
theorem surplus_record {net : Network} {limit : Limit} {flow : Flow}
    (h : s.record net limit = .ok (flow, t)) : t.surplus = s.surplus - 2 := by
  obtain ⟨hworkspace, ⟨sol, hsolutions⟩, _⟩ := of_record_eq_ok h
  rw [surplus, surplus, hworkspace, hsolutions, Array.size_push]
  omega

end Search

namespace Branching

variable {σ : Type} {b : Branching σ} {m : Arena} {c : Call σ} {g : σ}
  {t : Search} {ok : Bool} {flow : Flow}

/-! ## The balance -/

/-- What a search that the limit stopped leaves unexplored. -/
def unexplored (flow : Flow) (c : Call σ) : Nat :=
  match flow with
  | .goOn => 0
  | .stop => c.search.arena.vacant

/-- No call below gives up, nor the call itself. -/
def Thorough (b : Branching σ) (c : Call σ) : Prop :=
  ∀ c', b.Reaches c c' → ¬ b.GivesUp c'

variable {d : Nat} {g' g₁ : σ} {s s₁ s₂ r : Search} {i : Nat} {v : Int}
  {ok₁ ok₂ : Bool}

/-- A call at which a branch is picked has not given up. -/
theorem Picks.not_givesUp (h : b.Picks c i v g) : ¬ b.GivesUp c :=
  fun hgives => hgives.2 _ _ _ h

/-- A call whose value order names no value gives up. -/
theorem givesUp_of_select_eq_none {x : Variable}
    (hincomplete : c.search.arena.isComplete = false)
    (hselect : b.selector c.search.arena b.propagator.network c.state =
      (some i, g))
    (hx : c.search.arena.read i = .ok x)
    (hvalue : b.valueOrder.select x = none) : b.GivesUp c := by
  refine ⟨hincomplete, fun j v g'' hpicks => ?_⟩
  have := hselect.symm.trans hpicks.selected
  cases this
  obtain ⟨y, hy, hv⟩ := hpicks.offered
  rw [Arena.read_unique hy hx, hvalue] at hv
  cases hv

/-- A call on a complete assignment makes no further calls, so that no call
below it gives up. -/
theorem thorough_of_isComplete (h : c.search.arena.isComplete) :
    b.Thorough c := by
  intro c' hreaches hgives
  obtain rfl := (reaches_of_not_picks (not_picks_of_isComplete h)).mp hreaches
  rw [hgives.1] at h
  cases h

/-- A call whose left branch met the limit is as thorough as that branch. -/
theorem thorough_of_stopped (hpicks : b.Picks ⟨d + 1, g, s⟩ i v g')
    (haccept : b.accept i v s.node = .ok (true, s₁))
    (hleft : b.left (b.search d) i v g' s.node.trail.checkpoint s.node =
      .ok (.stop, g₁, r)) :
    b.Thorough ⟨d + 1, g, s⟩ ↔ b.Thorough ⟨d, g', s₁⟩ := by
  constructor
  · intro hall c' hreaches
    exact hall c'
      ((reaches_of_stopped hpicks haccept hleft).mpr (Or.inr hreaches))
  · intro hbelow c' hreaches
    rcases (reaches_of_stopped hpicks haccept hleft).mp hreaches with
      rfl | hreaches
    · exact hpicks.not_givesUp
    · exact hbelow c' hreaches

/-- A call that searched both branches is thorough if those that stand are. -/
theorem thorough_of_both (hpicks : b.Picks ⟨d + 1, g, s⟩ i v g')
    (haccept : b.accept i v s.node = .ok (ok₁, s₁))
    (hleft : b.left (b.search d) i v g' s.node.trail.checkpoint s.node =
      .ok (.goOn, g₁, r))
    (hrefute : b.refute i v r = .ok (ok₂, s₂)) :
    b.Thorough ⟨d + 1, g, s⟩ ↔
      (ok₁ = true → b.Thorough ⟨d, g', s₁⟩) ∧
      (ok₂ = true → b.Thorough ⟨d, g₁, s₂⟩) := by
  have hiff : ∀ c', b.Reaches ⟨d + 1, g, s⟩ c' ↔ c' = ⟨d + 1, g, s⟩ ∨
      (ok₁ = true ∧ b.Reaches ⟨d, g', s₁⟩ c') ∨
      (ok₂ = true ∧ b.Reaches ⟨d, g₁, s₂⟩ c') :=
    fun c' => reaches_of_both hpicks haccept hleft hrefute
  constructor
  · intro hall
    exact ⟨fun hok c' hreaches =>
      hall c' ((hiff c').mpr (Or.inr (Or.inl ⟨hok, hreaches⟩))),
      fun hok c' hreaches =>
        hall c' ((hiff c').mpr (Or.inr (Or.inr ⟨hok, hreaches⟩)))⟩
  · intro hbelow c' hreaches
    rcases (hiff c').mp hreaches with rfl | ⟨hok, hreaches⟩ | ⟨hok, hreaches⟩
    · exact hpicks.not_givesUp
    · exact hbelow.1 hok c' hreaches
    · exact hbelow.2 hok c' hreaches

/-- **The books of a search balance**, but for the calls that give up. -/
theorem Descends.balance (h : b.Descends ok c flow g t)
    (hlegal : b.selector.IsLegal) (hc : ok = true → b.Ready m c) :
    ∃ k : Nat, t.surplus + 1 = c.search.surplus + unexplored flow c + k ∧
      (k = 0 ↔ (ok = true → b.Thorough c)) := by
  induction h with
  | @failed d g s =>
      refine ⟨0, ?_, by simp⟩
      have := Search.surplus_backtrack s
      simp only [unexplored]
      omega
  | @recorded d g s t flow hcomplete hrecord =>
      refine ⟨0, ?_, iff_of_true rfl fun _ => thorough_of_isComplete hcomplete⟩
      have hunexplored : unexplored flow ⟨d + 1, g, s⟩ = 0 := by
        cases flow with
        | goOn => rfl
        | stop => exact Arena.vacant_of_isComplete hcomplete
      have := Search.surplus_record hrecord
      have := Search.surplus_node s
      simp only [hunexplored]
      omega
  | unnamed hincomplete hselect =>
      exact absurd hselect
        (hlegal.ne_none (hc rfl).sound.orderly.numbered hincomplete)
  | @exhausted d g g' s i x hincomplete hselect hx hvalue =>
      have hgives : b.GivesUp ⟨d + 1, g, s⟩ :=
        givesUp_of_select_eq_none hincomplete hselect hx hvalue
      refine ⟨1, ?_, iff_of_false Nat.one_ne_zero fun hall =>
        hall rfl _ .refl hgives⟩
      have := Search.surplus_backtrack s.node
      have := Search.surplus_node s
      simp only [unexplored]
      omega
  | @stopped d g g' g₁ s s₁ t₁ r t i v ok hpicks haccept hbelow hleft hend ih =>
      obtain rfl : ok = true := by
        cases hbelow with
        | recorded => rfl
        | stopped => rfl
        | both => rfl
      have hready := hc rfl
      obtain ⟨k, hbalance, hnone⟩ :=
        ih <| (Explores.left hpicks haccept).ready hlegal.isSafe hready
      refine ⟨k, ?_, by rw [hnone, thorough_of_stopped hpicks haccept hleft]⟩
      have := vacant_of_accept hlegal.isSafe hready hpicks haccept
      have := Search.surplus_of_account hend
      have := (draws_accept haccept).surplus
      have := Search.surplus_node s
      simp only [unexplored] at hbalance ⊢
      omega
  | @both d g g' g₁ g₂ s s₁ t₁ r s₂ t₂ t i v ok₁ ok₂ flow hpicks haccept hbelow₁
      hleft hbetween hrefute hbelow₂ hend ih₁ ih₂ =>
      have hready := hc rfl
      obtain ⟨k₁, hbalance₁, hnone₁⟩ := ih₁ <|
        (Explores.left hpicks haccept).ready hlegal.isSafe hready
      obtain ⟨k₂, hbalance₂, hnone₂⟩ := ih₂ <|
        (Explores.right hpicks hleft hrefute).ready hlegal.isSafe hready
      refine ⟨k₁ + k₂, ?_, ?_⟩
      · have hunexplored : unexplored flow ⟨d, g₁, s₂⟩ =
            unexplored flow ⟨d + 1, g, s⟩ := by
          cases flow with
          | goOn => rfl
          | stop =>
              exact vacant_of_refute hlegal.isSafe hready hpicks hleft hrefute
        have := Search.surplus_of_account hend
        have := Search.surplus_of_account hbetween
        have := (draws_accept haccept).surplus
        have := (draws_refute hrefute).surplus
        have := Search.surplus_node s
        rw [hunexplored] at hbalance₂
        simp only [unexplored] at hbalance₁ hbalance₂ ⊢
        omega
      · rw [Nat.add_eq_zero_iff, hnone₁, hnone₂]
        simp only [true_imp_iff, thorough_of_both hpicks haccept hleft hrefute]

end Branching

/-! ## From the root -/

namespace Algorithm

variable {σ : Type} {algorithm : Algorithm} {b : Branching σ} {m : Arena}
  {g : σ} {c r : Call σ}

/-- Propagation of the whole network leaves nothing of some variable. -/
def FailsAtRoot (algorithm : Algorithm) (b : Branching σ) (m : Arena) : Prop :=
  algorithm = .maintainArcConsistency ∧
    ∃ t, (Search.begin m).propagateAll b.propagator = .ok (false, t)

/-- A call that begins the search is a proof that the root did not fail. -/
theorem Begins.not_failsAtRoot (h : Begins b m g algorithm r) :
    ¬ algorithm.FailsAtRoot b m := by
  rintro ⟨halgorithm, t, hfails⟩
  cases h with
  | forwardChecking => cases halgorithm
  | maintainArcConsistency hroot =>
      rw [hroot] at hfails
      cases hfails

/-- At the first call no variable has a value. -/
theorem Begins.vacant (h : Begins b m g algorithm r) (hm : m.IsFresh)
    (hnumbered : m.IsNumbered) (hnet : b.propagator.network.Within m.size) :
    r.search.arena.vacant = m.size := by
  cases h with
  | forwardChecking => exact hm.vacant
  | maintainArcConsistency hroot =>
      have hp := propagated_of_propagateAll hroot hm hnumbered hnet
      exact (congrArg (List.count none) hp.later.values).trans hm.vacant

/-- A call that gives up overlooks a value, if no initial domain is empty. -/
theorem Makes.overlooks_of_givesUp (h : algorithm.Makes b m g c)
    (hgives : b.GivesUp c) (hlegal : b.selector.IsLegal) (hm : m.IsFresh)
    (hnumbered : m.IsNumbered)
    (hne : ∀ i x, m.read i = .ok x → ∃ v, v ∈ x.initial)
    (hnet : b.propagator.network.Within m.size) : b.Overlooks c := by
  have hwhole := h.whole hlegal.isSafe hm hnumbered hnet (hm.whole hne)
  have hready := h.ready hlegal.isSafe hm hnumbered hnet
  refine hgives.overlooks_of_live hlegal hready fun i x hx hvalue => ?_
  obtain ⟨v, hv⟩ := hwhole i (Arena.lt_of_read hx)
  rw [Arena.effective_of_read hx] at hv
  exact ⟨v, (Variable.mem_effective_of_value_eq_none hvalue).mp hv⟩

/-- What a search from the first call counts. -/
theorem Begins.balances (h : Begins b m g algorithm r) {flow : Flow} {g' : σ}
    {t : Search} (hdraws : (Search.begin m).Draws r.search)
    (hcourse : b.Descends true r flow g' t) (hlegal : b.selector.IsLegal)
    (hm : m.IsFresh) (hnumbered : m.IsNumbered)
    (hnet : b.propagator.network.Within m.size) :
    ∃ e, t.tally.nodes + 1 = 2 * t.solutions.size + t.tally.backtracks +
        (if b.limit.IsMet t.solutions.size then m.size else 0) + e ∧
      (e = 0 ↔ ∀ c, algorithm.Makes b m g c → ¬ b.GivesUp c) := by
  obtain ⟨e, hbalance, hnone⟩ :=
    hcourse.balance hlegal fun _ => h.ready hm hnumbered hnet
  refine ⟨e, ?_, ?_⟩
  · have hunexplored : Branching.unexplored flow r =
        if b.limit.IsMet t.solutions.size then m.size else 0 := by
      have hstops : flow = .stop ↔ b.limit.IsMet t.solutions.size := by
        refine (hcourse.meets ?_).stops_iff
        rw [hdraws.solutions]
        exact Limit.not_isMet_zero b.limit
      cases flow with
      | goOn =>
          rw [if_neg fun hmet => Flow.noConfusion (hstops.mpr hmet),
            Branching.unexplored]
      | stop =>
          rw [if_pos (hstops.mp rfl), Branching.unexplored,
            h.vacant hm hnumbered hnet]
    have hstart : r.search.surplus = 0 := hdraws.surplus
    rw [hstart, hunexplored] at hbalance
    simp only [Search.surplus] at hbalance
    omega
  · rw [hnone]
    simp only [true_imp_iff, Branching.Thorough, makes_of_begins h]

/-- **The search tree accounted for.**  Unless propagation fails at the root,
nodes and one more are twice the solutions, the backtracks and, if the limit
stopped the search, the number of variables, but for the calls that give up.  If
it does fail there is one wipeout, and nothing else is counted or found.  No
call gives up under the ascending value order, or if no variable starts with
2047 values or more. -/
theorem solve_balances (algorithm : Algorithm) {selector : Selector σ}
    (valueOrder : ValueOrder) (limit : Limit) {net : Network} (g : σ)
    (hlegal : selector.IsLegal) (hm : m.IsFresh) (hnumbered : m.IsNumbered)
    (hne : ∀ i x, m.read i = .ok x → ∃ v, v ∈ x.initial)
    (hnet : net.Within m.size) :
    let b := algorithm.branching selector valueOrder limit net
    ∃ r, algorithm.solve selector valueOrder limit net m g = .ok r ∧
      let found := r.outcome.solutions.length
      let nodes := r.outcome.tally.nodes
      let backtracks := r.outcome.tally.backtracks
      let k := if limit.IsMet found then m.size else 0
      (algorithm.FailsAtRoot b m →
        found = 0 ∧ nodes = 0 ∧ backtracks = 0 ∧ r.outcome.tally.wipeouts = 1) ∧
      (¬ algorithm.FailsAtRoot b m →
        2 * found + backtracks + k ≤ nodes + 1 ∧
        (nodes + 1 = 2 * found + backtracks + k ↔
          ∀ c, algorithm.Makes b m g c → ¬ b.GivesUp c)) ∧
      (∀ c, algorithm.Makes b m g c → b.GivesUp c → b.Overlooks c) ∧
      ((valueOrder = .ascending ∨
          ∀ i x, m.read i = .ok x → x.initial.size < 2047) →
        ¬ algorithm.FailsAtRoot b m →
          nodes + 1 = 2 * found + backtracks + k) := by
  intro b
  have hoverlooks : ∀ c, algorithm.Makes b m g c → b.GivesUp c →
      b.Overlooks c :=
    fun c hmakes hgives =>
      hmakes.overlooks_of_givesUp hgives hlegal hm hnumbered hne hnet
  obtain ⟨g', s, hexplore, _, htrail, _⟩ :=
    explore_of_isFresh (b := b) algorithm g hlegal.isSafe hm hnumbered hnet
  refine ⟨_, solve_of_explore hexplore htrail, ?_⟩
  cases explored_of_explore hexplore with
  | searched hbegins hdraws hsearch hend =>
      have hcourse := Branching.descends_of_search hsearch
      obtain ⟨e, hbooks, hnone⟩ :=
        hbegins.balances hdraws hcourse hlegal hm hnumbered hnet
      rw [show b.limit = limit from rfl] at hbooks
      simp only [Search.solutions_of_account hend, Search.tally_of_account hend,
        Array.length_toList]
      refine ⟨fun hfails => absurd hfails hbegins.not_failsAtRoot,
        fun _ => ⟨?_, ?_⟩, hoverlooks, fun hfew _ => ?_⟩
      · omega
      · rw [← hnone]
        omega
      · have he : e = 0 := hnone.mpr fun c hmakes hgives =>
          (hmakes.ready hlegal.isSafe hm hnumbered hnet).not_overlooks hfew
            (hoverlooks c hmakes hgives)
        omega
  | @failed _ t hroot hend =>
      have hfails : FailsAtRoot .maintainArcConsistency b m := ⟨rfl, t, hroot⟩
      have hdraws := Search.draws_propagate hroot
      have hrun : (Search.begin m).propagate b.propagator
        b.propagator.network.arcs =
          .ok (false, t) := hroot
      have hcounts :=
        Propagator.counts_propagate (Search.of_propagate_eq_ok hrun).1
      simp only [Search.solutions_of_account hend, Search.tally_of_account hend,
        Array.length_toList]
      refine ⟨fun _ =>
        ⟨?_, hdraws.drawn.nodes, hdraws.drawn.backtracks, hcounts.wipeouts⟩,
        fun hnot => absurd hfails hnot, hoverlooks,
        fun _ hnot => absurd hfails hnot⟩
      rw [hdraws.solutions]
      rfl

/-- Two variables with one constraint between them, searched for one solution
under the random and the descending order. -/
theorem solve_balances_of_two :
    let net := Instance.coupleNetwork
    let m := Instance.coupleArena
    let b :=
      forwardChecking.branching VariableOrder.random.select .descending
        (.atMost 1) net
    ∃ r, forwardChecking.solve VariableOrder.random.select .descending
      (.atMost 1) net m
        (.ofSeed 7) = .ok r ∧
      let found := r.outcome.solutions.length
      let k := if Limit.IsMet (.atMost 1) found then 2 else 0
      ¬ forwardChecking.FailsAtRoot b m ∧
        r.outcome.tally.nodes + 1 =
          2 * found + r.outcome.tally.backtracks + k := by
  intro net m b
  have hposed : m.Posed net := Instance.posed_couple
  have hroot : ¬ forwardChecking.FailsAtRoot b m := fun h => nomatch h.1
  obtain ⟨r, hr, _, _, _, hbooks⟩ :=
    solve_balances forwardChecking .descending (.atMost 1)
      (.ofSeed 7) (VariableOrder.isLegal .random) hposed.fresh hposed.numbered
      hposed.inhabited
      hposed.within
  exact ⟨r, hr, hroot, hbooks (.inr Instance.size_initial_couple) hroot⟩

end Algorithm

end ConstraintNet
