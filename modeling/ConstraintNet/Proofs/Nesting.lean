import Mathlib.Data.List.Chain
import ConstraintNet.Proofs.Narrowing
import ConstraintNet.Proofs.Runs

/-!
# How deep a search goes

A search calls itself below each decision that stands, and a decision takes one
value from those that no open choice has tried.  So there are never more calls
open, one inside the other, than the domains have values, and one more.

The bound that a search is given does not matter beyond this: a search that
succeeds goes on to do so, with the same answer, if it may go deeper.  It never
fails for want of depth, and would end without any bound.

* `Branching.search_extends` — more depth changes no answer;
* `Branching.length_le_of_active` — calls that are active at once have room for
  each other.
-/

namespace ConstraintNet

/-! ## More depth -/

/-- Where the one operation succeeds, the other does too, with the same
result. -/
def Extends {ε α : Type} (x y : Except ε α) : Prop := ∀ r, x = .ok r → y = .ok r

namespace Extends

variable {ε α β : Type} {x y : Except ε α} {f f' : α → Except ε β}

theorem refl (x : Except ε α) : Extends x x := fun _ h => h

/-- Two operations in a row. -/
theorem bind (h : Extends x y) (hf : ∀ a, Extends (f a) (f' a)) :
    Extends (x >>= f) (y >>= f') := by
  intro r hr
  obtain ⟨a, hx, hr⟩ := of_bind_eq_ok hr
  rw [h a hx]
  exact hf a r hr

end Extends

namespace Branching

variable {σ : Type} {b : Branching σ}
  {below below' : σ → Search → Except Fault (Flow × σ × Search)}

/-- More fuel below a descent gives the same, where the descent came to an
end. -/
theorem descend_extends (hbelow : ∀ g s, Extends (below g s) (below' g s))
    (g : σ) (ok : Bool) (s : Search) :
    Extends (descend below g ok s) (descend below' g ok s) := by
  cases ok with
  | true => exact hbelow g s
  | false => exact .refl _

/-- The same for the left branch. -/
theorem left_extends (hbelow : ∀ g s, Extends (below g s) (below' g s))
    (i : Nat) (v : Int) (g : σ) (entry : Checkpoint) (s : Search) :
    Extends (b.left below i v g entry s) (b.left below' i v g entry s) := by
  rw [left_eq, left_eq]
  exact (Extends.refl _).bind fun _ =>
    (descend_extends hbelow _ _ _).bind fun _ => .refl _

/-- The same for the right branch. -/
theorem right_extends (hbelow : ∀ g s, Extends (below g s) (below' g s))
    (i : Nat) (v : Int) (g : σ) (entry : Checkpoint) (s : Search) :
    Extends (b.right below i v g entry s) (b.right below' i v g entry s) :=
  (Extends.refl _).bind fun _ =>
    (descend_extends hbelow _ _ _).bind fun _ => .refl _

/-- The same for a branching, of its two branches. -/
theorem branch_extends (hbelow : ∀ g s, Extends (below g s) (below' g s))
    (i : Nat) (v : Int) (g : σ) (entry : Checkpoint) (s : Search) :
    Extends (b.branch below i v g entry s) (b.branch below' i v g entry s) := by
  refine (left_extends hbelow i v g entry s).bind fun p => ?_
  obtain ⟨flow, g', r⟩ := p
  cases flow with
  | stop => exact .refl _
  | goOn => exact (right_extends hbelow i v g' _ r).bind fun _ => .refl _

/-- **More depth changes no answer.** -/
theorem search_extends {d d' : Nat} (hle : d ≤ d') (g : σ) (s : Search) :
    Extends (b.search d g s) (b.search d' g s) := by
  -- Depth is looked at only where it runs out, and there the search has no
  -- answer.
  induction d generalizing d' g s with
  | zero =>
      intro r h
      cases h
  | succ d ih =>
      obtain ⟨d', rfl⟩ : ∃ k, d' = k + 1 := ⟨d' - 1, by omega⟩
      rintro ⟨flow, g', t⟩ h
      cases ends_of_search h with
      | recorded hcomplete hrecord =>
          exact search_of_isComplete hcomplete hrecord
      | unnamed hincomplete hselect => exact search_of_none hincomplete hselect
      | exhausted hincomplete hselect hx hvalue =>
          exact search_of_no_value hincomplete hselect hx hvalue
      | branched hpicks hbranch =>
          have hpicks' : b.Picks ⟨d' + 1, g, s⟩ _ _ _ :=
            ⟨hpicks.incomplete, hpicks.selected, hpicks.offered⟩
          rw [search_of_picks hpicks']
          exact branch_extends (fun g s => ih (by omega) g s)
            _ _ _ _ _ _ hbranch

/-! ## Active calls -/

/-- These calls are active at once: the first has made the second, and so on. -/
def Active (b : Branching σ) (l : List (Call σ)) : Prop := l.IsChain b.Enters

variable {m : Arena} {c c' : Call σ} {l : List (Call σ)}

/-- Fewer values are left to try where a ready call calls itself. -/
theorem Enters.depth_lt (h : b.Enters c c') (hsafe : b.selector.IsSafe)
    (hc : b.Ready m c) : c'.search.arena.depth < c.search.arena.depth := by
  obtain ⟨d, hexplores⟩ := enters_iff.mp h
  exact (hexplores.decided hsafe hc).depth

/-- A ready call is ready if it may go deeper. -/
theorem Ready.deeper (hc : b.Ready m c) {d : Nat} (hd : c.depth ≤ d) :
    b.Ready m ⟨d, c.state, c.search⟩ :=
  ⟨hc.sound, Nat.le_trans hc.deep hd, hc.initials⟩

/-- **Active calls are no more than the values that the first one had left to
try**, and one. -/
theorem length_le_of_active (hsafe : b.selector.IsSafe) (hc : b.Ready m c)
    (h : b.Active (c :: l)) : l.length + 1 ≤ c.search.arena.depth := by
  induction l generalizing c with
  | nil =>
      rw [Arena.depth_eq]
      exact Nat.le_add_right 1 _
  | cons c' l ih =>
      obtain ⟨henters, hrest⟩ := List.isChain_cons_cons.mp h
      have hbelow := ih (henters.ready hsafe hc) hrest
      have hless := henters.depth_lt hsafe hc
      rw [List.length_cons]
      omega

end Branching

/-! ## From the root -/

/-- Sums are compared term by term. -/
theorem Arena.total_le_total {count count' : Variable → Nat} {l : List Variable}
    (h : ∀ x ∈ l, count x ≤ count' x) : total count l ≤ total count' l := by
  induction l with
  | nil => exact Nat.le_refl _
  | cons x l ih =>
      exact Nat.add_le_add (h x List.mem_cons_self)
        (ih fun y hy => h y (List.mem_cons_of_mem x hy))

/-- Fresh variables have their initial values left to try. -/
theorem Arena.IsFresh.depth_le {m : Arena} (hm : m.IsFresh) :
    m.depth ≤ 1 + total (fun x => x.initial.size) m.toList := by
  rw [depth_eq]
  refine Nat.add_le_add_left (total_le_total fun x hx => ?_) 1
  obtain ⟨i, hi⟩ := mem_toList.mp hx
  refine Variable.size_le_of_mem (t := x.initial.values) fun v hv => ?_
  rw [Domain.mem_values]
  exact ((hm i x hi).mem_domain v).mp (Variable.mem_filter_wasTried.mp hv).1

namespace Algorithm

variable {σ : Type} {algorithm : Algorithm} {b : Branching σ} {m : Arena}
  {g : σ} {r : Call σ}

/-- Propagation at the root adds no values to try. -/
theorem Begins.depth_le (h : Begins b m g algorithm r) (hm : m.IsFresh)
    (hnumbered : m.IsNumbered) (hnet : b.propagator.network.Within m.size) :
    r.search.arena.depth ≤ 1 + Arena.total (fun x => x.initial.size)
      m.toList := by
  cases h with
  | forwardChecking => exact hm.depth_le
  | maintainArcConsistency hroot =>
      exact Nat.le_trans
        (propagated_of_propagateAll hroot hm hnumbered hnet).later.depth_le
        hm.depth_le

/-- The call that a search begins with has fuel for all variables that its arena
has. -/
theorem Begins.depth_eq (h : Begins b m g algorithm r) :
    r.depth = r.search.arena.depth := by
  cases h <;> rfl

/-- **A search ends, and no deeper than the domains have values.**  Whatever the
limit, the value order and the state that the variable order keeps, if it picks
a variable without a value whenever there is one: the strategy succeeds, its
search answers the same however deep it may go beyond its own bound, and active
calls are never more than all initial values together and one. -/
theorem solve_nests_within (algorithm : Algorithm) {selector : Selector σ}
    (valueOrder : ValueOrder) (limit : Limit) {net : Network} (g : σ)
    (hlegal : selector.IsLegal) (hm : m.IsFresh) (hnumbered : m.IsNumbered)
    (hnet : net.Within m.size) :
    let b := algorithm.branching selector valueOrder limit net
    let bound := 1 + Arena.total (fun x => x.initial.size) m.toList
    (∃ r, algorithm.solve selector valueOrder limit net m g = .ok r) ∧
    ∀ root, Begins b m g algorithm root →
      root.depth ≤ bound ∧
      (∃ answer, ∀ d, root.depth ≤ d →
        b.search d root.state root.search = .ok answer) ∧
      ∀ d, root.depth ≤ d → ∀ l, b.Active (⟨d, root.state, root.search⟩ :: l) →
        l.length + 1 ≤ bound := by
  intro b bound
  have hsafe : b.selector.IsSafe := hlegal.isSafe
  obtain ⟨g', s, hexplore, _, htrail, _⟩ :=
    explore_of_isFresh (b := b) algorithm g hsafe hm hnumbered hnet
  refine ⟨⟨_, solve_of_explore hexplore htrail⟩, fun root hbegins => ?_⟩
  have hready := hbegins.ready hm hnumbered hnet
  have hbound : root.search.arena.depth ≤ bound :=
    hbegins.depth_le hm hnumbered hnet
  obtain ⟨flow, g'', t, hsearch, _⟩ :=
    Branching.answers_of_sound hsafe root.depth root.state
      root.search hready.sound hready.deep
  refine ⟨hbegins.depth_eq ▸ hbound,
    ⟨_, fun d hd => Branching.search_extends hd _ _ _ hsearch⟩,
    fun d hd l hactive => ?_⟩
  exact Nat.le_trans
    (Branching.length_le_of_active hsafe (hready.deeper hd) hactive) hbound

/-- Two variables with two and three values: no more than six calls are active
at once. -/
theorem solve_nests_within_of_two :
    let net := Instance.coupleNetwork
    let m := Instance.coupleArena
    let b :=
      forwardChecking.branching VariableOrder.random.select .descending .all net
    (∃ r, forwardChecking.solve VariableOrder.random.select .descending .all net
      m (.ofSeed 7) = .ok r) ∧
    (∃ answer, ∀ d, 6 ≤ d → b.search d (.ofSeed 7) (.begin m) = .ok answer) ∧
    ∀ d, 6 ≤ d → ∀ l, b.Active (⟨d, .ofSeed 7, .begin m⟩ :: l) →
      l.length + 1 ≤ 6 := by
  intro net m b
  have hposed : m.Posed net := Instance.posed_couple
  obtain ⟨hsolves, hnests⟩ :=
    solve_nests_within forwardChecking .descending .all (.ofSeed 7)
      (VariableOrder.isLegal .random) hposed.fresh hposed.numbered hposed.within
  obtain ⟨hdepth, ⟨answer, hanswer⟩, hactive⟩ := hnests _ .forwardChecking
  have hbound : 1 + Arena.total (fun x => x.initial.size) m.toList =
    6 := by decide +kernel
  rw [hbound] at hdepth hactive
  exact ⟨hsolves, ⟨answer, fun d hd => hanswer d (Nat.le_trans hdepth hd)⟩,
    fun d hd => hactive d (Nat.le_trans hdepth hd)⟩

end Algorithm

end ConstraintNet
