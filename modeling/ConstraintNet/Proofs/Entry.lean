import ConstraintNet.Proofs.Narrowing

/-!
# What a call finds

Whatever a call decides, and whatever the calls before it decided and took back,
it finds the variables alive: none is wiped out, an assigned value is live and
goes with all that its arcs lead to, and a variable without value has a live
value that no open choice has tried.  For this the arcs need not come in pairs,
nor join two variables.

So a call has no reason to leave a variable without trying a value.  One that
does so was misled by the value order, which passed over a value that it should
have selected.
-/

namespace ConstraintNet

namespace Branching

variable {σ : Type} {b : Branching σ} {m : Arena} {c : Call σ} {i : Nat}
  {x : Variable} {v : Int}

/-- The variable order names a variable, and the value order selects none of its
values. -/
def RunsDry (b : Branching σ) (c : Call σ) : Prop :=
  c.search.arena.isComplete = false ∧ ∃ i g x,
    b.selector c.search.arena b.propagator.network c.state = (some i, g) ∧
      c.search.arena.read i = .ok x ∧ b.valueOrder.select x = none

/-- A value that an open choice tried is out of the domain, unless it is
assigned. -/
theorem Ready.not_mem_domain (hc : b.Ready m c)
    (hx : c.search.arena.read i = .ok x) (hvalue : x.value = none)
    (hv : v ∈ x.tried.values) : v ∉ x.domain := by
  intro hdomain
  have hassigned := hc.sound.orderly.tried i x v hx hv hdomain
  rw [hvalue] at hassigned
  cases hassigned

/-- An assigned value is in the domain and not marked. -/
theorem Ready.mem_live (hc : b.Ready m c) (hx : c.search.arena.read i = .ok x)
    (hvalue : x.value = some v) : v ∈ x.domain ∧ v ∉ x.marked.excluded :=
  Variable.mem_live.mp (hc.sound.orderly.live i x v hx hvalue)

/-- An assigned value supports all that shows at the heads of its arcs. -/
theorem Ready.mem_supports {a : Arc} {y : Variable} {u : Int} (hc : b.Ready m c)
    (ha : a ∈ b.propagator.network.arcs)
    (hx : c.search.arena.read a.tail = .ok x)
    (hy : c.search.arena.read a.head = .ok y) (hvalue : x.value = some v)
    (hu : u ∈ y.effective) : u ∈ b.propagator.network.supports v a := by
  obtain ⟨e, he⟩ := Option.isSome_iff_exists.mp (Network.mem_arcs.mp ha)
  rw [← Arena.effective_of_read hy] at hu
  have hpair : (v, u) ∈ e.pairs := hc.sound.agrees a e he x v hx hvalue u hu
  rw [Network.supports, he]
  exact Constraint.mem_supports.mpr hpair

/-- **A variable without value has a value that should be tried.** -/
theorem Ready.exists_mem_rightful (hc : b.Ready m c)
    (hwhole : c.search.arena.Whole) (hx : c.search.arena.read i = .ok x)
    (hvalue : x.value = none) : ∃ v, v ∈ b.valueOrder.rightful x := by
  obtain ⟨v, hv⟩ := hwhole i (Arena.lt_of_read hx)
  rw [Arena.effective_of_read hx,
    Variable.mem_effective_of_value_eq_none hvalue] at hv
  exact ⟨v, ValueOrder.mem_rightful.mpr
    ⟨hv, hc.sound.orderly.untried hx hvalue hv⟩⟩

/-- It is tried if the order selects as it should. -/
theorem Ready.exists_select (hc : b.Ready m c) (hwhole : c.search.arena.Whole)
    (hx : c.search.arena.read i = .ok x) (hvalue : x.value = none)
    (hselect : b.valueOrder.select x = (b.valueOrder.rightful x).head?) :
    ∃ v, b.valueOrder.select x = some v := by
  obtain ⟨v, hv⟩ := hc.exists_mem_rightful hwhole hx hvalue
  obtain ⟨u, l, hl⟩ := List.exists_cons_of_ne_nil (List.ne_nil_of_mem hv)
  exact ⟨u, by rw [hselect, hl, List.head?_cons]⟩

/-- **A call that runs dry overlooks a value.** -/
theorem RunsDry.overlooks (h : b.RunsDry c) (hsafe : b.selector.IsSafe)
    (hc : b.Ready m c) (hwhole : c.search.arena.Whole) : b.Overlooks c := by
  obtain ⟨hincomplete, i, g, x, hselected, hx, hnone⟩ := h
  obtain ⟨x', hx', hvalue⟩ :=
    hsafe _ _ _ i g hc.sound.orderly.numbered hincomplete hselected
  obtain rfl := Arena.read_unique hx hx'
  refine ⟨hincomplete, i, g, x, hselected, hx, fun hselect => ?_⟩
  obtain ⟨v, hv⟩ := hc.exists_select hwhole hx hvalue hselect
  rw [hnone] at hv
  cases hv

end Branching

namespace Algorithm

variable {σ : Type} {m : Arena}

/-- **What every call finds.**  Whatever the table and the orders, at every call
no variable is wiped out, an assigned value is live and supports all that shows
at the heads of its arcs, what was tried of a variable without value is out of
its domain, and some live value of it was not tried.  A call that tries none
overlooks one, and none does so under the ascending value order, or if no
variable starts with 2047 values or more. -/
theorem makes_entered (algorithm : Algorithm) {selector : Selector σ}
    (valueOrder : ValueOrder) (limit : Limit) {net : Network} (g : σ)
    (hsafe : selector.IsSafe) (hm : m.IsFresh) (hnumbered : m.IsNumbered)
    (hne : ∀ i x, m.read i = .ok x → ∃ v, v ∈ x.initial)
    (hnet : net.Within m.size) :
    let b := algorithm.branching selector valueOrder limit net
    ∀ c, algorithm.Makes b m g c →
      (∀ i x, c.search.arena.read i = .ok x →
        x.isWipedOut = false ∧
          ∀ v, x.value = some v → v ∈ x.domain ∧ v ∉ x.marked.excluded) ∧
      (∀ a ∈ net.arcs, ∀ x y v, c.search.arena.read a.tail = .ok x →
        c.search.arena.read a.head = .ok y → x.value = some v →
          ∀ u ∈ y.effective, u ∈ net.supports v a) ∧
      (∀ i x, c.search.arena.read i = .ok x → x.value = none →
        (∀ v ∈ x.tried.values, v ∉ x.domain) ∧
        (∃ v ∈ x.domain, v ∉ x.marked.excluded ∧ v ∉ x.tried.values) ∧
        (valueOrder = .ascending ∨ x.domain.size < 2047 →
          ∃ v, valueOrder.select x = some v)) ∧
      (b.RunsDry c → b.Overlooks c) ∧
      (valueOrder = .ascending ∨
          (∀ i x, m.read i = .ok x → x.initial.size < 2047) →
        ¬ b.RunsDry c) := by
  intro b c hmakes
  have hready : b.Ready m c := hmakes.ready hsafe hm hnumbered hnet
  have hwhole : c.search.arena.Whole :=
    hmakes.whole hsafe hm hnumbered hnet (hm.whole hne)
  have hdry : b.RunsDry c → b.Overlooks c := fun h =>
    h.overlooks hsafe hready hwhole
  refine ⟨?_, ?_, ?_, hdry, fun hfew h => hready.not_overlooks hfew (hdry h)⟩
  · intro i x hx
    refine ⟨?_, fun v hvalue => hready.mem_live hx hvalue⟩
    obtain ⟨v, hv⟩ := hwhole i (Arena.lt_of_read hx)
    rw [Arena.effective_of_read hx] at hv
    exact Bool.eq_false_iff.mpr fun hwiped =>
      Variable.isWipedOut_iff.mp hwiped v hv
  · intro a ha x y v hx hy hvalue u hu
    exact hready.mem_supports ha hx hy hvalue hu
  · intro i x hx hvalue
    refine ⟨fun v hv => hready.not_mem_domain hx hvalue hv, ?_, fun hfew => ?_⟩
    · obtain ⟨v, hv⟩ := hready.exists_mem_rightful hwhole hx hvalue
      obtain ⟨hlive, huntried⟩ := ValueOrder.mem_rightful.mp hv
      obtain ⟨hdomain, hmarked⟩ := Variable.mem_live.mp hlive
      exact ⟨v, hdomain, hmarked, huntried⟩
    · exact hready.exists_select hwhole hx hvalue
        (ValueOrder.select_eq_head?_rightful hfew)

/-- Two variables, with an arc one way and an arc from the second to itself. -/
theorem makes_entered_of_two :
    let net :=
      ((∅ : Network).insert
        { first := 0, second := 1, pairs := [(0, 1), (1, 2)] }).insert
      { first := 1, second := 1, pairs := [(1, 1), (2, 2)] }
    let m : Arena := .ofList [.ofBounds 0 0 1, .ofBounds 1 0 2]
    let b :=
      forwardChecking.branching VariableOrder.random.select .descending .all net
    ∀ c, forwardChecking.Makes b m (.ofSeed 7) c →
      (∀ i x, c.search.arena.read i = .ok x →
        x.isWipedOut = false ∧
          ∀ v, x.value = some v → v ∈ x.domain ∧ v ∉ x.marked.excluded) ∧
      (∀ a ∈ net.arcs, ∀ x y v, c.search.arena.read a.tail = .ok x →
        c.search.arena.read a.head = .ok y → x.value = some v →
          ∀ u ∈ y.effective, u ∈ net.supports v a) ∧
      (∀ i x, c.search.arena.read i = .ok x → x.value = none →
        (∀ v ∈ x.tried.values, v ∉ x.domain) ∧
        (∃ v ∈ x.domain, v ∉ x.marked.excluded ∧ v ∉ x.tried.values) ∧
        (ValueOrder.descending = .ascending ∨ x.domain.size < 2047 →
          ∃ v, ValueOrder.descending.select x = some v)) ∧
      (b.RunsDry c → b.Overlooks c) ∧
      (ValueOrder.descending = .ascending ∨
          (∀ i x, m.read i = .ok x → x.initial.size < 2047) →
            ¬ b.RunsDry c) := by
  intro net m b
  have harena : Instance.buildArena ⟨[(0, 1), (0, 2)], []⟩ = .ok m := rfl
  have hnet : net.Within m.size :=
    Network.within_insert (Network.within_insert (Network.within_empty 2)
      ⟨(by decide : 0 < 2), (by decide : 1 < 2)⟩) ⟨(by decide : 1 < 2),
      (by decide : 1 < 2)⟩
  exact makes_entered forwardChecking .descending .all (.ofSeed 7)
    (VariableOrder.isLegal .random).isSafe
    (Instance.isFresh_of_buildArena harena)
    (Instance.isNumbered_of_buildArena harena)
    (fun _ _ hx => Instance.exists_mem_initial_of_buildArena harena hx) hnet

end Algorithm

end ConstraintNet
