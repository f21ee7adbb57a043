import ConstraintNet.Proofs.Selection

/-!
# What holds at every call

A call that is ready to be searched makes only such calls.  So whatever holds of
all ready calls holds of every call below a ready one.

A value order overlooks a value where it does not select the one that it should.
Only there can a call lose an assignment, and no call overlooks anything if the
order is the ascending one or the variables started with few values.
-/

namespace ConstraintNet

/-- The call may go as deep as its variables have untried values, what must hold
of its variables does, and they are those of `m`. -/
structure Branching.Ready {σ : Type} (b : Branching σ) (m : Arena)
    (c : Call σ) : Prop where
  sound : c.search.Sound b.propagator.network
  deep : c.search.arena.depth ≤ c.depth
  initials : m.KeepsInitials c.search.arena

/-- The call branches on a variable for which the value order does not select
the value that it should. -/
def Branching.Overlooks {σ : Type} (b : Branching σ) (c : Call σ) : Prop :=
  c.search.arena.isComplete = false ∧ ∃ i g x,
    b.selector c.search.arena b.propagator.network c.state = (some i, g) ∧
      c.search.arena.read i = .ok x ∧
      b.valueOrder.select x ≠ (b.valueOrder.rightful x).head?

namespace Branching

variable {σ : Type} {b : Branching σ} {m : Arena} {c c' : Call σ}
  {τ : Nat → Int}

/-- Where nothing is overlooked, the value order selects as it should. -/
theorem select_of_not_overlooks {i : Nat} {g : σ} {x : Variable}
    (h : ¬ b.Overlooks c) (hincomplete : c.search.arena.isComplete = false)
    (hselected : b.selector c.search.arena b.propagator.network c.state =
      (some i, g))
    (hx : c.search.arena.read i = .ok x) :
    b.valueOrder.select x = (b.valueOrder.rightful x).head? :=
  Classical.byContradiction fun hne =>
    h ⟨hincomplete, i, g, x, hselected, hx, hne⟩

/-- A decision that propagation lets stand makes a ready call of a ready one. -/
theorem Ready.decided {d : Nat} {g g' : σ} {s t : Search}
    {Choice : (Nat → Int) → Prop} (h : b.Ready m ⟨d + 1, g, s⟩)
    (hdecided : Decided b.propagator.network s.node Choice true t) :
    b.Ready m ⟨d, g', t⟩ where
  sound := hdecided.sound rfl
  deep := Nat.le_of_lt_succ (Nat.lt_of_lt_of_le hdecided.depth h.deep)
  initials := h.initials.trans hdecided.initials

/-- After the left branch of a ready call the value is a choice without
assignment, and the trail is what it was. -/
theorem Ready.returned {d : Nat} {g g' g'' : σ} {s r : Search} {i : Nat}
    {v : Int} {x : Variable} {flow : Flow} (hsafe : b.selector.IsSafe)
    (hc : b.Ready m ⟨d + 1, g, s⟩) (ho : s.node.arena.Offers i x v)
    (hleft : b.left (b.search d) i v g' s.node.trail.checkpoint s.node =
      .ok (flow, g'', r)) :
    (s.node.arena.write i (x.assign v).unassign).Alike r.arena ∧
    r.trail = s.node.trail := by
  have hs : s.node.Sound b.propagator.network := hc.sound.node
  have hrestores : ∀ u, b.accept i v s.node = .ok (true, u) →
      Restores (b.search d) g' u := by
    intro u hu
    have hready : b.Ready m ⟨d, g', u⟩ :=
      hc.decided (decided_of_accept hs ho hu)
    obtain ⟨flow, h, r, hr, ha⟩ :=
      answers_of_sound hsafe d g' u hready.sound hready.deep
    exact ⟨flow, h, r, hr, ha.alike, ha.trail⟩
  obtain ⟨_, _, _, _, _, _, _, _, hleft', hopened, htrail, _⟩ :=
    left_of_offers hs ho hrestores
  rw [hleft] at hleft'
  cases hleft'
  exact ⟨hopened, htrail⟩

/-- After the left branch the variable has no value, and everything else is as
before the branching. -/
theorem Ready.opened {d : Nat} {g g' g'' : σ} {s r : Search} {i : Nat} {v : Int}
    {x : Variable} {flow : Flow} (hsafe : b.selector.IsSafe)
    (hc : b.Ready m ⟨d + 1, g, s⟩) (ho : s.node.arena.Offers i x v)
    (hleft : b.left (b.search d) i v g' s.node.trail.checkpoint s.node =
      .ok (flow, g'', r)) :
    (s.node.arena.write i (x.assign v).unassign).Alike r.arena :=
  (hc.returned hsafe ho hleft).1

/-- **A ready call makes ready calls.** -/
theorem Enters.ready (hsafe : b.selector.IsSafe) (h : b.Enters c c')
    (hc : b.Ready m c) : b.Ready m c' := by
  cases h with
  | @left d g g' s t i v hpicks haccept =>
      have hs : s.node.Sound b.propagator.network := hc.sound.node
      obtain ⟨x, ho⟩ := hpicks.offers hsafe hs.orderly
      exact hc.decided (decided_of_accept hs ho haccept)
  | @right d g g' g'' s r t i v hpicks hleft hrefute =>
      have hs : s.node.Sound b.propagator.network := hc.sound.node
      obtain ⟨x, ho⟩ := hpicks.offers hsafe hs.orderly
      exact hc.decided
        (decided_of_refute hs ho (hc.opened hsafe ho hleft) hrefute)

/-- So are all calls below it. -/
theorem Reaches.ready (hsafe : b.selector.IsSafe) (h : b.Reaches c c')
    (hc : b.Ready m c) : b.Ready m c' := by
  induction h with
  | refl => exact hc
  | tail _ henters ih => exact henters.ready hsafe ih

/-- A call that gives up while each variable without a value has a live one
overlooks a value. -/
theorem GivesUp.overlooks_of_live (hlegal : b.selector.IsLegal)
    (h : b.GivesUp c) (hc : b.Ready m c)
    (hlive : ∀ i x, c.search.arena.read i = .ok x → x.value = none →
      ∃ v, v ∈ x.live) : b.Overlooks c := by
  obtain ⟨hincomplete, hpicks⟩ := h
  obtain ⟨i, g, x, hselected, hx, hvalue⟩ :=
    hlegal _ b.propagator.network c.state hc.sound.orderly.numbered hincomplete
  refine ⟨hincomplete, i, g, x, hselected, hx, fun hselect => ?_⟩
  obtain ⟨u, hlive⟩ := hlive i x hx hvalue
  have hmem : u ∈ b.valueOrder.rightful x :=
    ValueOrder.mem_rightful.mpr
      ⟨hlive, hc.sound.orderly.untried hx hvalue hlive⟩
  obtain ⟨v, l, hl⟩ := List.exists_cons_of_ne_nil (List.ne_nil_of_mem hmem)
  rw [hl, List.head?_cons] at hselect
  exact hpicks i v g ⟨hincomplete, hselected, x, hx, hselect⟩

/-- A call that gives up while it admits an assignment overlooks a value. -/
theorem GivesUp.overlooks (hlegal : b.selector.IsLegal) (h : b.GivesUp c)
    (hc : b.Ready m c) (hadmits : c.search.arena.Admits τ) : b.Overlooks c := by
  refine h.overlooks_of_live hlegal hc fun i x hx hvalue => ⟨τ i, ?_⟩
  have := hadmits i (Arena.lt_of_read hx)
  rw [Arena.effective_of_read hx] at this
  exact (Variable.mem_effective_of_value_eq_none hvalue).mp this

/-- Where few values were there to begin with, none is overlooked. -/
theorem Ready.not_overlooks (hc : b.Ready m c)
    (hfew : b.valueOrder = .ascending ∨
      ∀ i x, m.read i = .ok x → x.initial.size < 2047) : ¬ b.Overlooks c := by
  intro hparts
  obtain ⟨_, i, g, x, _, hx, hne⟩ := hparts
  refine hne (ValueOrder.select_eq_head?_rightful
    (hfew.imp_right fun hfew => ?_))
  obtain ⟨y, hy, hxy⟩ := hc.initials i x hx
  have hsettled := hc.sound.orderly.settled i x hx
  have hle : x.domain.values.size ≤ y.initial.values.size :=
    Variable.size_le_of_mem fun v hv => by
      rw [Domain.mem_values] at hv ⊢
      exact hxy ▸ ((hsettled.mem_domain v).mp hv).1
  exact Nat.lt_of_le_of_lt hle (hfew i y hy)

end Branching

end ConstraintNet
