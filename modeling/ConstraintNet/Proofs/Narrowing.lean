import ConstraintNet.Proofs.ArcConsistency
import ConstraintNet.Proofs.Strategies

/-!
# What a decision makes of what the variables show

A decision allows its variable one value, or all values but one.  Carried out by
a call it narrows what the variables show: to values that showed before and that
it allows, but never below a balanced family of such values.

Under full closure on a symmetric network a decision keeps all arcs consistent,
although propagation starts from the arcs that leave its variable only.  The
other arcs that it can upset are their reverses, and for these it is enough that
the reverse waits.
-/

namespace ConstraintNet

/-- One way of deciding a variable. -/
inductive Decision
  /-- The variable takes the value. -/
  | accept (index : Nat) (value : Int)
  /-- The variable does not take the value. -/
  | refute (index : Nat) (value : Int)
deriving DecidableEq

namespace Decision

/-- The decided variable. -/
def index : Decision → Nat
  | accept i _ => i
  | refute i _ => i

/-- The values that the decision leaves to each variable. -/
def Allows : Decision → Nat → Int → Prop
  | accept i v, j, u => j = i → u = v
  | refute i v, j, u => j = i → u ≠ v

/-- Other variables are not concerned. -/
theorem allows_of_ne {d : Decision} {j : Nat} (h : j ≠ d.index) (u : Int) :
    d.Allows j u := by
  cases d with
  | accept i v => exact fun hj => absurd hj h
  | refute i v => exact fun hj => absurd hj h

end Decision

namespace Arena

variable {m : Arena} {i j : Nat} {x : Variable} {u v : Int}

/-- Every variable shows something. -/
def Whole (m : Arena) : Prop := ∀ i, i < m.size → ∃ v, v ∈ m.effective i

/-- All arcs of the network are consistent. -/
def ArcConsistent (m : Arena) (net : Network) : Prop :=
  ∀ a c, net.find? a = some c → m.Consistent c a

/-- What arc consistent variables show is supported. -/
theorem ArcConsistent.supported {net : Network} (h : m.ArcConsistent net) :
    net.Supported m.shown := by
  intro a c hc v hv
  obtain ⟨_, z, hz, hvz⟩ := h a c hc v hv
  exact ⟨z, hz, hvz⟩

/-- What the variables show when one without value is assigned. -/
theorem mem_effective_write_assign (hx : m.read i = .ok x)
    (hvalue : x.value = none) :
    u ∈ (m.write i (x.assign v)).effective j ↔
    u ∈ m.effective j ∧ (j = i → u = v) := by
  have hi : i < m.size := lt_of_read hx
  by_cases hji : j = i
  · subst hji
    have hassigned : u ∈ (x.assign v).effective ↔ u ∈ x.live ∧ u = v := by
      rw [Variable.mem_effective]
      exact and_congr_right fun _ =>
        ⟨fun h => h v rfl, fun h w hw => h.trans (Option.some.inj hw)⟩
    rw [effective_write_self hi, effective_of_read hx, hassigned,
      Variable.mem_effective_of_value_eq_none hvalue]
    simp
  · rw [effective_write_of_ne (Ne.symm hji)]
    exact (and_iff_left fun h => absurd h hji).symm

end Arena

/-- What a decision, and the propagation after it, makes of what the variables
show. -/
structure Narrowed (p : Propagator) (m : Arena) (d : Decision) (ok : Bool)
    (k : Arena) : Prop where
  size : k.size = m.size
  shown : ∀ i v, v ∈ k.effective i → v ∈ m.effective i ∧ d.Allows i v
  kept : ∀ F, p.network.Balanced F →
    (∀ i v, F i v → v ∈ m.effective i ∧ d.Allows i v) → k.Shows F
  failed : ok = false → ∃ i, i < m.size ∧ ∀ v, v ∉ k.effective i
  whole : ok = true → m.Whole → k.Whole
  consistent : ok = true → p.closure = .full → p.network.IsSymmetric →
    m.ArcConsistent p.network → k.ArcConsistent p.network

/-- What is admitted after a decision was so before, and goes with the
decision. -/
theorem Narrowed.admits {p : Propagator} {m k : Arena} {d : Decision}
    {ok : Bool} (h : Narrowed p m d ok k) {τ : Nat → Int} (hτ : k.Admits τ) :
    m.Admits τ ∧ ∀ i, i < m.size → d.Allows i (τ i) :=
  ⟨fun i hi => (h.shown i _ (hτ i (h.size.symm ▸ hi))).1,
    fun i hi => (h.shown i _ (hτ i (h.size.symm ▸ hi))).2⟩

/-- A decision stands if a balanced family has something of each variable within
it. -/
theorem Narrowed.stands {p : Propagator} {m k : Arena} {d : Decision}
    {ok : Bool} {F : Nat → Int → Prop} (h : Narrowed p m d ok k)
    (hF : p.network.Balanced F)
    (hbound : ∀ i v, F i v → v ∈ m.effective i ∧ d.Allows i v)
    (hwhole : ∀ i, i < m.size → ∃ v, F i v) : ok = true := by
  cases ok with
  | true => rfl
  | false =>
      obtain ⟨i, hi, hempty⟩ := h.failed rfl
      obtain ⟨v, hv⟩ := hwhole i hi
      exact absurd (h.kept F hF hbound i v hv) (hempty v)

section

variable {p : Propagator} {m : Arena} {w u : Workspace} {d : Decision}
  {ok : Bool}

/-- Of each arc that the decision upset, the arc or its reverse leaves the
decided variable. -/
theorem awaits_of_decision (hsym : p.network.IsSymmetric)
    (hm : m.ArcConsistent p.network)
    (hshown : ∀ i v,
      v ∈ w.arena.effective i ↔ v ∈ m.effective i ∧ d.Allows i v) :
    p.Awaits (.ofList (p.network.arcsFrom d.index)) w := by
  intro a c hc
  by_cases htail : a.tail = d.index
  · exact Or.inl (Agenda.mem_ofList.mpr
      (Network.mem_arcsFrom.mpr ⟨Network.mem_arcs_of_find? hc, htail⟩))
  · by_cases hhead : a.head = d.index
    · obtain ⟨_, e, he, _⟩ := hsym a c hc
      exact Or.inr (Or.inl (Agenda.mem_ofList.mpr
        (Network.mem_arcsFrom.mpr ⟨Network.mem_arcs_of_find? he, hhead⟩)))
    · refine Or.inr (Or.inr fun v hv => ?_)
      obtain ⟨_, z, hz, hvz⟩ := hm a c hc v ((hshown _ _).mp hv).1
      exact ⟨hv, z, (hshown _ _).mpr ⟨hz, Decision.allows_of_ne hhead z⟩, hvz⟩

/-- **Propagating a decision** narrows what the variables show. -/
theorem narrowed_of_propagate (hcalm : w.arena.Calm)
    (hnet : p.network.Within w.arena.size) (hsize : w.arena.size = m.size)
    (hshown : ∀ i v, v ∈ w.arena.effective i ↔ v ∈ m.effective i ∧ d.Allows i v)
    (hleft : ∃ v, v ∈ w.arena.effective d.index)
    (hrun : p.propagate (p.network.arcsFrom d.index) w = .ok (ok, u)) :
    Narrowed p m d ok u.arena := by
  have hseed : ∀ a ∈ p.network.arcsFrom d.index, a.Within w.arena.size :=
    fun a ha => hnet a (Network.mem_arcsFrom.mp ha).1
  obtain ⟨ok', u', hrun', hp⟩ :=
    Propagator.propagate_of_calm (p := p) hcalm hnet hseed
  rw [hrun] at hrun'
  cases hrun'
  refine ⟨hp.later.size.trans hsize, ?_, ?_, ?_, ?_, ?_⟩
  · exact fun i v hv => (hshown i v).mp (hp.later.effective hv)
  · exact fun F hF hm => hp.shows F hF fun i v hv =>
      (hshown i v).mpr (hm i v hv)
  · exact fun hok => hsize ▸ hp.failed hok
  · intro hok hm i hi
    have hw : ∃ v, v ∈ w.arena.effective i := by
      by_cases hd : i = d.index
      · exact hd ▸ hleft
      · obtain ⟨v, hv⟩ := hm i (hsize ▸ hp.later.size ▸ hi)
        exact ⟨v, (hshown i v).mpr ⟨hv, Decision.allows_of_ne hd v⟩⟩
    obtain ⟨v, hv⟩ := hw
    exact hp.left hok i v hv
  · intro hok hfull hsym hm
    obtain ⟨ok', u', hrun', _, hcons⟩ :=
      Propagator.propagate_of_awaits hfull hsym hcalm hnet hseed
        (awaits_of_decision hsym hm hshown)
    rw [hrun] at hrun'
    cases hrun'
    exact hcons hok

end

namespace Branching

variable {σ : Type} {b : Branching σ} {s t r : Search} {i : Nat} {x : Variable}
  {v : Int} {ok : Bool}

/-- **Accepting a value** narrows what the variables show. -/
theorem narrowed_of_accept (hs : s.Sound b.propagator.network)
    (ho : s.arena.Offers i x v) (h : b.accept i v s = .ok (ok, t)) :
    Narrowed b.propagator s.arena (.accept i v) ok t.arena := by
  have hsize : (s.write i (x.assign v)).arena.size = s.arena.size :=
    Arena.size_write _ _ _
  have hcalm : (s.write i (x.assign v)).arena.Calm :=
    (hs.orderly.write_assign ho.read ho.value ho.live).calm
  have hshown : ∀ j u, u ∈ (s.write i (x.assign v)).arena.effective j ↔
      u ∈ s.arena.effective j ∧ (Decision.accept i v).Allows j u :=
    fun j u => Arena.mem_effective_write_assign ho.read ho.value
  have hv : v ∈ s.arena.effective i := ho.mem_effective
  rw [accept, Search.assign_eq ho.read v] at h
  have hrun : (s.write i (x.assign v)).propagate b.propagator
    (b.propagator.network.arcsFrom i) =
      .ok (ok, t) := h
  exact narrowed_of_propagate hcalm (hsize.symm ▸ hs.within) hsize hshown
    ⟨v, (hshown i v).mpr ⟨hv, fun _ => rfl⟩⟩ (Search.of_propagate_eq_ok hrun).1

/-- **Refuting a value**, after the left branch has left it as a choice without
assignment, narrows what the variables show. -/
theorem narrowed_of_refute (hs : s.Sound b.propagator.network)
    (ho : s.arena.Offers i x v)
    (hr : (s.arena.write i (x.assign v).unassign).Alike r.arena)
    (h : b.refute i v r = .ok (ok, t)) :
    Narrowed b.propagator s.arena (.refute i v) ok t.arena := by
  obtain ⟨w, y, hexclude, _, hrefuted⟩ :=
    Search.exclude_of_offers hs.orderly ho hr
  have hshown : ∀ j u, u ∈ w.arena.effective j ↔
      u ∈ s.arena.effective j ∧ (Decision.refute i v).Allows j u :=
    fun j u => hrefuted.mem_effective ho
  simp only [refute, hexclude, bind, Except.bind, hrefuted.read, Bool.true_and]
    at h
  cases hwiped : y.isWipedOut with
  | true =>
      rw [hwiped] at h
      cases h
      refine ⟨hrefuted.size, fun j u hu => (hshown j u).mp hu,
        fun F _ hF j u hu => (hshown j u).mpr (hF j u hu),
        fun _ => ⟨i, Arena.lt_of_read ho.read, ?_⟩,
        fun hok => absurd hok Bool.false_ne_true,
        fun hok => absurd hok Bool.false_ne_true⟩
      intro u hu
      rw [Arena.effective_of_read hrefuted.read] at hu
      exact Variable.isWipedOut_iff.mp hwiped u hu
  | false =>
      rw [hwiped] at h
      have hrun : (Search.mk w r.solutions).propagate b.propagator
          (b.propagator.network.arcsFrom i) = .ok (ok, t) := h
      obtain ⟨u, hu⟩ := Variable.exists_mem_effective hwiped
      rw [← Arena.effective_of_read hrefuted.read] at hu
      exact narrowed_of_propagate (hrefuted.orderly ho hs.orderly).calm
        (hrefuted.size.symm ▸ hs.within) hrefuted.size hshown ⟨u, hu⟩
        (Search.of_propagate_eq_ok hrun).1

/-! ## Branches -/

variable {m : Arena} {c c' : Call σ} {d : Decision}

/-- A branch of a call: its decision, whether propagation lets it stand, and the
call that the search makes on the branch if so. -/
inductive Explores (b : Branching σ) : Call σ → Decision → Bool → Call σ → Prop
  | left {d : Nat} {g g' : σ} {s t : Search} {i : Nat} {v : Int} {ok : Bool}
      (hpicks : b.Picks ⟨d + 1, g, s⟩ i v g')
      (haccept : b.accept i v s.node = .ok (ok, t)) :
      Explores b ⟨d + 1, g, s⟩ (.accept i v) ok ⟨d, g', t⟩
  | right {d : Nat} {g g' g'' : σ} {s r t : Search} {i : Nat} {v : Int}
      {ok : Bool} (hpicks : b.Picks ⟨d + 1, g, s⟩ i v g')
      (hleft : b.left (b.search d) i v g' s.node.trail.checkpoint s.node =
        .ok (.goOn, g'', r))
      (hrefute : b.refute i v r = .ok (ok, t)) :
      Explores b ⟨d + 1, g, s⟩ (.refute i v) ok ⟨d, g'', t⟩

/-- The branches that stand lead to the calls that a call makes. -/
theorem enters_iff : b.Enters c c' ↔ ∃ d, b.Explores c d true c' := by
  constructor
  · intro h
    cases h with
    | left hpicks haccept => exact ⟨_, .left hpicks haccept⟩
    | right hpicks hleft hrefute => exact ⟨_, .right hpicks hleft hrefute⟩
  · rintro ⟨d, h⟩
    cases h with
    | left hpicks haccept => exact .left hpicks haccept
    | right hpicks hleft hrefute => exact .right hpicks hleft hrefute

/-- **A branch of a ready call** narrows what the variables show. -/
theorem Explores.narrowed {m : Arena} {ok : Bool} (h : b.Explores c d ok c')
    (hsafe : b.selector.IsSafe) (hc : b.Ready m c) :
    Narrowed b.propagator c.search.arena d ok c'.search.arena := by
  cases h with
  | @left _ _ _ s _ _ _ _ hpicks haccept =>
      have hs : s.node.Sound b.propagator.network := hc.sound.node
      obtain ⟨x, ho⟩ := hpicks.offers hsafe hs.orderly
      exact narrowed_of_accept (s := s.node) hs ho haccept
  | @right _ _ _ _ s _ _ _ _ _ hpicks hleft hrefute =>
      have hs : s.node.Sound b.propagator.network := hc.sound.node
      obtain ⟨x, ho⟩ := hpicks.offers hsafe hs.orderly
      exact narrowed_of_refute (s := s.node) hs ho
        (hc.opened hsafe ho hleft) hrefute

/-- On a branch those assignments are admitted that were so before and go with
the decision. -/
theorem Explores.decided (h : b.Explores c d ok c') (hsafe : b.selector.IsSafe)
    (hc : b.Ready m c) :
    Decided b.propagator.network c.search
      (fun τ => d.Allows d.index (τ d.index)) ok
      c'.search := by
  cases h with
  | @left _ _ _ s t i v _ hpicks haccept =>
      have hs : s.node.Sound b.propagator.network := hc.sound.node
      obtain ⟨x, ho⟩ := hpicks.offers hsafe hs.orderly
      have hdecided : Decided b.propagator.network s (fun τ => τ i = v) ok t :=
        { decided_of_accept (s := s.node) hs ho haccept with }
      exact hdecided.congr fun τ => ⟨fun h _ => h, fun h => h rfl⟩
  | @right _ _ _ _ s _ t i v _ hpicks hleft hrefute =>
      have hs : s.node.Sound b.propagator.network := hc.sound.node
      obtain ⟨x, ho⟩ := hpicks.offers hsafe hs.orderly
      have hdecided : Decided b.propagator.network s (fun τ => τ i ≠ v) ok t :=
        { decided_of_refute (s := s.node) hs ho
            (hc.opened hsafe ho hleft) hrefute with }
      exact hdecided.congr fun τ => ⟨fun h _ => h, fun h => h rfl⟩

/-- A branch that stands makes a ready call of a ready one. -/
theorem Explores.ready {m : Arena} {ok : Bool} (h : b.Explores c d ok c')
    (hsafe : b.selector.IsSafe) (hc : b.Ready m c) (hok : ok = true) :
    b.Ready m c' :=
  (enters_iff.mpr ⟨d, hok ▸ h⟩).ready hsafe hc

/-- **Below a ready call** that shows something of each variable, all calls
do. -/
theorem Reaches.whole (hsafe : b.selector.IsSafe) (h : b.Reaches c c')
    (hc : b.Ready m c) (hwhole : c.search.arena.Whole) :
    c'.search.arena.Whole := by
  induction h with
  | refl => exact hwhole
  | tail hreaches henters ih =>
      obtain ⟨d, hexplores⟩ := enters_iff.mp henters
      exact (hexplores.narrowed hsafe (Reaches.ready hsafe hreaches hc)).whole
        rfl ih

end Branching

/-! ## From the root -/

/-- Fresh variables show something each, if no initial domain is empty. -/
theorem Arena.IsFresh.whole {m : Arena} (hm : m.IsFresh)
    (hne : ∀ i x, m.read i = .ok x → ∃ v, v ∈ x.initial) : m.Whole := by
  intro i hi
  obtain ⟨x, hx⟩ := exists_read hi
  obtain ⟨v, hv⟩ := hne i x hx
  refine ⟨v, ?_⟩
  rw [effective_of_read hx,
    Variable.mem_effective_of_value_eq_none (hm i x hx).value]
  exact (hm.mem_live hx).mpr hv

namespace Algorithm

variable {σ : Type} {algorithm : Algorithm} {b : Branching σ} {m : Arena}
  {g : σ} {c : Call σ}

/-- So does the first call. -/
theorem Begins.whole (h : Begins b m g algorithm c) (hm : m.IsFresh)
    (hnumbered : m.IsNumbered) (hnet : b.propagator.network.Within m.size)
    (hwhole : m.Whole) : c.search.arena.Whole := by
  cases h with
  | forwardChecking => exact hwhole
  | maintainArcConsistency hroot =>
      have hp := propagated_of_propagateAll hroot hm hnumbered hnet
      intro i hi
      obtain ⟨v, hv⟩ := hwhole i (hp.later.size ▸ hi)
      exact hp.left rfl i v hv

/-- **No call is made that shows nothing of a variable.** -/
theorem Makes.whole (h : algorithm.Makes b m g c) (hsafe : b.selector.IsSafe)
    (hm : m.IsFresh) (hnumbered : m.IsNumbered)
    (hnet : b.propagator.network.Within m.size) (hwhole : m.Whole) :
    c.search.arena.Whole := by
  obtain ⟨r, hbegins, hreaches⟩ := h
  exact hreaches.whole hsafe (hbegins.ready hm hnumbered hnet)
    (hbegins.whole hm hnumbered hnet hwhole)

end Algorithm

end ConstraintNet
