import ConstraintNet.Proofs.Built

/-!
# Arc consistency

In a family of values that is supported, every value has a support across each
arc that leaves its variable.  Among the supported families within given bounds
there is a greatest one, the `core` of the bounds.

Under full closure, propagation from all arcs of a symmetric network leaves just
the core of what the variables showed before, or empties a variable if the core
has an empty member.  The order of the arcs does not matter.

A revision brings both ends of its arc into agreement, so the reverse arc need
not be looked at again.  The invariant is therefore one of pairs of arcs: of an
arc that is not consistent, the arc or its reverse waits.
-/

namespace ConstraintNet

/-- Every value of the family has a support across each arc that leaves its
variable. -/
def Network.Supported (net : Network) (F : Nat → Int → Prop) : Prop :=
  ∀ a c, net.find? a = some c →
    ∀ v, F a.tail v → ∃ z, F a.head z ∧ (v, z) ∈ c.pairs

/-- The greatest supported family within bounds: the union of all of them. -/
def Network.core (net : Network) (B : Nat → Int → Prop) (i : Nat) (v : Int) :
    Prop :=
  ∃ F, net.Supported F ∧ (∀ j u, F j u → B j u) ∧ F i v

/-- What the variables show, as a family. -/
def Arena.shown (m : Arena) (i : Nat) (v : Int) : Prop := v ∈ m.effective i

/-- All that shows at the tail of an arc with constraint `c` has a support at
its head. -/
def Arena.Consistent (m : Arena) (c : Constraint) (a : Arc) : Prop :=
  ∀ v ∈ m.effective a.tail, m.Supports c a v

namespace Network

variable {net : Network} {F B : Nat → Int → Prop}

/-- The core is supported itself. -/
theorem supported_core : net.Supported (net.core B) := by
  intro a c hc v ⟨F, hF, hB, hv⟩
  obtain ⟨z, hz, hvz⟩ := hF a c hc v hv
  exact ⟨z, ⟨F, hF, hB, hz⟩, hvz⟩

/-- The core keeps within its bounds. -/
theorem core_le {i : Nat} {v : Int} (hv : net.core B i v) : B i v := by
  obtain ⟨F, _, hB, hv⟩ := hv
  exact hB i v hv

/-- Every supported family within the bounds lies in the core. -/
theorem le_core (hF : net.Supported F) (hB : ∀ i v, F i v → B i v) {i : Nat}
    {v : Int} (hv : F i v) : net.core B i v :=
  ⟨F, hF, hB, hv⟩

/-- In a symmetric network support in one direction is support in both. -/
theorem Supported.balanced (hF : net.Supported F) (hsym : net.IsSymmetric) :
    net.Balanced F := by
  intro a c hc
  refine ⟨hF a c hc, fun z hz => ?_⟩
  obtain ⟨_, d, hd, hpairs⟩ := hsym a c hc
  obtain ⟨v, hv, hzv⟩ := hF a.reverse d hd z hz
  exact ⟨v, hv, (hpairs v z).mp hzv⟩

end Network

/-! ## One revision -/

section

variable {net : Network} {a b : Arc} {c d : Constraint} {w u : Workspace}
  {r : Revision}

/-- A revised arc is consistent. -/
theorem Revised.consistent (h : Revised c a w r u) (hne : a.tail ≠ a.head) :
    u.arena.Consistent c a := by
  intro v hv
  obtain ⟨hs, _⟩ := (h.tail v).mp hv
  obtain ⟨_, z, hz, hvz⟩ := id hs
  exact ⟨hv, z, (h.head z).mpr ⟨hz, ⟨v, hs, hvz⟩, fun heq => absurd heq hne⟩,
    hvz⟩

/-- So is its reverse, which was not looked at. -/
theorem Revised.consistent_reverse (h : Revised c a w r u)
    (hne : a.tail ≠ a.head)
    (hpairs : ∀ x y, (y, x) ∈ d.pairs ↔ (x, y) ∈ c.pairs) :
    u.arena.Consistent d a.reverse := by
  intro z hz
  obtain ⟨_, ⟨v, hs, hvz⟩, _⟩ := (h.head z).mp hz
  have hv : v ∈ u.arena.effective a.tail :=
    (h.tail v).mpr ⟨hs, fun heq => absurd heq hne⟩
  exact ⟨hz, v, hv, (hpairs v z).mpr hvz⟩

/-- An arc whose head has lost nothing stays consistent. -/
theorem Arena.Consistent.later (h : w.arena.Consistent d b) (hlater : w.Later u)
    (hhead : ∀ z ∈ w.arena.effective b.head, z ∈ u.arena.effective b.head) :
    u.arena.Consistent d b := by
  intro v hv
  obtain ⟨_, z, hz, hvz⟩ := h v (hlater.effective hv)
  exact ⟨hv, z, hhead z hz, hvz⟩

/-- The head of an arc loses values only if the arc is awakened by the revision,
or is the revised arc or its reverse. -/
theorem Revised.head_kept {p : Propagator} (hfull : p.closure = .full)
    (h : Revised c a w r u) (hne : a.tail ≠ a.head) (hb : b ∈ p.network.arcs)
    (hba : b ≠ a) (hbr : b.reverse ≠ a) (hnot : b ∉ p.awakened a r) :
    ∀ z ∈ w.arena.effective b.head, z ∈ u.arena.effective b.head := by
  intro z hz
  unfold Propagator.awakened at hnot
  simp only [hfull, List.mem_append, not_or] at hnot
  obtain ⟨hpruned, hmarked⟩ := hnot
  by_cases hbh : b.head = a.head
  · have hbt : b.tail ≠ a.tail := by
      intro hbt
      apply hba
      cases a
      cases b
      simp_all
    have hm0 : r.marked = 0 := by
      refine Classical.byContradiction fun hm => hmarked ?_
      have hpos : 0 < r.marked := by omega
      simp [hpos, Network.mem_arcsInto, hb, hbh, hbt]
    rw [hbh] at hz ⊢
    exact h.marked hm0 z hz fun heq => absurd heq hne
  · by_cases hbt : b.head = a.tail
    · have hth : b.tail ≠ a.head := by
        intro hth
        apply hbr
        cases a
        cases b
        simp_all [Arc.reverse]
      have hp0 : r.pruned = 0 := by
        refine Classical.byContradiction fun hp => hpruned ?_
        have hpos : 0 < r.pruned := by omega
        simp [hpos, Network.mem_arcsInto, hb, hbt, hth]
      rw [hbt] at hz ⊢
      exact (h.tail z).mpr ⟨h.pruned hp0 z hz, fun heq => absurd heq hne⟩
    · rwa [Arena.effective, h.frame b.head hbt hbh]

end

/-! ## The run -/

namespace Propagator

variable {p : Propagator} {seed : List Arc} {w u t : Workspace}
  {q q' rest : Agenda} {a : Arc}

/-- Of each arc that is not consistent, the arc or its reverse waits. -/
def Awaits (p : Propagator) (q : Agenda) (u : Workspace) : Prop :=
  ∀ a c, p.network.find? a = some c →
    a ∈ q.toList ∨ a.reverse ∈ q.toList ∨ u.arena.Consistent c a

/-- A revised arc need not wait any longer, if those wait that lost support. -/
theorem Awaits.revised (h : p.Awaits q u) (hsym : p.network.IsSymmetric)
    (hpop : q.pop? = some (a, rest)) {c : Constraint}
    (hfind : p.network.find? a = some c) {r : Revision}
    (hrevised : Revised c a u r t) (hrest : ∀ b ∈ rest.toList, b ∈ q'.toList)
    (hkept : ∀ b ∈ p.network.arcs, b ≠ a → b.reverse ≠ a → b ∉ q'.toList →
      ∀ z ∈ u.arena.effective b.head, z ∈ t.arena.effective b.head) :
    p.Awaits q' t := by
  intro b d hd
  obtain ⟨hne, e, he, hpairs⟩ := hsym a c hfind
  by_cases hba : b = a
  · subst hba
    rw [hfind] at hd
    cases hd
    exact Or.inr (Or.inr (hrevised.consistent hne))
  · by_cases hbr : b.reverse = a
    · have hb : b = a.reverse := by rw [← hbr, Arc.reverse_reverse]
      subst hb
      rw [he] at hd
      cases hd
      exact Or.inr (Or.inr (hrevised.consistent_reverse hne hpairs))
    · by_cases hq' : b ∈ q'.toList
      · exact Or.inl hq'
      · rcases h b d hd with hq | hq | hcons
        · rcases (Agenda.mem_of_pop? hpop).mp hq with hq | hq
          · exact absurd hq hba
          · exact Or.inl (hrest b hq)
        · rcases (Agenda.mem_of_pop? hpop).mp hq with hq | hq
          · exact absurd hq hbr
          · exact Or.inr (Or.inl (hrest _ hq))
        · exact Or.inr (Or.inr (hcons.later hrevised.later
            (hkept b (Network.mem_arcs_of_find? hd) hba hbr hq')))

/-- **Each step of full closure keeps the pairs of arcs in order**, and when
nothing waits all arcs are consistent. -/
theorem Awaits.leads (h : p.Awaits q u) (hfull : p.closure = .full)
    (hsym : p.network.IsSymmetric) {s : Step} (hs : Stepped p q u s) :
    s.Leads p.Awaits
      (fun ok t => ok = true → ∀ a c, p.network.find? a = some c →
        t.arena.Consistent c a) u := by
  cases hs with
  | settled hnil =>
      intro _ a c hc
      rcases h a c hc with hq | hq | hcons
      · simp [hnil] at hq
      · simp [hnil] at hq
      · exact hcons
  | barren hpop hempty => exact fun hok => (nomatch hok)
  | emptied hpop hfind hrevised hempty => exact fun hok => (nomatch hok)
  | free hpop hfind =>
      intro b d hd
      rcases h b d hd with hq | hq | hcons
      · rcases (Agenda.mem_of_pop? hpop).mp hq with rfl | hq
        · rw [hfind] at hd
          cases hd
        · exact Or.inl hq
      · rcases (Agenda.mem_of_pop? hpop).mp hq with hba | hq
        · obtain ⟨_, e, he, _⟩ := hsym b d hd
          rw [hba, hfind] at he
          cases he
        · exact Or.inr (Or.inl hq)
      · exact Or.inr (Or.inr hcons)
  | idle hpop hfind hrevised hsame =>
      exact h.revised hsym hpop hfind hrevised (fun b hb => hb)
        (fun b _ _ _ _ z hz => hrevised.effective_of_isUnchanged hsame hz)
  | changed hpop hfind hrevised hleft =>
      refine h.revised hsym hpop hfind hrevised
        (fun b hb => Agenda.mem_pushAll.mpr (Or.inl hb))
        (fun b hb hba hbr hq' => ?_)
      have hnot : b ∉ p.awakened _ _ := fun hb =>
        hq' (Agenda.mem_pushAll.mpr (Or.inr hb))
      exact hrevised.head_kept hfull (hsym _ _ hfind).1 hb hba hbr hnot

/-- **Full closure makes a symmetric network arc consistent**, if at the
beginning of each arc that is not the arc or its reverse waits. -/
theorem propagate_of_awaits (hfull : p.closure = .full)
    (hsym : p.network.IsSymmetric) (hcalm : w.arena.Calm)
    (hnet : p.network.Within w.arena.size)
    (hseed : ∀ a ∈ seed, a.Within w.arena.size)
    (hawaits : p.Awaits (.ofList seed) w) :
    ∃ ok u, p.propagate seed w = .ok (ok, u) ∧ Propagated p seed w ok u ∧
      (ok = true → ∀ a c, p.network.find? a = some c →
        u.arena.Consistent c a) := by
  obtain ⟨ok, u, _, hrun, hends⟩ := run_of_step (fun _ _ _ => ())
    (fun q u => Underway p seed w q u ∧ p.Awaits q u)
    (fun ok u => Propagated p seed w ok u ∧
      (ok = true → ∀ a c, p.network.find? a = some c → u.arena.Consistent c a))
    (fun q u ⟨hu, hq⟩ => by
      obtain ⟨s, hs, hstepped⟩ := step_of_calm (hu.later.calm hcalm)
        (fun a ha => hu.later.size.symm ▸ hu.waiting a ha)
      have hboth :=
        And.intro (hu.leads hnet hstepped) (hq.leads hfull hsym hstepped)
      exact ⟨s, hs, by cases s <;> exact hboth⟩) (.ofList seed) w ()
        ⟨.start hseed, hawaits⟩
  exact ⟨ok, u, by simp only [propagate, hrun, Except.map], hends⟩

/-- What full closure leaves of a symmetric network is the core of what there
was. -/
theorem Propagated.shown_iff (h : Propagated p seed w true u)
    (hsym : p.network.IsSymmetric)
    (hcons : ∀ a c, p.network.find? a = some c → u.arena.Consistent c a)
    {i : Nat} {v : Int} :
    v ∈ u.arena.effective i ↔ p.network.core w.arena.shown i v := by
  constructor
  · intro hv
    refine Network.le_core (F := u.arena.shown) ?_
      (fun j z hz => h.later.effective hz) hv
    intro a c hc z hz
    obtain ⟨_, y, hy, hzy⟩ := hcons a c hc z hz
    exact ⟨y, hy, hzy⟩
  · exact h.shows _ (Network.supported_core.balanced hsym)
      (fun j z hz => Network.core_le hz) i v

/-- If propagation fails, the core has an empty member. -/
theorem Propagated.exists_core_empty (h : Propagated p seed w false u)
    (hsym : p.network.IsSymmetric) :
    ∃ i, i < w.arena.size ∧ ∀ v, ¬ p.network.core w.arena.shown i v := by
  obtain ⟨i, hi, hempty⟩ := h.failed rfl
  refine ⟨i, hi, fun v hv => hempty v ?_⟩
  exact h.shows _ (Network.supported_core.balanced hsym)
    (fun j z hz => Network.core_le hz) i v hv

end Propagator

/-- Partitioned variables without gathered marks are calm. -/
theorem Variable.calm_of_isPartitioned {x : Variable} (h : x.isPartitioned)
    (hpending : x.pending = ∅) : x.Calm where
  pending := hpending
  not_pruned v hv hp := by
    simp only [isPartitioned, Bool.and_eq_true, List.all_eq_true,
      decide_eq_true_eq] at h
    exact h.1.2 v (Std.ExtTreeSet.mem_toList.mpr hp) hv

/-- **Full closure computes the core.**  The network of every instance is
symmetric.  On any symmetric network, from any list of arcs with all arcs of the
network on it, propagation succeeds just when the core of what the variables
show has no empty member, and then leaves the variables to show the core. -/
theorem propagate_full_iff_core :
    (∀ (c : Instance) (net : Network), c.buildNetwork = .ok net →
      net.IsSymmetric) ∧
    ∀ (net : Network) (seed : List Arc) (w : Workspace), net.IsSymmetric →
      net.Within w.arena.size →
      (∀ i x, w.arena.read i = .ok x →
        x.isPartitioned ∧ x.pending = ∅ ∧ x.isWipedOut = false) →
      (∀ a ∈ net.arcs, a ∈ seed) → (∀ a ∈ seed, a.Within w.arena.size) →
      ∃ ok u, Propagator.propagate ⟨net, .full⟩ seed w = .ok (ok, u) ∧
        (ok = true ↔ ∀ i, i < w.arena.size → ∃ v, net.core w.arena.shown i v) ∧
        (ok = true → ∀ i v, v ∈ u.arena.effective i ↔
          net.core w.arena.shown i v) := by
  refine ⟨fun c net h => Instance.isSymmetric_of_buildNetwork h, ?_⟩
  intro net seed w hsym hnet hvars hall hseed
  have hcalm : w.arena.Calm := fun i x hx =>
    Variable.calm_of_isPartitioned (hvars i x hx).1 (hvars i x hx).2.1
  have hawaits : Propagator.Awaits ⟨net, .full⟩ (.ofList seed) w :=
    fun a c hc =>
      Or.inl (Agenda.mem_ofList.mpr (hall a (Network.mem_arcs_of_find? hc)))
  obtain ⟨ok, u, hrun, hpropagated, hcons⟩ :=
    Propagator.propagate_of_awaits (p := ⟨net, .full⟩) rfl hsym hcalm hnet
      hseed hawaits
  refine ⟨ok, u, hrun, ?_, ?_⟩
  · cases ok with
    | false =>
        obtain ⟨i, hi, hempty⟩ := hpropagated.exists_core_empty hsym
        refine ⟨fun h => (nomatch h), fun h => ?_⟩
        obtain ⟨v, hv⟩ := h i hi
        exact absurd hv (hempty v)
    | true =>
        refine ⟨fun _ i hi => ?_, fun _ => rfl⟩
        obtain ⟨x, hx⟩ := Arena.exists_read hi
        obtain ⟨v, hv⟩ := Variable.exists_mem_effective (hvars i x hx).2.2
        rw [← Arena.effective_of_read hx] at hv
        obtain ⟨z, hz⟩ := hpropagated.left rfl i v hv
        exact ⟨z, (hpropagated.shown_iff hsym (hcons rfl)).mp hz⟩
  · rintro rfl i v
    exact hpropagated.shown_iff hsym (hcons rfl)

/-- A case with a variable that is assigned already, and with repeats on the
list. -/
theorem propagate_full_iff_core_of_assigned :
    let net := Instance.coupleNetwork
    let w : Workspace :=
      { arena := .ofList [.ofBounds 0 0 2, (Variable.ofBounds 1 0 2).assign 2] }
    ∃ ok u, Propagator.propagate ⟨net, .full⟩ [⟨1, 0⟩, ⟨0, 1⟩, ⟨1, 0⟩] w =
        .ok (ok, u) ∧
      (ok = true ↔ ∀ i, i < w.arena.size → ∃ v, net.core w.arena.shown i v) ∧
      (ok = true → ∀ i v, v ∈ u.arena.effective i ↔
        net.core w.arena.shown i v) := by
  intro net w
  have harcs : net.arcs = [⟨0, 1⟩, ⟨1, 0⟩] := Instance.arcs_couple
  have hbuild : Instance.couple.buildNetwork = .ok net := rfl
  refine propagate_full_iff_core.2 net _ w
    (propagate_full_iff_core.1 _ net hbuild) ?_ ?_ ?_ ?_
  · intro a ha
    rw [harcs] at ha
    revert a
    decide
  · intro i x hx
    match i, hx with
    | 0, hx =>
      cases hx
      decide +kernel
    | 1, hx =>
      cases hx
      decide +kernel
  · rw [harcs]
    decide
  · decide

end ConstraintNet
