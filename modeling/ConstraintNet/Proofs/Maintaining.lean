import ConstraintNet.Proofs.Narrowing

/-!
# Arc consistency, maintained

A call of a search is reached by a path of decisions: it lies on the left branch
of some of the calls above it and on the right branch of the others.  The box of
a path holds the initial values that all its decisions allow.

Where consistency is maintained, the variables at a call show the core of the
box of its path, and something of each variable.  A branch on which the search
does not go on is one whose box has a core with an empty member.  One decision
keeps this, and so every path does.
-/

namespace ConstraintNet

/-! ## Paths -/

namespace Branching

variable {σ : Type} {b : Branching σ} {r c : Call σ}

/-- The call `c` is reached from the call `r` by these decisions, the last one
first. -/
inductive Path (b : Branching σ) (r : Call σ) : List Decision → Call σ → Prop
  | nil : Path b r [] r
  | cons {ds : List Decision} {c c' : Call σ} {d : Decision}
      (hpath : Path b r ds c)
      (hexplores : b.Explores c d true c') : Path b r (d :: ds) c'

/-- A path leads to each call below. -/
theorem reaches_iff : b.Reaches r c ↔ ∃ ds, b.Path r ds c := by
  constructor
  · intro h
    induction h with
    | refl => exact ⟨[], .nil⟩
    | tail _ henters ih =>
        obtain ⟨ds, hpath⟩ := ih
        obtain ⟨d, hexplores⟩ := enters_iff.mp henters
        exact ⟨d :: ds, .cons hpath hexplores⟩
  · rintro ⟨ds, hpath⟩
    induction hpath with
    | nil => exact .refl
    | cons _ hexplores ih => exact ih.tail (enters_iff.mpr ⟨_, hexplores⟩)

end Branching

/-! ## The core of a box -/

/-- The initial values that all the decisions allow. -/
def Arena.box (m : Arena) (ds : List Decision) (i : Nat) (v : Int) : Prop :=
  (∃ x, m.read i = .ok x ∧ v ∈ x.initial) ∧ ∀ d ∈ ds, d.Allows i v

/-- The variables show the core of the bounds, and something each. -/
structure Arena.ShowsCore (m : Arena) (net : Network) (B : Nat → Int → Prop) :
    Prop where
  shown_iff : ∀ i v, v ∈ m.effective i ↔ net.core B i v
  whole : m.Whole

/-- A larger box has a larger core. -/
theorem Network.core_mono {net : Network} {B C : Nat → Int → Prop}
    (h : ∀ i v, B i v → C i v) {i : Nat} {v : Int} (hv : net.core B i v) :
    net.core C i v :=
  le_core supported_core (fun j u hu => h j u (core_le hu)) hv

namespace Arena

variable {m k : Arena} {net : Network} {B C : Nat → Int → Prop} {d : Decision}
  {ds : List Decision}

/-- A decision more restricts the box at one variable. -/
theorem box_cons :
    m.box (d :: ds) = fun i v => m.box ds i v ∧ d.Allows i v := by
  funext i v
  rw [box, box, List.forall_mem_cons, and_assoc, and_comm (a := d.Allows i v)]

/-- A core is arc consistent. -/
theorem ShowsCore.arcConsistent (h : m.ShowsCore net B) :
    m.ArcConsistent net := by
  intro a c hc v hv
  obtain ⟨z, hz, hvz⟩ :=
    Network.supported_core a c hc v ((h.shown_iff _ _).mp hv)
  exact ⟨hv, z, (h.shown_iff _ _).mpr hz, hvz⟩

/-- An arc consistent arena that shows the core of its bounds, and no more than
these. -/
theorem shown_iff_core (hcons : k.ArcConsistent net)
    (hbound : ∀ i v, v ∈ k.effective i → B i v)
    (hkept : ∀ i v, net.core B i v → v ∈ k.effective i) (i : Nat) (v : Int) :
    v ∈ k.effective i ↔ net.core B i v := by
  exact ⟨fun hv => Network.le_core hcons.supported hbound hv, hkept i v⟩

end Arena

namespace Narrowed

variable {p : Propagator} {m k : Arena} {d : Decision} {ok : Bool}
  {B : Nat → Int → Prop}

/-- What a decision leaves of a core has in it the core within the decision. -/
theorem core_le_shown (h : Narrowed p m d ok k) (hsym : p.network.IsSymmetric)
    (hm : m.ShowsCore p.network B) {i : Nat} {v : Int}
    (hv : p.network.core (fun i v => B i v ∧ d.Allows i v) i v) :
    v ∈ k.effective i := by
  refine h.kept _ (Network.supported_core.balanced hsym)
    (fun j u hu => ⟨?_, ?_⟩) i v hv
  · exact (hm.shown_iff j u).mpr (Network.core_mono (fun _ _ hB => hB.1) hu)
  · exact (Network.core_le hu).2

/-- **One decision keeps the core**, if propagation lets it stand. -/
theorem showsCore (h : Narrowed p m d true k) (hfull : p.closure = .full)
    (hsym : p.network.IsSymmetric) (hm : m.ShowsCore p.network B) :
    k.ShowsCore p.network fun i v => B i v ∧ d.Allows i v where
  shown_iff := by
    refine Arena.shown_iff_core (h.consistent rfl hfull hsym hm.arcConsistent)
      (fun i v hv => ?_) fun i v hv => h.core_le_shown hsym hm hv
    obtain ⟨hshown, hallows⟩ := h.shown i v hv
    exact ⟨Network.core_le ((hm.shown_iff i v).mp hshown), hallows⟩
  whole := h.whole rfl hm.whole

/-- If propagation does not, the core has an empty member. -/
theorem exists_core_empty (h : Narrowed p m d false k)
    (hsym : p.network.IsSymmetric) (hm : m.ShowsCore p.network B) :
    ∃ i, i < m.size ∧ ∀ v, ¬ p.network.core
      (fun i v => B i v ∧ d.Allows i v) i v := by
  obtain ⟨i, hi, hempty⟩ := h.failed rfl
  exact ⟨i, hi, fun v hv => hempty v (h.core_le_shown hsym hm hv)⟩

end Narrowed

/-- **Every path keeps the core of its box.** -/
theorem Branching.Path.showsCore {σ : Type} {b : Branching σ} {m : Arena}
    {r c : Call σ} {ds : List Decision} (h : b.Path r ds c)
    (hfull : b.propagator.closure = .full)
    (hsym : b.propagator.network.IsSymmetric) (hsafe : b.selector.IsSafe)
    (hr : b.Ready m r) (hsize : r.search.arena.size = m.size)
    (hcore : r.search.arena.ShowsCore b.propagator.network (m.box [])) :
    b.Ready m c ∧ c.search.arena.size = m.size ∧
      c.search.arena.ShowsCore b.propagator.network (m.box ds) := by
  induction h with
  | nil => exact ⟨hr, hsize, hcore⟩
  | @cons ds c c' d _ hexplores ih =>
      obtain ⟨hc, hsize, hcore⟩ := ih
      have hnarrowed := hexplores.narrowed hsafe hc
      exact ⟨hexplores.ready hsafe hc rfl, hnarrowed.size.trans hsize,
        Arena.box_cons ▸ hnarrowed.showsCore hfull hsym hcore⟩

namespace Branching

variable {σ : Type} {b : Branching σ} {m : Arena} {c c' : Call σ} {d : Decision}

/-- A ready call at which all arcs are consistent and something shows of each
variable. -/
structure Maintained (b : Branching σ) (m : Arena) (c : Call σ) : Prop where
  ready : b.Ready m c
  consistent : c.search.arena.ArcConsistent b.propagator.network
  whole : c.search.arena.Whole

/-- A branch that stands leads from such a call to such a call. -/
theorem Explores.maintained (h : b.Explores c d true c')
    (hfull : b.propagator.closure = .full)
    (hsym : b.propagator.network.IsSymmetric) (hsafe : b.selector.IsSafe)
    (hc : b.Maintained m c) : b.Maintained m c' := by
  have hnarrowed := h.narrowed hsafe hc.ready
  exact ⟨h.ready hsafe hc.ready rfl,
    hnarrowed.consistent rfl hfull hsym hc.consistent,
    hnarrowed.whole rfl hc.whole⟩

end Branching

/-! ## From the root -/

namespace Arena

variable {m : Arena}

/-- Fresh variables show their initial values. -/
theorem IsFresh.mem_effective (hm : m.IsFresh) {i : Nat} {v : Int} :
    v ∈ m.effective i ↔ m.box [] i v := by
  have hshown : ∀ x, m.read i = .ok x →
      (v ∈ m.effective i ↔ v ∈ x.initial) := by
    intro x hx
    rw [effective_of_read hx,
      Variable.mem_effective_of_value_eq_none (hm i x hx).value, hm.mem_live hx]
  simp only [box, List.not_mem_nil, false_implies, implies_true, and_true]
  constructor
  · intro hv
    obtain ⟨x, hx, _⟩ := read_of_mem_effective hv
    exact ⟨x, hx, (hshown x hx).mp hv⟩
  · rintro ⟨x, hx, hv⟩
    exact (hshown x hx).mpr hv

end Arena

namespace Algorithm

variable {σ : Type} {algorithm : Algorithm} {b : Branching σ} {m : Arena}
  {g : σ} {e : Call σ}

/-- One of the calls that a strategy makes, and the decisions that lead to
it. -/
def MakesAfter (algorithm : Algorithm) (b : Branching σ) (m : Arena) (g : σ)
    (ds : List Decision) (e : Call σ) : Prop :=
  ∃ r, Begins b m g algorithm r ∧ b.Path r ds e

/-- The calls that a strategy makes are those that it makes after some
decisions. -/
theorem makes_iff :
    algorithm.Makes b m g e ↔ ∃ ds, algorithm.MakesAfter b m g ds e := by
  constructor
  · rintro ⟨r, hbegins, hreaches⟩
    obtain ⟨ds, hpath⟩ := Branching.reaches_iff.mp hreaches
    exact ⟨ds, r, hbegins, hpath⟩
  · rintro ⟨ds, r, hbegins, hpath⟩
    exact ⟨r, hbegins, Branching.reaches_iff.mpr ⟨ds, hpath⟩⟩

/-- **The first call shows the core of the initial values.** -/
theorem Begins.showsCore {r : Call σ}
    (h : Begins b m g .maintainArcConsistency r)
    (hfull : b.propagator.closure = .full)
    (hsym : b.propagator.network.IsSymmetric) (hm : m.IsFresh)
    (hnumbered : m.IsNumbered) (hnet : b.propagator.network.Within m.size)
    (hwhole : m.Whole) :
    r.search.arena.ShowsCore b.propagator.network (m.box []) := by
  have hleft := h.whole hm hnumbered hnet hwhole
  cases h with
  | @maintainArcConsistency s hroot =>
      have hawaits : b.propagator.Awaits (.ofList b.propagator.network.arcs)
          (Search.begin m).toWorkspace :=
        fun a c hc =>
          Or.inl (Agenda.mem_ofList.mpr (Network.mem_arcs_of_find? hc))
      obtain ⟨ok, u, hrun, hp, hcons⟩ := Propagator.propagate_of_awaits
        (w := (Search.begin m).toWorkspace) hfull hsym
        (hm.orderly hnumbered).calm hnet hnet hawaits
      have hpropagate :
          (Search.begin m).propagate b.propagator b.propagator.network.arcs =
          .ok (true, s) := hroot
      rw [(Search.of_propagate_eq_ok hpropagate).1] at hrun
      cases hrun
      have hbox : (Search.begin m).arena.shown = m.box [] :=
        funext fun i => funext fun v => propext hm.mem_effective
      refine ⟨fun i v => ?_, hleft⟩
      rw [hp.shown_iff hsym (hcons rfl), hbox]

/-- The first call is one at which consistency is maintained. -/
theorem Begins.maintained {r : Call σ}
    (h : Begins b m g .maintainArcConsistency r)
    (hfull : b.propagator.closure = .full)
    (hposed : m.Posed b.propagator.network) : b.Maintained m r := by
  have hcore :=
    h.showsCore hfull hposed.symmetric hposed.fresh hposed.numbered
      hposed.within (hposed.fresh.whole hposed.inhabited)
  exact ⟨h.ready hposed.fresh hposed.numbered hposed.within,
    hcore.arcConsistent, hcore.whole⟩

/-- **Consistency is maintained**, although each decision is propagated from the
arcs of its variable only.  At every call that is made for an instance the
variables show the core of the box of the decisions that lead to it, and
something each.  A branch of such a call is given up just when the core of its
box has an empty member. -/
theorem maintains_core {c : Instance} {net : Network} {selector : Selector σ}
    (hbuild : c.build = .ok (m, net)) (hsafe : selector.IsSafe)
    (valueOrder : ValueOrder) (limit : Limit) (g : σ) :
    let b := maintainArcConsistency.branching selector valueOrder limit net
    (∀ e, maintainArcConsistency.Makes b m g e →
      ∃ ds, maintainArcConsistency.MakesAfter b m g ds e) ∧
    ∀ ds e, maintainArcConsistency.MakesAfter b m g ds e →
      (∀ i v, v ∈ e.search.arena.effective i ↔ net.core (m.box ds) i v) ∧
      (∀ i, i < m.size → ∃ v, v ∈ e.search.arena.effective i) ∧
      ∀ d ok e', b.Explores e d ok e' →
        (ok = false ↔ ∃ i, i < m.size ∧
          ∀ v, ¬ net.core (m.box (d :: ds)) i v) := by
  intro b
  refine ⟨fun e he => makes_iff.mp he, ?_⟩
  rintro ds e ⟨r, hbegins, hpath⟩
  obtain ⟨harena, hnetwork⟩ := Instance.of_build_eq_ok hbuild
  have hm : m.IsFresh := Instance.isFresh_of_buildArena harena
  have hnumbered : m.IsNumbered := Instance.isNumbered_of_buildArena harena
  have hsym : net.IsSymmetric := Instance.isSymmetric_of_buildNetwork hnetwork
  have hnet : net.Within m.size :=
    (Instance.read_of_buildArena harena).1.symm ▸
      Instance.within_of_buildNetwork hnetwork
  have hwhole : m.Whole :=
    hm.whole fun i x hx => Instance.exists_mem_initial_of_buildArena harena hx
  obtain ⟨he, hsize, hcore⟩ :=
    hpath.showsCore rfl hsym hsafe (hbegins.ready hm hnumbered hnet)
      (hbegins.size hm hnumbered hnet)
      (hbegins.showsCore rfl hsym hm hnumbered hnet hwhole)
  refine ⟨hcore.shown_iff, fun i hi => hcore.whole i (hsize.symm ▸ hi), ?_⟩
  intro d ok e' hexplores
  have hnarrowed := hexplores.narrowed hsafe he
  cases ok with
  | false =>
      refine ⟨fun _ => ?_, fun _ => rfl⟩
      rw [← hsize, Arena.box_cons]
      exact hnarrowed.exists_core_empty hsym hcore
  | true =>
      refine ⟨fun hok => (nomatch hok), ?_⟩
      rintro ⟨i, hi, hempty⟩
      have hshows := hnarrowed.showsCore rfl hsym hcore
      obtain ⟨v, hv⟩ := hshows.whole i (hnarrowed.size.symm ▸ hsize.symm ▸ hi)
      rw [Arena.box_cons] at hempty
      exact absurd ((hshows.shown_iff i v).mp hv) (hempty v)

/-- Two variables with one constraint between them, under the random and the
descending order, and with a first call. -/
theorem maintains_core_of_two :
    let net := Instance.coupleNetwork
    let m := Instance.coupleArena
    let b :=
      maintainArcConsistency.branching VariableOrder.random.select
        .descending .all net
    (∃ e, maintainArcConsistency.MakesAfter b m (.ofSeed 7) [] e) ∧
    ∀ ds e, maintainArcConsistency.MakesAfter b m (.ofSeed 7) ds e →
      (∀ i v, v ∈ e.search.arena.effective i ↔ net.core (m.box ds) i v) ∧
      (∀ i, i < m.size → ∃ v, v ∈ e.search.arena.effective i) ∧
      ∀ d ok e', b.Explores e d ok e' →
        (ok = false ↔ ∃ i, i < m.size ∧
          ∀ v, ¬ net.core (m.box (d :: ds)) i v) := by
  intro net m b
  have hbuild : Instance.couple.build = .ok (m, net) := Instance.build_couple
  have hposed : m.Posed net := Instance.posed_couple
  obtain ⟨e, hbegins⟩ :=
    exists_begins (b := b) maintainArcConsistency (.ofSeed 7) hposed.fresh
      hposed.numbered hposed.within Instance.solvedBy_couple
  exact ⟨⟨e, e, hbegins, .nil⟩,
    (maintains_core hbuild (VariableOrder.isLegal .random).isSafe
    .descending .all (.ofSeed 7)).2⟩

end Algorithm

end ConstraintNet
