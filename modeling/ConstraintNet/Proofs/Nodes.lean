import ConstraintNet.Proofs.Assignments
import ConstraintNet.Search

/-!
# The variables at a node

At every node of a search the variables are orderly: they stand in their places,
each is settled, an assigned value is live, and a value that an open choice
tried is the assigned one or was pruned since.  They agree with a network when
an assigned value allows all that shows at the far end of its arcs.

A decision, one way or the other, keeps both if its propagation succeeds, and
excludes no assignment that goes with it and holds on the network.  If it fails
there is no such assignment.
-/

namespace ConstraintNet

/-- What holds of the variables at every node, whatever the network. -/
structure Arena.Orderly (m : Arena) : Prop where
  numbered : ∀ i x, m.read i = .ok x → x.id = i
  settled : ∀ i x, m.read i = .ok x → x.Settled
  live : ∀ i x v, m.read i = .ok x → x.value = some v → v ∈ x.live
  tried : ∀ i x v, m.read i = .ok x → v ∈ x.tried.values → v ∈ x.domain →
    x.value = some v

/-- An assigned value goes with all that shows at the heads of its arcs. -/
def Arena.Agrees (m : Arena) (net : Network) : Prop :=
  ∀ a c, net.find? a = some c →
    ∀ x v, m.read a.tail = .ok x → x.value = some v →
    ∀ z ∈ m.effective a.head, (v, z) ∈ c.pairs

namespace Arena

variable {m k : Arena} {net : Network} {i : Nat} {x y : Variable} {v : Int}

theorem Orderly.calm (h : m.Orderly) : m.Calm :=
  fun i x hx => (h.settled i x hx).calm

/-- Of a variable without value no live value was tried by an open choice. -/
theorem Orderly.untried (h : m.Orderly) (hx : m.read i = .ok x)
    (hvalue : x.value = none) (hv : v ∈ x.live) : v ∉ x.tried.values := by
  intro htried
  have hassigned := h.tried i x v hx htried (Variable.mem_live.mp hv).1
  rw [hvalue] at hassigned
  cases hassigned

/-- Alike arenas can be read either way. -/
theorem Alike.read_back (h : m.Alike k) (hy : k.read i = .ok y) :
    ∃ x, m.read i = .ok x ∧ x.Alike y := by
  obtain ⟨x, hx⟩ := exists_read (h.size ▸ lt_of_read hy)
  obtain ⟨y', hy', hxy⟩ := h.read i x hx
  exact ⟨x, hx, read_unique hy' hy ▸ hxy⟩

/-- Which variables have values is the same in alike arenas. -/
theorem Alike.isComplete (h : m.Alike k) : k.isComplete = m.isComplete := by
  rw [Bool.eq_iff_iff, isComplete_iff, isComplete_iff]
  constructor
  · intro hk i x hx
    obtain ⟨y, hy, hxy⟩ := h.read i x hx
    have := hk i y hy
    rwa [Variable.isAssigned, hxy.value] at this
  · intro hm i y hy
    obtain ⟨x, hx, hxy⟩ := h.read_back hy
    have := hm i x hx
    rwa [Variable.isAssigned, ← hxy.value] at this

/-- Alike variables in one place of alike arenas. -/
theorem Alike.write (h : m.Alike k) (hi : i < m.size) (hxy : x.Alike y) :
    (m.write i x).Alike (k.write i y) where
  size := by rw [size_write, size_write, h.size]
  read j z hz := by
    rcases (read_write hi).mp hz with ⟨rfl, rfl⟩ | ⟨hne, hz⟩
    · exact ⟨y, read_write_self (h.size.symm ▸ hi) y, hxy⟩
    · obtain ⟨z', hz', hzz⟩ := h.read j z hz
      exact ⟨z', (read_write (h.size.symm ▸ hi)).mpr (Or.inr ⟨hne, hz'⟩), hzz⟩

/-! ## Open choices -/

/-- Assigning a live value to a variable without value keeps an arena
orderly. -/
theorem Orderly.write_assign (hm : m.Orderly) (hx : m.read i = .ok x)
    (hvalue : x.value = none) (hv : v ∈ x.live) :
    (m.write i (x.assign v)).Orderly := by
  have hi : i < m.size := lt_of_read hx
  constructor
  · intro j y hy
    rcases (read_write hi).mp hy with ⟨rfl, rfl⟩ | ⟨_, hy⟩
    · exact hm.numbered j x hx
    · exact hm.numbered j y hy
  · intro j y hy
    rcases (read_write hi).mp hy with ⟨rfl, rfl⟩ | ⟨_, hy⟩
    · exact { hm.settled j x hx with }
    · exact hm.settled j y hy
  · intro j y u hy hu
    rcases (read_write hi).mp hy with ⟨rfl, rfl⟩ | ⟨_, hy⟩
    · cases hu
      exact hv
    · exact hm.live j y u hy hu
  · intro j y u hy htried hdomain
    rcases (read_write hi).mp hy with ⟨rfl, rfl⟩ | ⟨_, hy⟩
    · rcases List.mem_cons.mp htried with rfl | htried
      · rfl
      · have := hm.tried j x u hx htried hdomain
        rw [hvalue] at this
        cases this
    · exact hm.tried j y u hy htried hdomain

/-- An assignment is admitted with the choice when it is admitted and makes the
choice. -/
theorem admits_write_assign (hx : m.read i = .ok x) (hvalue : x.value = none)
    (hv : v ∈ x.live) {τ : Nat → Int} :
    (m.write i (x.assign v)).Admits τ ↔ m.Admits τ ∧ τ i = v := by
  have hi : i < m.size := lt_of_read hx
  have hassigned : ∀ u, u ∈ (x.assign v).effective ↔ u = v := by
    intro u
    rw [Variable.mem_effective]
    constructor
    · exact fun h => h.2 v rfl
    · intro heq
      subst heq
      exact ⟨hv, fun w hw => Option.some.inj hw⟩
  constructor
  · intro h
    have hτ : τ i = v := by
      have := h i ((size_write m i _).symm ▸ hi)
      rwa [effective_write_self hi, hassigned] at this
    refine ⟨fun j hj => ?_, hτ⟩
    by_cases hji : i = j
    · subst hji
      rw [hτ, effective_of_read hx]
      exact (Variable.mem_effective_of_value_eq_none hvalue).mpr hv
    · rw [← effective_write_of_ne (a := m) (y := x.assign v) hji]
      exact h j ((size_write m i _).symm ▸ hj)
  · rintro ⟨h, hτ⟩ j hj
    rw [size_write] at hj
    by_cases hji : i = j
    · subst hji
      rw [effective_write_self hi, hassigned]
      exact hτ
    · rw [effective_write_of_ne hji]
      exact h j hj

/-- The choice shows no more than there was. -/
theorem effective_write_assign (hx : m.read i = .ok x) (hvalue : x.value = none)
    {j : Nat} {z : Int} (hz : z ∈ (m.write i (x.assign v)).effective j) :
    z ∈ m.effective j := by
  by_cases hji : i = j
  · subst hji
    rw [effective_write_self (lt_of_read hx)] at hz
    rw [effective_of_read hx]
    exact (Variable.mem_effective_of_value_eq_none hvalue).mpr
      (Variable.mem_effective.mp hz).1
  · rwa [effective_write_of_ne hji] at hz

end Arena

/-! ## After propagation -/

namespace Workspace.Later

variable {w u : Workspace} {net : Network}

/-- Excluding values keeps an arena in order, if something is left to every
variable that had anything. -/
theorem orderly (h : w.Later u) (hw : w.arena.Orderly)
    (hleft : ∀ i v, v ∈ w.arena.effective i → ∃ z, z ∈ u.arena.effective i) :
    u.arena.Orderly where
  numbered i y hy := by
    obtain ⟨x, _, _, hx, hxy⟩ := h.read_back hy
    exact hxy.id.trans (hw.numbered i x hx)
  settled i y hy := by
    obtain ⟨x, _, _, hx, hxy⟩ := h.read_back hy
    exact hxy.settled (hw.settled i x hx)
  live i y v hy hvalue := by
    obtain ⟨x, _, _, hx, hxy⟩ := h.read_back hy
    have hxv : x.value = some v := hxy.value ▸ hvalue
    have hshown : v ∈ w.arena.effective i := by
      rw [Arena.effective_of_read hx, Variable.mem_effective]
      refine ⟨hw.live i x v hx hxv, fun u hu => ?_⟩
      rw [hxv] at hu
      exact Option.some.inj hu
    obtain ⟨z, hz⟩ := hleft i v hshown
    rw [Arena.effective_of_read hy, Variable.mem_effective] at hz
    exact hz.2 v hvalue ▸ hz.1
  tried i y v hy htried hdomain := by
    obtain ⟨x, _, _, hx, hxy⟩ := h.read_back hy
    rw [hxy.value]
    exact hw.tried i x v hx (hxy.tried ▸ htried) (hxy.domain v hdomain)

/-- What was excluded for lack of support stays without support. -/
theorem agrees (h : w.Later u) (hw : w.arena.Agrees net) :
    u.arena.Agrees net := by
  intro a c hc y v hy hvalue z hz
  obtain ⟨x, _, _, hx, hxy⟩ := h.read_back hy
  exact hw a c hc x v hx (hxy.value ▸ hvalue) z (h.effective hz)

end Workspace.Later

/-- An assignment that holds is a balanced family. -/
theorem Network.Holds.balanced {net : Network} {τ : Nat → Int} (h : net.Holds τ)
    {n : Nat} (hnet : net.Within n) :
    net.Balanced fun i v => i < n ∧ v = τ i := by
  intro a c hc
  obtain ⟨htail, hhead⟩ := hnet a (mem_arcs_of_find? hc)
  refine ⟨?_, ?_⟩
  · rintro v ⟨_, rfl⟩
    exact ⟨τ a.head, ⟨hhead, rfl⟩, h a c hc⟩
  · rintro z ⟨_, rfl⟩
    exact ⟨τ a.tail, ⟨htail, rfl⟩, h a c hc⟩

/-- Propagation loses no solution. -/
theorem Propagator.Propagated.admits {p : Propagator} {seed : List Arc}
    {w u : Workspace} {ok : Bool} (h : Propagated p seed w ok u)
    (hnet : p.network.Within w.arena.size) {τ : Nat → Int}
    (hτ : p.network.Holds τ) : u.arena.Admits τ ↔ w.arena.Admits τ := by
  refine ⟨h.later.admits, fun hw i hi => ?_⟩
  refine h.shows _ (hτ.balanced hnet) ?_ i (τ i) ⟨h.later.size ▸ hi, rfl⟩
  rintro j v ⟨hj, rfl⟩
  exact hw j hj

/-- Where propagation fails, no solution was left. -/
theorem Propagator.Propagated.not_admits {p : Propagator} {seed : List Arc}
    {w u : Workspace} (h : Propagated p seed w false u)
    (hnet : p.network.Within w.arena.size) {τ : Nat → Int}
    (hτ : p.network.Holds τ) : ¬ w.arena.Admits τ := by
  intro hw
  obtain ⟨i, hi, hempty⟩ := h.failed rfl
  exact hempty (τ i) ((h.admits hnet hτ).mpr hw i (h.later.size.symm ▸ hi))

end ConstraintNet
