import ConstraintNet.Proofs.Nodes

/-!
# Decisions

A node decides a variable both ways: on the left it accepts a value, on the
right it refutes it.  Either way the variables stay orderly and in agreement
with the network, if propagation succeeds, and the assignments admitted after it
are those that were admitted and go with the decision.  If propagation fails no
such assignment holds on the network.

Each decision takes one value from those that no open choice has tried.
-/

namespace ConstraintNet

/-! ## Untried values -/

/-- The number of values in the domain that no open choice has tried. -/
def Variable.untried (x : Variable) : Nat :=
  (x.domain.values.filter fun v => !x.wasTried v).size

/-- The depth that a search is given is one more than the values still
untried. -/
theorem Arena.depth_eq (m : Arena) :
    m.depth = 1 + total Variable.untried m.toList := rfl

namespace Variable

variable {x y : Variable} {v : Int}

/-- The values that count towards the depth are those in the domain that no open
choice tried. -/
theorem mem_filter_wasTried :
    v ∈ (x.domain.values.filter fun v => !x.wasTried v) ↔
    v ∈ x.domain ∧ v ∉ x.tried.values := by
  rw [ValueSet.mem_filter, Domain.mem_values,
    Bool.not_eq_true', ← Bool.not_eq_true, wasTried, Choices.contains_iff]

/-- A set of values within another has no more of them. -/
theorem size_le_of_mem {s t : ValueSet} (h : ∀ v, v ∈ s → v ∈ t) :
    s.size ≤ t.size := by
  have hs : s = t.filter (· ∈ s) := ValueSet.ext_mem fun v => by
    simp only [ValueSet.mem_filter, decide_eq_true_eq]
    exact ⟨fun hv => ⟨h v hv, hv⟩, fun hv => hv.2⟩
  rw [hs]
  exact ValueSet.size_filter_le _ t

/-- A variable that lost values and gained choices has no more values left to
try. -/
theorem untried_le (hdomain : ∀ v ∈ y.domain, v ∈ x.domain)
    (htried : ∀ v ∈ x.tried.values, v ∈ y.tried.values) :
    y.untried ≤ x.untried := by
  apply size_le_of_mem
  intro v hv
  obtain ⟨hd, ht⟩ := mem_filter_wasTried.mp hv
  exact mem_filter_wasTried.mpr ⟨hdomain v hd, fun h => ht (htried v h)⟩

/-- It has fewer if a value that could be tried is tried now. -/
theorem untried_lt (hdomain : ∀ v ∈ y.domain, v ∈ x.domain)
    (htried : ∀ v ∈ x.tried.values, v ∈ y.tried.values) (hv : v ∈ x.domain)
    (hnew : v ∉ x.tried.values) (htaken : v ∈ y.tried.values) :
    y.untried < x.untried := by
  have hlt :=
    ValueSet.size_filter_lt (p := (· != v)) (mem_filter_wasTried.mpr ⟨hv, hnew⟩)
      (by simp)
  refine Nat.lt_of_le_of_lt (size_le_of_mem fun w hw => ?_) hlt
  obtain ⟨hd, ht⟩ := mem_filter_wasTried.mp hw
  refine ValueSet.mem_filter.mpr
    ⟨mem_filter_wasTried.mpr ⟨hdomain w hd, fun h => ht (htried w h)⟩, ?_⟩
  rw [bne_iff_ne]
  intro heq
  subst heq
  exact ht htaken

end Variable

namespace Arena

variable {m k : Arena}

/-- Counts that are no greater variable by variable are no greater together, and
less if one of them is less. -/
theorem total_le_of_getElem? (count : Variable → Nat) : ∀ l l' : List Variable,
    l'.length = l.length →
    (∀ (i : Nat) (x y : Variable), l[i]? = some x → l'[i]? = some y →
      count y ≤ count x) →
    total count l' ≤ total count l ∧
      ∀ (i : Nat) (x y : Variable), l[i]? = some x → l'[i]? = some y →
        count y < count x →
        total count l' < total count l := by
  intro l
  induction l with
  | nil =>
      intro l' hlength _
      rw [List.eq_nil_of_length_eq_zero hlength]
      refine ⟨Nat.le_refl _, fun i x y hx => ?_⟩
      simp at hx
  | cons a l ih =>
      intro l' hlength hle
      cases l' with
      | nil => simp at hlength
      | cons b l' =>
          have hab : count b ≤ count a := hle 0 a b rfl rfl
          obtain ⟨hrest, hless⟩ := ih l' (by simpa using hlength)
            fun i x y hx hy =>
              hle (i + 1) x y (by simpa using hx) (by simpa using hy)
          simp only [total, List.foldr_cons] at hrest hless ⊢
          refine ⟨by omega, fun i x y hx hy hlt => ?_⟩
          cases i with
          | zero =>
              simp only [List.getElem?_cons_zero, Option.some.injEq] at hx hy
              subst hx
              subst hy
              omega
          | succ i =>
              have := hless i x y (by simpa using hx) (by simpa using hy) hlt
              omega

/-- Listing the variables keeps each at its position. -/
theorem getElem?_toList {i : Nat} {x : Variable} :
    m.toList[i]? = some x ↔ m.read i = .ok x := by
  rw [toList, Array.getElem?_toList, read_eq_ok]

/-- The depth does not grow when no variable gets more untried values. -/
theorem depth_le (hsize : k.size = m.size)
    (h : ∀ i x y, m.read i = .ok x → k.read i = .ok y → y.untried ≤ x.untried) :
    k.depth ≤ m.depth := by
  have := (total_le_of_getElem? Variable.untried m.toList k.toList hsize
    fun i x y hx hy =>
      h i x y (getElem?_toList.mp hx) (getElem?_toList.mp hy)).1
  rw [depth_eq, depth_eq]
  omega

/-- It gets less when one variable has fewer of them. -/
theorem depth_lt (hsize : k.size = m.size)
    (h : ∀ i x y, m.read i = .ok x → k.read i = .ok y → y.untried ≤ x.untried)
    {i : Nat} {x y : Variable} (hx : m.read i = .ok x) (hy : k.read i = .ok y)
    (hlt : y.untried < x.untried) : k.depth < m.depth := by
  have := (total_le_of_getElem? Variable.untried m.toList k.toList hsize
    fun i x y hx hy =>
      h i x y (getElem?_toList.mp hx) (getElem?_toList.mp hy)).2 i x y
      (getElem?_toList.mpr hx) (getElem?_toList.mpr hy) hlt
  rw [depth_eq, depth_eq]
  omega

/-- The depth is the same where the variables look alike, since it asks for
members and not for the shape of a domain. -/
theorem Alike.depth (h : m.Alike k) : k.depth = m.depth := by
  have hle : ∀ {m k : Arena}, m.Alike k → k.depth ≤ m.depth := by
    intro m k h
    refine depth_le h.size fun i x y hx hy => ?_
    obtain ⟨y', hy', hxy⟩ := h.read i x hx
    rw [read_unique hy hy']
    exact Variable.untried_le (fun v hv => (hxy.domain v).mp hv) fun v hv =>
      hxy.tried ▸ hv
  exact Nat.le_antisymm (hle h) (hle h.symm)

/-- An open choice of an untried value takes from the depth. -/
theorem depth_write_opened_lt {i : Nat} {x y : Variable} {v : Int}
    (hx : m.read i = .ok x) (hv : v ∈ x.domain) (hnew : v ∉ x.tried.values)
    (hdomain : y.domain = x.domain) (htried : y.tried = x.tried.push v) :
    (m.write i y).depth < m.depth := by
  have hi : i < m.size := lt_of_read hx
  have hlt : y.untried < x.untried :=
    Variable.untried_lt (fun w hw => hdomain ▸ hw)
      (fun w hw => htried ▸ List.mem_cons_of_mem v hw) hv hnew
      (htried ▸ List.mem_cons_self)
  refine depth_lt (size_write m i y) (fun j z z' hz hz' => ?_) hx
    (read_write_self hi y) hlt
  rcases (read_write hi).mp hz' with ⟨rfl, rfl⟩ | ⟨_, hz'⟩
  · rw [read_unique hz hx]
    exact Nat.le_of_lt hlt
  · exact Nat.le_of_eq (congrArg Variable.untried (read_unique hz' hz))

end Arena

/-- Exclusions take values away, so that the depth does not grow. -/
theorem Workspace.Later.depth_le {w u : Workspace} (h : w.Later u) :
    u.arena.depth ≤ w.arena.depth := by
  refine Arena.depth_le h.size fun i x y hx hy => ?_
  obtain ⟨x', _, _, hx', hxy⟩ := h.read_back hy
  rw [Arena.read_unique hx hx']
  exact Variable.untried_le hxy.domain fun v hv => hxy.tried ▸ hv

/-! ## Operations of a search on its workspace -/

namespace Search

variable {s : Search} {w : Workspace} {m : Arena} {i : Nat} {x y : Variable}
  {v : Int}

/-- An operation on the workspace that succeeds makes a search with the
solutions it had. -/
theorem modify_eq {f : Workspace → Except Fault Workspace}
    (h : f s.toWorkspace = .ok w) : s.modify f = .ok ⟨w, s.solutions⟩ := by
  simp only [modify, h, Except.map]

/-- The same where the operation answers something. -/
theorem adjust_eq {α : Type} {f : Workspace → Except Fault (α × Workspace)}
    {r : α} (h : f s.toWorkspace = .ok (r, w)) :
    s.adjust f = .ok (r, ⟨w, s.solutions⟩) := by
  simp only [adjust, h, Except.map]

/-- What an operation on the workspace that succeeded made of the search. -/
theorem of_modify_eq_ok {t : Search} {f : Workspace → Except Fault Workspace}
    (h : s.modify f = .ok t) :
    f s.toWorkspace = .ok t.toWorkspace ∧ t.solutions = s.solutions := by
  unfold modify at h
  cases hf : f s.toWorkspace with
  | error e =>
      simp only [hf, Except.map] at h
      cases h
  | ok w =>
      simp only [hf, Except.map] at h
      cases h
      exact ⟨rfl, rfl⟩

/-- An operation on the workspace that succeeded found no solution. -/
theorem of_adjust_eq_ok {α : Type} {t : Search}
    {f : Workspace → Except Fault (α × Workspace)} {r : α}
    (h : s.adjust f = .ok (r, t)) :
    f s.toWorkspace = .ok (r, t.toWorkspace) ∧ t.solutions = s.solutions := by
  unfold adjust at h
  cases hf : f s.toWorkspace with
  | error e =>
      simp only [hf, Except.map] at h
      cases h
  | ok p =>
      simp only [hf, Except.map] at h
      cases h
      exact ⟨rfl, rfl⟩

/-- Nor did propagation: what it changed is the workspace. -/
theorem of_propagate_eq_ok {t : Search} {p : Propagator} {seed : List Arc}
    {ok : Bool} (h : s.propagate p seed = .ok (ok, t)) :
    p.propagate seed s.toWorkspace = .ok (ok, t.toWorkspace) ∧
    t.solutions = s.solutions :=
  of_adjust_eq_ok (f := p.propagate seed) h

/-- The search with another variable at a position. -/
def write (s : Search) (i : Nat) (x : Variable) : Search :=
  ⟨⟨s.arena.write i x, s.trail, s.tally⟩, s.solutions⟩

/-- A change of one variable that succeeds shows in its place and nowhere
else. -/
theorem modify_read_eq {f : Variable → Except Fault Variable}
    (hx : s.arena.read i = .ok x) (hf : f x = .ok y) :
    s.modify (·.modify i f) = .ok (s.write i y) := by
  refine modify_eq (w := ⟨s.arena.write i y, s.trail, s.tally⟩) ?_
  simp only [Workspace.modify, Arena.modify_eq hx hf, Except.map]

/-- Assigning always succeeds where there is a variable. -/
theorem assign_eq (hx : s.arena.read i = .ok x) (v : Int) :
    s.assign i v = .ok (s.write i (x.assign v)) := modify_read_eq hx rfl

/-- So does taking the value away. -/
theorem unassign_eq (hx : s.arena.read i = .ok x) :
    s.unassign i = .ok (s.write i x.unassign) := modify_read_eq hx rfl

/-- A choice can be retired if there is one. -/
theorem retire_eq (hx : s.arena.read i = .ok x) (hretire : x.retire = .ok y) :
    s.retire i = .ok (s.write i y) := modify_read_eq hx hretire

end Search

/-! ## Both ways of deciding -/

/-- Variable `x` at position `i` has no value yet, and `v` is one of its live
values, not tried by any open choice. -/
structure Arena.Offers (m : Arena) (i : Nat) (x : Variable) (v : Int) :
    Prop where
  read : m.read i = .ok x
  value : x.value = none
  live : v ∈ x.live
  untried : v ∉ x.tried.values

/-- An offered value shows. -/
theorem Arena.Offers.mem_effective {m : Arena} {i : Nat} {x : Variable}
    {v : Int} (h : m.Offers i x v) : v ∈ m.effective i := by
  rw [effective_of_read h.read]
  exact (Variable.mem_effective_of_value_eq_none h.value).mpr h.live

/-- What holds of a search at every node. -/
structure Search.Sound (s : Search) (net : Network) : Prop where
  orderly : s.arena.Orderly
  agrees : s.arena.Agrees net
  within : net.Within s.arena.size

theorem Search.Sound.node {s : Search} {net : Network} (h : s.Sound net) :
    s.node.Sound net :=
  ⟨h.orderly, h.agrees, h.within⟩

/-- `k` is the arena `m`, with the value `v` of variable `x` at position `i`
tried, given up and pruned, which made `y` of the variable. -/
structure Arena.Refuted (m k : Arena) (i : Nat) (x : Variable) (v : Int)
    (y : Variable) : Prop where
  size : k.size = m.size
  read : k.read i = .ok y
  other : ∀ j z, j ≠ i → k.read j = .ok z → ∃ z', m.read j = .ok z' ∧ z'.Alike z
  id : y.id = x.id
  value : y.value = none
  settled : y.Settled
  tried : y.tried = x.tried.push v
  domain : ∀ u, u ∈ y.domain ↔ u ∈ x.domain ∧ u ≠ v
  live : ∀ u, u ∈ y.live ↔ u ∈ x.live ∧ u ≠ v

namespace Arena.Refuted

variable {m k : Arena} {net : Network} {i : Nat} {x y : Variable} {v : Int}

/-- What stands in the arena afterwards is either the variable that was refuted,
or looks like what stood there before. -/
theorem read_back (h : m.Refuted k i x v y) {j : Nat} {z : Variable}
    (hz : k.read j = .ok z) :
    j = i ∧ z = y ∨ j ≠ i ∧ ∃ z', m.read j = .ok z' ∧ z'.Alike z := by
  by_cases hji : j = i
  · subst hji
    exact Or.inl ⟨rfl, read_unique hz h.read⟩
  · exact Or.inr ⟨hji, h.other j z hji hz⟩

/-- The refuted value is out of the domain, and nothing else was tried in it. -/
theorem orderly (h : m.Refuted k i x v y) (ho : m.Offers i x v)
    (hm : m.Orderly) : k.Orderly := by
  constructor
  · intro j z hz
    rcases h.read_back hz with ⟨rfl, rfl⟩ | ⟨_, z', hz', hzz⟩
    · exact h.id.trans (hm.numbered j x ho.read)
    · exact hzz.id.trans (hm.numbered j z' hz')
  · intro j z hz
    rcases h.read_back hz with ⟨rfl, rfl⟩ | ⟨_, z', hz', hzz⟩
    · exact h.settled
    · exact hzz.settled (hm.settled j z' hz')
  · intro j z u hz hu
    rcases h.read_back hz with ⟨rfl, rfl⟩ | ⟨_, z', hz', hzz⟩
    · rw [h.value] at hu
      cases hu
    · rw [hzz.live]
      exact hm.live j z' u hz' (hzz.value ▸ hu)
  · intro j z u hz htried hdomain
    rcases h.read_back hz with ⟨rfl, rfl⟩ | ⟨_, z', hz', hzz⟩
    · rw [h.tried] at htried
      obtain ⟨hdomain, hne⟩ := (h.domain u).mp hdomain
      have htried : u ∈ x.tried.values :=
        (List.mem_cons.mp htried).resolve_left hne
      have hvalue := hm.tried j x u ho.read htried hdomain
      rw [ho.value] at hvalue
      cases hvalue
    · rw [hzz.value]
      exact hm.tried j z' u hz' (hzz.tried ▸ htried) ((hzz.domain u).mp hdomain)

/-- What shows is what showed before, but for the value that was refuted. -/
theorem mem_effective (h : m.Refuted k i x v y) (ho : m.Offers i x v) {j : Nat}
    {z : Int} : z ∈ k.effective j ↔ z ∈ m.effective j ∧ (j = i → z ≠ v) := by
  by_cases hji : j = i
  · subst hji
    rw [effective_of_read h.read, effective_of_read ho.read,
      Variable.mem_effective_of_value_eq_none h.value,
      Variable.mem_effective_of_value_eq_none ho.value, h.live]
    simp
  · have hsame : k.effective j = m.effective j := by
      by_cases hj : j < k.size
      · obtain ⟨z, hz⟩ := exists_read hj
        obtain ⟨z', hz', hzz⟩ := h.other j z hji hz
        rw [effective_of_read hz, effective_of_read hz', hzz.effective]
      · refine ValueSet.ext_mem fun u => ⟨fun hu => ?_, fun hu => ?_⟩
        · obtain ⟨z, hz, _⟩ := read_of_mem_effective hu
          exact absurd (lt_of_read hz) hj
        · obtain ⟨z, hz, _⟩ := read_of_mem_effective hu
          exact absurd (h.size.symm ▸ lt_of_read hz) hj
    rw [hsame]
    simp [hji]

/-- Values still go with what shows, for less shows than before. -/
theorem agrees (h : m.Refuted k i x v y) (ho : m.Offers i x v)
    (hm : m.Agrees net) : k.Agrees net := by
  intro a c hc z u hz hu e he
  rcases h.read_back hz with ⟨_, rfl⟩ | ⟨_, z', hz', hzz⟩
  · rw [h.value] at hu
    cases hu
  · exact hm a c hc z' u hz' (hzz.value ▸ hu) e ((h.mem_effective ho).mp he).1

/-- An assignment is admitted afterwards if it was admitted before and takes
another value for the variable. -/
theorem admits (h : m.Refuted k i x v y) (ho : m.Offers i x v) {τ : Nat → Int} :
    k.Admits τ ↔ m.Admits τ ∧ τ i ≠ v := by
  simp only [Admits, h.size, h.mem_effective ho]
  constructor
  · exact fun hk => ⟨fun j hj => (hk j hj).1, (hk i (lt_of_read ho.read)).2 rfl⟩
  · rintro ⟨hm, hne⟩ j hj
    exact ⟨hm j hj, fun hji => hji ▸ hne⟩

end Arena.Refuted

/-- After the left branch has left a value as a choice without assignment,
pruning it refutes it. -/
theorem Search.exclude_of_offers {s t : Search} {i : Nat} {x : Variable}
    {v : Int} (hs : s.arena.Orderly) (ho : s.arena.Offers i x v)
    (ht : (s.arena.write i (x.assign v).unassign).Alike t.arena) :
    ∃ w y, t.exclude i v = .ok (true, ⟨w, t.solutions⟩) ∧
      t.toWorkspace.Later w ∧
      s.arena.Refuted w.arena i x v y := by
  have hi : i < s.arena.size := Arena.lt_of_read ho.read
  have htsize : t.arena.size = s.arena.size :=
    ht.size.trans (Arena.size_write _ _ _)
  have hit : i < t.arena.size := htsize.symm ▸ hi
  obtain ⟨y, hy, hxy⟩ := ht.read i _ (Arena.read_write_self hi _)
  have hlive : y.live = x.live := hxy.live
  have hsettled : y.Settled := hxy.settled { hs.settled i x ho.read with }
  obtain ⟨y', hexclude, hpruned⟩ :=
    Workspace.exclude_of_mem_live (w := t.toWorkspace) hy hsettled.calm (v := v)
      (hlive ▸ ho.live)
  have hyy' := hpruned.later
  refine ⟨_, y', adjust_eq hexclude, Workspace.later_write hy hyy' rfl rfl,
    (Arena.size_write _ _ _).trans htsize, Arena.read_write_self hit y', ?_,
    hyy'.id.trans hxy.id, hyy'.value.trans hxy.value, hyy'.settled hsettled,
    hyy'.tried.trans hxy.tried, fun u => ?_, fun u => ?_⟩
  · intro j z hne hz
    rw [Arena.read_write_of_ne (Ne.symm hne)] at hz
    obtain ⟨z', hz', hzz⟩ := ht.read_back hz
    rw [Arena.read_write_of_ne (Ne.symm hne)] at hz'
    exact ⟨z', hz', hzz⟩
  · rw [hpruned.mem_domain, List.mem_singleton, hxy.domain u]
    rfl
  · rw [← hlive, hpruned.mem_live, List.mem_singleton]

/-- Every variable of `k` started with the domain that the one in its place in
`m` started with. -/
def Arena.KeepsInitials (m k : Arena) : Prop :=
  ∀ i y, k.read i = .ok y → ∃ x, m.read i = .ok x ∧ y.initial = x.initial

/-- The initial domains are kept on a way of two steps if they are kept on
each. -/
theorem Arena.KeepsInitials.trans {m k l : Arena} (hmk : m.KeepsInitials k)
    (hkl : k.KeepsInitials l) : m.KeepsInitials l := by
  intro i z hz
  obtain ⟨y, hy, hzy⟩ := hkl i z hz
  obtain ⟨x, hx, hyx⟩ := hmk i y hy
  exact ⟨x, hx, hzy.trans hyx⟩

/-- Variables that look alike started alike. -/
theorem Arena.Alike.keepsInitials {m k : Arena} (h : m.Alike k) :
    m.KeepsInitials k := by
  intro i y hy
  obtain ⟨x, hx, hxy⟩ := h.read_back hy
  exact ⟨x, hx, hxy.initial⟩

/-- Exclusions do not touch the initial domains. -/
theorem Workspace.Later.keepsInitials {w u : Workspace} (h : w.Later u) :
    w.arena.KeepsInitials u.arena := by
  intro i y hy
  obtain ⟨x, _, _, hx, hxy⟩ := h.read_back hy
  exact ⟨x, hx, hxy.initial⟩

/-- Nor does a change of one variable that keeps its own. -/
theorem Arena.keepsInitials_write {m : Arena} {i : Nat} {x y : Variable}
    (hx : m.read i = .ok x) (hxy : y.initial = x.initial) :
    m.KeepsInitials (m.write i y) := by
  intro j z hz
  rcases (read_write (lt_of_read hx)).mp hz with ⟨rfl, rfl⟩ | ⟨_, hz⟩
  · exact ⟨x, hx, hxy⟩
  · exact ⟨z, hz, rfl⟩

/-- What became of a search at `s` by a decision that goes with the assignments
of `Choice`. -/
structure Decided (net : Network) (s : Search) (Choice : (Nat → Int) → Prop)
    (ok : Bool) (t : Search) : Prop where
  size : t.arena.size = s.arena.size
  initials : s.arena.KeepsInitials t.arena
  depth : t.arena.depth < s.arena.depth
  sound : ok = true → t.Sound net
  admits : ok = true → ∀ τ, net.Holds τ →
    (t.arena.Admits τ ↔ s.arena.Admits τ ∧ Choice τ)
  failed : ok = false → ∀ τ, net.Holds τ → s.arena.Admits τ → ¬ Choice τ

/-- What a decision is said to choose may be put in other words. -/
theorem Decided.congr {net : Network} {s t : Search} {C C' : (Nat → Int) → Prop}
    {ok : Bool} (h : Decided net s C ok t) (hC : ∀ τ, C τ ↔ C' τ) :
    Decided net s C' ok t := by
  obtain rfl : C = C' := funext fun τ => propext (hC τ)
  exact h

namespace Branching

variable {σ : Type} {b : Branching σ} {s t : Search} {i : Nat} {x : Variable}
  {v : Int}

/-- Assigns `v` to variable `i` and propagates. -/
def accept (b : Branching σ) (i : Nat) (v : Int) (s : Search) :
    Except Fault (Bool × Search) := do
  let s ← s.assign i v
  s.propagateFrom b.propagator i

/-- Propagation from a variable, seen from the search. -/
theorem propagateFrom_eq {p : Propagator} (hcalm : s.arena.Calm)
    (hnet : p.network.Within s.arena.size) (i : Nat) :
    ∃ ok u, s.propagateFrom p i = .ok (ok, ⟨u, s.solutions⟩) ∧
      p.Propagated (p.network.arcsFrom i) s.toWorkspace ok u := by
  have hseed : ∀ a ∈ p.network.arcsFrom i, a.Within s.arena.size :=
    fun a ha => hnet a (Network.mem_arcsFrom.mp ha).1
  obtain ⟨ok, u, hrun, hpropagated⟩ :=
    Propagator.propagate_of_calm (p := p) (w := s.toWorkspace) hcalm hnet hseed
  exact ⟨ok, u, Search.adjust_eq hrun, hpropagated⟩

/-- **Accepting a value.** -/
theorem accept_of_offers (hs : s.Sound b.propagator.network)
    (ho : s.arena.Offers i x v) :
    ∃ ok t, b.accept i v s = .ok (ok, t) ∧ t.solutions = s.solutions ∧
      (s.write i (x.assign v)).toWorkspace.Later t.toWorkspace ∧
      Decided b.propagator.network s (fun τ => τ i = v) ok t := by
  have hi : i < s.arena.size := Arena.lt_of_read ho.read
  have horderly : (s.write i (x.assign v)).arena.Orderly :=
    hs.orderly.write_assign ho.read ho.value ho.live
  have hnet : b.propagator.network.Within (s.write i (x.assign v)).arena.size :=
    (Arena.size_write _ _ _).symm ▸ hs.within
  obtain ⟨ok, u, hrun, hp⟩ := propagateFrom_eq horderly.calm hnet i
  have hadmits : ∀ τ, (s.write i (x.assign v)).arena.Admits τ ↔
      s.arena.Admits τ ∧ τ i = v :=
    fun τ => Arena.admits_write_assign ho.read ho.value ho.live
  have hsize : u.arena.size = s.arena.size :=
    hp.later.size.trans (Arena.size_write _ _ _)
  have hassign : s.arena.KeepsInitials (s.arena.write i (x.assign v)) :=
    Arena.keepsInitials_write ho.read rfl
  have hinitials : s.arena.KeepsInitials u.arena :=
    hassign.trans hp.later.keepsInitials
  refine ⟨ok, ⟨u, s.solutions⟩, ?_, rfl, hp.later, hsize, hinitials, ?_,
    ?_, ?_, ?_⟩
  · rw [accept, Search.assign_eq ho.read v]
    exact hrun
  · exact Nat.lt_of_le_of_lt hp.later.depth_le
      (Arena.depth_write_opened_lt ho.read
      (Variable.mem_live.mp ho.live).1 ho.untried rfl rfl)
  · intro heq
    subst heq
    refine ⟨hp.later.orderly horderly (hp.left rfl), ?_, hsize.symm ▸ hs.within⟩
    intro a c hc y w hy hvalue z hz
    obtain ⟨y', _, _, hy', hlater⟩ := hp.later.read_back hy
    rw [hlater.value] at hvalue
    rcases (Arena.read_write hi).mp hy' with ⟨htail, rfl⟩ | ⟨hne, hy'⟩
    · -- An arc that leaves the decided variable was served.
      cases hvalue
      obtain ⟨w, hw, hwz⟩ := hp.served rfl a
        (Network.mem_arcsFrom.mpr ⟨Network.mem_arcs_of_find? hc, htail⟩)
        c hc z hz
      rw [htail, show (s.write i (x.assign v)).toWorkspace.arena =
        s.arena.write i (x.assign v)
        from rfl, Arena.effective_write_self hi] at hw
      rw [← (Variable.mem_effective.mp hw).2 v rfl]
      exact hwz
    · exact hs.agrees a c hc y' w hy' hvalue z
        (Arena.effective_write_assign ho.read ho.value (hp.later.effective hz))
  · rintro rfl τ hτ
    rw [hp.admits hnet hτ, hadmits]
  · rintro rfl τ hτ hsτ hchoice
    exact hp.not_admits hnet hτ ((hadmits τ).mpr ⟨hsτ, hchoice⟩)

/-- **Refuting a value**, after the left branch has left it as a choice without
assignment. -/
theorem refute_of_offers (hs : s.Sound b.propagator.network)
    (ho : s.arena.Offers i x v)
    (ht : (s.arena.write i (x.assign v).unassign).Alike t.arena) :
    ∃ ok u, b.refute i v t = .ok (ok, u) ∧ u.solutions = t.solutions ∧
      t.toWorkspace.Later u.toWorkspace ∧
      Decided b.propagator.network s (fun τ => τ i ≠ v) ok u := by
  have hi : i < s.arena.size := Arena.lt_of_read ho.read
  have hdepth : t.arena.depth < s.arena.depth := by
    rw [ht.depth]
    exact Arena.depth_write_opened_lt ho.read (Variable.mem_live.mp ho.live).1
      ho.untried rfl rfl
  obtain ⟨w, y, hexclude, hlater, hrefuted⟩ :=
    Search.exclude_of_offers hs.orderly ho ht
  have hwdepth : w.arena.depth < s.arena.depth :=
    Nat.lt_of_le_of_lt hlater.depth_le hdepth
  have hassign :
      s.arena.KeepsInitials (s.arena.write i (x.assign v).unassign) :=
    Arena.keepsInitials_write ho.read rfl
  have hinitials : s.arena.KeepsInitials w.arena :=
    (hassign.trans ht.keepsInitials).trans hlater.keepsInitials
  cases hwiped : y.isWipedOut with
  | true =>
      refine ⟨false, ⟨w, t.solutions⟩, ?_, rfl, hlater, hrefuted.size,
        hinitials, hwdepth, ?_, ?_, ?_⟩
      · simp only [refute, hexclude, bind, Except.bind, hrefuted.read, hwiped]
        rfl
      · exact fun hok => (nomatch hok)
      · exact fun hok => (nomatch hok)
      · intro _ τ _ hsτ hchoice
        have hτ :=
          (hrefuted.admits ho).mpr ⟨hsτ, hchoice⟩ i (hrefuted.size.symm ▸ hi)
        rw [Arena.effective_of_read hrefuted.read] at hτ
        exact Variable.isWipedOut_iff.mp hwiped _ hτ
  | false =>
      have horderly : w.arena.Orderly := hrefuted.orderly ho hs.orderly
      have hnet : b.propagator.network.Within
          (Search.mk w t.solutions).arena.size :=
        hrefuted.size.symm ▸ hs.within
      obtain ⟨ok, u, hrun, hp⟩ :=
        propagateFrom_eq (s := ⟨w, t.solutions⟩) horderly.calm hnet i
      have husize : u.arena.size = s.arena.size :=
        hp.later.size.trans hrefuted.size
      refine ⟨ok, ⟨u, t.solutions⟩, ?_, rfl, hlater.trans hp.later, husize,
        hinitials.trans hp.later.keepsInitials, ?_, ?_, ?_, ?_⟩
      · simp only [refute, hexclude, bind, Except.bind, hrefuted.read, hwiped]
        exact hrun
      · exact Nat.lt_of_le_of_lt hp.later.depth_le hwdepth
      · intro heq
        subst heq
        exact ⟨hp.later.orderly horderly (hp.left rfl),
          hp.later.agrees (hrefuted.agrees ho hs.agrees),
          husize.symm ▸ hs.within⟩
      · rintro rfl τ hτ
        rw [hp.admits hnet hτ]
        exact hrefuted.admits ho
      · rintro rfl τ hτ hsτ hchoice
        exact hp.not_admits hnet hτ ((hrefuted.admits ho).mpr ⟨hsτ, hchoice⟩)

/-- What accepting a value came to, whichever way it was found that it
succeeds. -/
theorem decided_of_accept {ok : Bool} (hs : s.Sound b.propagator.network)
    (ho : s.arena.Offers i x v) (h : b.accept i v s = .ok (ok, t)) :
    Decided b.propagator.network s (fun τ => τ i = v) ok t := by
  obtain ⟨ok', t', haccept, _, _, hdecided⟩ := accept_of_offers hs ho
  rw [h] at haccept
  cases haccept
  exact hdecided

/-- What refuting a value came to, likewise. -/
theorem decided_of_refute {ok : Bool} {u : Search}
    (hs : s.Sound b.propagator.network) (ho : s.arena.Offers i x v)
    (ht : (s.arena.write i (x.assign v).unassign).Alike t.arena)
    (h : b.refute i v t = .ok (ok, u)) :
    Decided b.propagator.network s (fun τ => τ i ≠ v) ok u := by
  obtain ⟨ok', u', hrefute, _, _, hdecided⟩ :=
    refute_of_offers (b := b) hs ho ht
  rw [h] at hrefute
  cases hrefute
  exact hdecided

end Branching

end ConstraintNet
