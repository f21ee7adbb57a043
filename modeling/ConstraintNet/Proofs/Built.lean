import ConstraintNet.Instance.Build
import ConstraintNet.Proofs.PropagationLaws
import ConstraintNet.Proofs.Symmetry

/-!
# What an instance builds

The variables that an instance builds are fresh and each is where its id says.
The network that it builds is symmetric and stays within the variables.
`Instance.couple` is the smallest instance with a constraint and more than one
solution.
-/

namespace ConstraintNet

/-- Every variable is where its id says. -/
def Arena.IsNumbered (m : Arena) : Prop := ∀ i x, m.read i = .ok x → x.id = i

/-- Every variable is fresh. -/
def Arena.IsFresh (m : Arena) : Prop := ∀ i x, m.read i = .ok x → x.IsFresh

/-- What can be read from an arena that is made from a list is in the list. -/
theorem Arena.mem_of_read_ofList {l : List Variable} {i : Nat} {x : Variable}
    (h : (ofList l).read i = .ok x) : x ∈ l := by
  rw [read_eq_ok, ofList, List.getElem?_toArray] at h
  exact List.mem_of_getElem? h

/-- An arena of fresh variables is fresh. -/
theorem Arena.isFresh_ofList {l : List Variable} (h : ∀ x ∈ l, x.IsFresh) :
    (ofList l).IsFresh :=
  fun _ x hx => h x (mem_of_read_ofList hx)

namespace Network

variable {net : Network} {c : Constraint} {n : Nat}

/-- A constraint between variables of the arena keeps a network within it. -/
theorem within_insert (h : net.Within n) (hc : c.arc.Within n) :
    (net.insert c).Within n := by
  intro a ha
  rw [mem_arcs, find?_insert] at ha
  by_cases hca : c.arc = a
  · rw [← hca]
    exact hc
  · rw [if_neg hca] at ha
    exact h a (mem_arcs.mpr ha)

/-- The same for a constraint that is inserted both ways round. -/
theorem within_insertSymmetric (h : net.Within n) (hfirst : c.first < n)
    (hsecond : c.second < n) : (net.insertSymmetric c).Within n :=
  within_insert (within_insert h ⟨hsecond, hfirst⟩) ⟨hfirst, hsecond⟩

/-- The empty network is within every arena, also one without variables. -/
theorem within_empty (n : Nat) : (∅ : Network).Within n := by
  intro a ha
  rw [mem_arcs, find?_empty] at ha
  cases ha

end Network

namespace Instance

variable {c : Instance} {net : Network} {m : Arena}

/-- An index that is resolved is the id of a variable. -/
theorem lt_of_resolve {n i : Nat} {index : Int} (h : resolve n index = .ok i) :
    i < n := by
  unfold resolve at h
  split at h
  · cases h
    omega
  · cases h

/-- The constraint of a block is one between two different variables. -/
theorem Block.ends_of_build {n : Nat} {b : Block} {d : Constraint}
    (h : b.build n = .ok d) :
    d.first ≠ d.second ∧ d.first < n ∧ d.second < n := by
  simp only [Block.build, bind, Except.bind, pure, Except.pure] at h
  split at h
  · cases h
  · rename_i first hfirst
    split at h
    · cases h
    · rename_i second hsecond
      split at h
      · cases h
      · rename_i hne
        cases h
        exact ⟨hne, lt_of_resolve hfirst, lt_of_resolve hsecond⟩

/-- What holds without constraints, and stays when one between two different
variables is put on both its arcs, holds of the network of an instance. -/
theorem buildNetwork_induction {P : Network → Prop} (hempty : P ∅)
    (hinsert : ∀ net d, d.first ≠ d.second → d.first < c.count →
      d.second < c.count → P net → P (net.insertSymmetric d))
    (h : c.buildNetwork = .ok net) : P net := by
  have hfold : ∀ (l : List Block) (start net : Network), P start →
      l.foldlM (fun n b => n.insertSymmetric <$> b.build c.count) start =
        .ok net → P net := by
    intro l
    induction l with
    | nil =>
        intro start net hstart hnet
        cases hnet
        exact hstart
    | cons b l ih =>
        intro start net hstart hnet
        rw [List.foldlM_cons] at hnet
        cases hd : b.build c.count with
        | error e =>
            rw [hd] at hnet
            cases hnet
        | ok d =>
            rw [hd] at hnet
            obtain ⟨hne, hfirst, hsecond⟩ := Block.ends_of_build hd
            exact ih _ net (hinsert start d hne hfirst hsecond hstart) hnet
  unfold buildNetwork at h
  simp only [bind, Except.bind] at h
  split at h
  · cases h
  · exact hfold c.blocks ∅ net hempty h

/-- **The network of an instance is symmetric.** -/
theorem isSymmetric_of_buildNetwork (h : c.buildNetwork = .ok net) :
    net.IsSymmetric :=
  buildNetwork_induction Network.isSymmetric_empty
    (fun _ _ hne _ _ hnet => hnet.insertSymmetric hne) h

/-- All arcs of the network that an instance builds are between its
variables. -/
theorem within_of_buildNetwork (h : c.buildNetwork = .ok net) :
    net.Within c.count :=
  buildNetwork_induction (P := (·.Within c.count))
    (Network.within_empty c.count)
    (fun _ _ _ hfirst hsecond hnet =>
      Network.within_insertSymmetric hnet hfirst hsecond) h

/-- What a list of results was made of. -/
theorem getElem?_of_mapM {α β : Type} {f : α → Except Refusal β} {l : List α}
    {l' : List β} (h : l.mapM f = .ok l') : l'.length = l.length ∧
      ∀ (i : Nat) (y : β), l'[i]? = some y →
        ∃ x, l[i]? = some x ∧ f x = .ok y := by
  induction l generalizing l' with
  | nil =>
      rw [List.mapM_nil] at h
      cases h
      exact ⟨rfl, fun i y hy => (nomatch hy)⟩
  | cons a l ih =>
      rw [List.mapM_cons] at h
      cases ha : f a with
      | error e =>
          rw [ha] at h
          cases h
      | ok b =>
          rw [ha] at h
          cases hl : l.mapM f with
          | error e =>
              rw [hl] at h
              cases h
          | ok k =>
              rw [hl] at h
              cases h
              obtain ⟨hlength, hget⟩ := ih hl
              refine ⟨congrArg (· + 1) hlength, fun i y hy => ?_⟩
              cases i with
              | zero =>
                  cases hy
                  exact ⟨a, rfl, ha⟩
              | succ i => exact hget i y hy

/-- A variable is built only from bounds in order, and then has all values
between them. -/
theorem of_buildVariable_eq_ok {i : Nat} {lower upper : Int} {x : Variable}
    (h : buildVariable i lower upper = .ok x) :
    lower ≤ upper ∧ x = .ofBounds i lower upper := by
  unfold buildVariable at h
  split at h
  · cases h
  · rename_i hle
    split at h
    · cases h
    · cases h
      exact ⟨Int.not_lt.mp hle, rfl⟩

/-- **The variables of an instance** are those of its bounds, in their
places. -/
theorem read_of_buildArena (h : c.buildArena = .ok m) : m.size = c.count ∧
    ∀ i x, m.read i = .ok x → ∃ lower upper,
      lower ≤ upper ∧ x = .ofBounds i lower upper := by
  unfold buildArena at h
  simp only [bind, Except.bind, pure, Except.pure] at h
  split at h
  · cases h
  · split at h
    · cases h
    · rename_i l hl
      cases h
      obtain ⟨hlength, hget⟩ := getElem?_of_mapM hl
      refine ⟨?_, fun i x hx => ?_⟩
      · simpa [Arena.ofList, Arena.size, count] using hlength
      · rw [Arena.read_eq_ok, Arena.ofList, List.getElem?_toArray] at hx
        obtain ⟨⟨⟨lower, upper⟩, j⟩, hj, hbuilt⟩ := hget i x hx
        rw [List.getElem?_zipIdx] at hj
        obtain ⟨p, _, hp⟩ := Option.map_eq_some_iff.mp hj
        cases hp
        exact ⟨lower, upper, Nat.zero_add i ▸ of_buildVariable_eq_ok hbuilt⟩

/-- Everything that an instance builds is fresh. -/
theorem isFresh_of_buildArena (h : c.buildArena = .ok m) : m.IsFresh := by
  intro i x hx
  obtain ⟨lower, upper, _, rfl⟩ := (read_of_buildArena h).2 i x hx
  exact Variable.isFresh_fresh _ _

/-- Variables are numbered in the order in which their bounds are given. -/
theorem isNumbered_of_buildArena (h : c.buildArena = .ok m) : m.IsNumbered := by
  intro i x hx
  obtain ⟨lower, upper, _, rfl⟩ := (read_of_buildArena h).2 i x hx
  rfl

/-- No domain of an instance is empty. -/
theorem exists_mem_initial_of_buildArena (h : c.buildArena = .ok m) {i : Nat}
    {x : Variable} (hx : m.read i = .ok x) : ∃ v, v ∈ x.initial := by
  obtain ⟨lower, upper, hle, rfl⟩ := (read_of_buildArena h).2 i x hx
  exact ⟨lower,
    Domain.mem_ofList.mpr (mem_interval.mpr ⟨Int.le_refl lower, hle⟩)⟩

/-- Building succeeds only if the variables and the network can be built. -/
theorem of_build_eq_ok (h : c.build = .ok (m, net)) :
    c.buildArena = .ok m ∧ c.buildNetwork = .ok net := by
  simp only [build, bind, Except.bind, pure, Except.pure] at h
  split at h
  · cases h
  · rename_i hm
    split at h
    · cases h
    · rename_i hnet
      cases h
      exact ⟨hm, hnet⟩

end Instance

/-- Fresh variables in their places, each with values to start with, and a
symmetric network on them. -/
structure Arena.Posed (m : Arena) (net : Network) : Prop where
  fresh : m.IsFresh
  numbered : m.IsNumbered
  inhabited : ∀ i x, m.read i = .ok x → ∃ v, v ∈ x.initial
  symmetric : net.IsSymmetric
  within : net.Within m.size

/-- **What an instance poses.** -/
theorem Instance.posed_of_build {c : Instance} {m : Arena} {net : Network}
    (h : c.build = .ok (m, net)) : m.Posed net := by
  obtain ⟨harena, hnetwork⟩ := of_build_eq_ok h
  exact {
    fresh := isFresh_of_buildArena harena
    numbered := isNumbered_of_buildArena harena
    inhabited := fun _ _ hx => exists_mem_initial_of_buildArena harena hx
    symmetric := isSymmetric_of_buildNetwork hnetwork
    within :=
      (read_of_buildArena harena).1.symm ▸ within_of_buildNetwork hnetwork }

/-! ## A couple of variables -/

namespace Instance

/-- Two variables with two and three values and one constraint, by which the
second must take the value above that of the first.  Cases of what is said of
all instances are told of it. -/
def couple : Instance := ⟨[(0, 1), (0, 2)], [⟨0, 1, [(0, 1), (1, 2)]⟩]⟩

/-- The two variables. -/
def coupleArena : Arena := .ofList [.ofBounds 0 0 1, .ofBounds 1 0 2]

/-- The constraint between them, both ways. -/
def coupleNetwork : Network :=
  (∅ : Network).insertSymmetric
    { first := 0, second := 1, pairs := [(0, 1), (1, 2)] }

/-- It builds two variables and one relation between them, both ways round. -/
theorem build_couple : couple.build = .ok (coupleArena, coupleNetwork) := rfl

/-- A problem is posed on it as on all that instances build. -/
theorem posed_couple : coupleArena.Posed coupleNetwork :=
  posed_of_build build_couple

/-- Its arcs are one each way. -/
theorem arcs_couple : coupleNetwork.arcs = [⟨0, 1⟩, ⟨1, 0⟩] := by decide +kernel

/-- The domains are small enough for either value order to overlook nothing. -/
theorem size_initial_couple (i : Nat) (x : Variable)
    (hx : coupleArena.read i = .ok x) : x.initial.size < 2047 := by
  have hsizes : ∀ x ∈ [Variable.ofBounds 0 0 1, Variable.ofBounds 1 0 2],
      x.initial.size < 2047 := by decide +kernel
  exact hsizes x (Arena.mem_of_read_ofList hx)

end Instance

end ConstraintNet
