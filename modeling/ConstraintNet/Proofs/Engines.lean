import ConstraintNet.Engine
import ConstraintNet.Proofs.Strategies

/-!
# Engines refuse or solve

Given fresh variables, an engine refuses the first one that is not where its id
says; failing that, it refuses the network if its greatest variable is not
there; and failing that, it solves.  No promise is broken on the way, whatever
the engine's settings, the network and the state of the generator.
-/

namespace ConstraintNet

/-- The greatest variable of a network. -/
theorem Network.maxVariable?_eq_some {net : Network} {k : Nat} :
    net.maxVariable? = some k ↔
      (∃ a ∈ net.arcs, k = a.tail ∨ k = a.head) ∧
        ∀ a ∈ net.arcs, a.tail ≤ k ∧ a.head ≤ k := by
  rw [maxVariable?, List.max?_eq_some_iff]
  refine and_congr ?_ ?_
  · simp only [List.mem_flatMap, List.mem_cons, List.not_mem_nil, or_false]
  · simp only [List.mem_flatMap, List.mem_cons, List.not_mem_nil, or_false]
    constructor
    · exact fun h a ha =>
        ⟨h a.tail ⟨a, ha, Or.inl rfl⟩, h a.head ⟨a, ha, Or.inr rfl⟩⟩
    · rintro h k' ⟨a, ha, rfl | rfl⟩
      · exact (h a ha).1
      · exact (h a ha).2

/-- A network is within `n` variables if the greatest that it names is one of
them. -/
theorem Network.within_iff {net : Network} {n : Nat} :
    net.Within n ↔ ∀ k, net.maxVariable? = some k → k < n := by
  constructor
  · intro h k hmax
    obtain ⟨⟨a, ha, hka⟩, _⟩ := maxVariable?_eq_some.mp hmax
    rcases hka with rfl | rfl
    · exact (h a ha).1
    · exact (h a ha).2
  · intro h a ha
    cases hmax : net.maxVariable? with
    | none =>
        rw [maxVariable?, List.max?_eq_none_iff, List.flatMap_eq_nil_iff]
          at hmax
        have := hmax a ha
        cases this
    | some k =>
        obtain ⟨htail, hhead⟩ := (maxVariable?_eq_some.mp hmax).2 a ha
        exact ⟨Nat.lt_of_le_of_lt htail (h k hmax),
          Nat.lt_of_le_of_lt hhead (h k hmax)⟩

namespace Engine

variable {m : Arena} {net : Network}

/-! The check looks for a variable that is not at its position. -/

/-- A check fails at the first variable that is not in its place, by its place
and its id. -/
theorem check_of_find?_eq_some {x : Variable} {i : Nat}
    (h : m.toList.zipIdx.find? (fun p => p.1.id != p.2) = some (x, i))
    (net : Network) : check m net = .error (.misplaced i x.id) := by
  unfold check
  split
  · rename_i heq
    cases heq.symm.trans h
    rfl
  · rename_i heq
    cases heq.symm.trans h

/-- If all are in their places, it fails just when the network names a variable
that is not there. -/
theorem check_of_find?_eq_none
    (h : m.toList.zipIdx.find? (fun p => p.1.id != p.2) = none)
    (net : Network) :
    check m net = net.maxVariable?.elim (.ok ()) fun k =>
      if k < m.size then .ok () else .error (.unknownVariable k m.size) := by
  unfold check
  split
  · rename_i heq
    cases heq.symm.trans h
  · cases net.maxVariable? <;> rfl

/-- **The first misplaced variable is refused.** -/
theorem check_of_misplaced {i : Nat} {x : Variable} (hx : m.read i = .ok x)
    (hid : x.id ≠ i) (hfirst : ∀ j y, j < i → m.read j = .ok y → y.id = j)
    (net : Network) : check m net = .error (.misplaced i x.id) := by
  have hlength : i < m.toList.zipIdx.length := by
    rw [List.length_zipIdx]
    exact Arena.lt_of_read hx
  refine check_of_find?_eq_some (List.find?_eq_some_iff_getElem.mpr
    ⟨bne_iff_ne.mpr hid, i, hlength, ?_, fun j hj => ?_⟩) net
  · have := Arena.getElem?_toList.mpr hx
    rw [List.getElem_zipIdx, Nat.zero_add, (List.getElem_eq_iff _).mpr this]
  · obtain ⟨y, hy⟩ := Arena.exists_read (Nat.lt_trans hj (Arena.lt_of_read hx))
    have := Arena.getElem?_toList.mpr hy
    rw [List.getElem_zipIdx, Nat.zero_add, (List.getElem_eq_iff _).mpr this]
    simpa using hfirst j y hj hy

/-- No variable out of its place is found in an arena that is numbered. -/
theorem find?_of_isNumbered (hnumbered : m.IsNumbered) :
    m.toList.zipIdx.find? (fun p => p.1.id != p.2) = none := by
  apply List.find?_eq_none.mpr
  intro p hp
  have hread := Arena.getElem?_toList.mp (List.mem_zipIdx_iff_getElem?.mp hp)
  simpa using hnumbered p.2 p.1 hread

/-- **So is a network that goes beyond the variables**, which are all in
place. -/
theorem check_of_le {k : Nat} (hnumbered : m.IsNumbered)
    (hmax : net.maxVariable? = some k) (hk : m.size ≤ k) :
    check m net = .error (.unknownVariable k m.size) := by
  rw [check_of_find?_eq_none (find?_of_isNumbered hnumbered), hmax,
    Option.elim_some, if_neg (Nat.not_lt.mpr hk)]

/-- Nothing else is refused. -/
theorem check_of_within (hnumbered : m.IsNumbered) (hnet : net.Within m.size) :
    check m net = .ok () := by
  rw [check_of_find?_eq_none (find?_of_isNumbered hnumbered)]
  cases hmax : net.maxVariable? with
  | none => rfl
  | some k => rw [Option.elim_some, if_pos (Network.within_iff.mp hnet k hmax)]

/-- What passes the check is numbered, and the network stays within it. -/
theorem of_check_eq_ok (h : check m net = .ok ()) :
    m.IsNumbered ∧ net.Within m.size := by
  have hnumbered : m.IsNumbered := by
    intro i x hx
    apply Classical.byContradiction
    intro hid
    cases hfind : m.toList.zipIdx.find? (fun p => p.1.id != p.2) with
    | none =>
        have hmem : (x, i) ∈ m.toList.zipIdx :=
          List.mem_zipIdx_iff_getElem?.mpr (Arena.getElem?_toList.mpr hx)
        exact List.find?_eq_none.mp hfind (x, i) hmem (bne_iff_ne.mpr hid)
    | some p =>
        rw [check_of_find?_eq_some hfind net] at h
        cases h
  refine ⟨hnumbered, Network.within_iff.mpr fun k hmax =>
    Nat.lt_of_not_le fun hk => ?_⟩
  rw [check_of_le hnumbered hmax hk] at h
  cases h

/-- **What is not refused is solved**, and the variables are left as they
were. -/
theorem solveBuilt_of_check (e : Engine) (hm : m.IsFresh)
    (h : check m net = .ok ()) :
    ∃ outcome k e', e.solveBuilt m net = .ok (outcome, k, e') ∧ m.Alike k := by
  obtain ⟨hnumbered, hnet⟩ := of_check_eq_ok h
  obtain ⟨g, s, hexplore, halike, htrail, _⟩ := Algorithm.explore_of_isFresh
    (b := e.algorithm.branching e.variableOrder.select e.valueOrder e.limit net)
    e.algorithm
    e.generator e.variableOrder.isLegal.isSafe hm hnumbered hnet
  refine ⟨⟨s.solutions.toList, s.tally⟩, s.arena, { e with generator := g },
    ?_, halike⟩
  rw [solveBuilt, h]
  simp only [Algorithm.solve_of_explore hexplore htrail]

/-- **An engine refuses or solves, and never breaks a promise.**  The refusals
come from the check alone, before any variable is touched. -/
theorem solveBuilt_refuses_or_solves (e : Engine) (net : Network)
    (hm : m.IsFresh) :
    (∀ i x, m.read i = .ok x → x.id ≠ i →
        (∀ j y, j < i → m.read j = .ok y → y.id = j) →
      e.solveBuilt m net = .error (.refused (.misplaced i x.id))) ∧
    (m.IsNumbered → ∀ k, (∃ a ∈ net.arcs, k = a.tail ∨ k = a.head) →
      (∀ a ∈ net.arcs, a.tail ≤ k ∧ a.head ≤ k) → m.size ≤ k →
      e.solveBuilt m net = .error (.refused (.unknownVariable k m.size))) ∧
    (m.IsNumbered → net.Within m.size →
      ∃ outcome k e', e.solveBuilt m net = .ok (outcome, k, e') ∧ m.Alike k) ∧
    (∀ f, e.solveBuilt m net = .error f →
      ∃ why, f = .refused why ∧ check m net = .error why) := by
  have hrefused : ∀ why, check m net = .error why →
      e.solveBuilt m net = .error (.refused why) := by
    intro why h
    rw [solveBuilt, h]
  refine ⟨?_, ?_, ?_, ?_⟩
  · intro i x hx hid hfirst
    exact hrefused _ (check_of_misplaced hx hid hfirst net)
  · intro hnumbered k hmem hle hk
    exact hrefused
      _ (check_of_le hnumbered (Network.maxVariable?_eq_some.mpr ⟨hmem, hle⟩)
        hk)
  · intro hnumbered hnet
    exact solveBuilt_of_check e hm (check_of_within hnumbered hnet)
  · intro f hf
    cases hcheck : check m net with
    | error why =>
        rw [hrefused why hcheck] at hf
        cases hf
        exact ⟨why, rfl, rfl⟩
    | ok =>
        obtain ⟨_, _, _, hsolved, _⟩ := solveBuilt_of_check e hm hcheck
        rw [hsolved] at hf
        cases hf

/-- A misplaced variable, a network that goes beyond the variables, and the
network in its place. -/
theorem solveBuilt_refuses_or_solves_of_two :
    let e : Engine :=
      ⟨.maintainArcConsistency, .random, .descending, .all, .ofSeed 7⟩
    let net :=
      (∅ : Network).insertSymmetric
        { first := 0, second := 1, pairs := [(0, 1)] }
    e.solveBuilt (.ofList [.ofBounds 0 0 1, .ofBounds 7 0 1]) net =
      .error (.refused (.misplaced 1 7)) ∧
    e.solveBuilt (.ofList [.ofBounds 0 0 1]) net =
      .error (.refused (.unknownVariable 1 1)) ∧
    ∃ outcome k e',
      e.solveBuilt (.ofList [.ofBounds 0 0 1, .ofBounds 1 0 1]) net =
      .ok (outcome, k, e') := by
  intro e net
  have harcs : net.arcs = [⟨0, 1⟩, ⟨1, 0⟩] := by decide +kernel
  have hbounds : ∀ i, (Variable.ofBounds i 0 1).IsFresh := fun i =>
    Variable.isFresh_fresh i _
  refine ⟨?_, ?_, ?_⟩
  · refine (solveBuilt_refuses_or_solves e net (Arena.isFresh_ofList ?_)).1 1
      (.ofBounds 7 0 1) rfl (by decide) ?_
    · simp [hbounds]
    · intro j y hj hy
      match j, hj with
      | 0, _ =>
        cases hy
        rfl
  · refine (solveBuilt_refuses_or_solves e net (Arena.isFresh_ofList ?_)).2.1 ?_
      1 ?_ ?_ (by decide)
    · simp [hbounds]
    · intro i x hx
      match i, hx with
      | 0, hx =>
        cases hx
        rfl
    · rw [harcs]
      decide
    · rw [harcs]
      decide
  · let m : Arena := .ofList [.ofBounds 0 0 1, .ofBounds 1 0 1]
    have hm : m.IsFresh := Arena.isFresh_ofList (by simp [hbounds])
    have hnumbered : m.IsNumbered := by
      intro i x hx
      match i, hx with
      | 0, hx =>
        cases hx
        rfl
      | 1, hx =>
        cases hx
        rfl
    have hwithin : net.Within m.size := by
      intro a ha
      rw [harcs] at ha
      revert a
      decide
    obtain ⟨outcome, k, e', h, _⟩ :=
      (solveBuilt_refuses_or_solves e net hm).2.2.1 hnumbered hwithin
    exact ⟨outcome, k, e', h⟩

/-- **An instance that can be built is solved.** -/
theorem solve_of_build (e : Engine) {c : Instance}
    (h : c.build = .ok (m, net)) :
    ∃ outcome e', e.solve c = .ok (outcome, e') := by
  obtain ⟨harena, hnet⟩ := Instance.of_build_eq_ok h
  have hwithin : net.Within m.size :=
    (Instance.read_of_buildArena harena).1.symm ▸
      Instance.within_of_buildNetwork hnet
  obtain ⟨outcome, k, e', hsolved, _⟩ := solveBuilt_of_check e
    (Instance.isFresh_of_buildArena harena)
    (check_of_within (Instance.isNumbered_of_buildArena harena) hwithin)
  refine ⟨outcome, e', ?_⟩
  simp only [solve, h, hsolved, Except.map]

end Engine

end ConstraintNet
