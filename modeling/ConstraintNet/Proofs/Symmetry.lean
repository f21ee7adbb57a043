import ConstraintNet.Network

/-!
# Symmetric networks

A network is symmetric when each constraint joins two different variables and
the transposed relation is on the reverse arc.  Putting a constraint on both
arcs between its variables keeps a network symmetric, also where both arcs carry
constraints already.
-/

namespace ConstraintNet

/-- An intersection allows what both constraints allow. -/
theorem Constraint.mem_pairs_intersect {c d : Constraint} {x y : Int} :
    (x, y) ∈ (c.intersect d).pairs ↔ (x, y) ∈ c.pairs ∧ (x, y) ∈ d.pairs := by
  simp only [intersect, Std.ExtTreeSet.mem_toList, Std.ExtTreeSet.mem_ofList,
    List.contains_iff_mem, List.mem_filter, allows_iff]

/-- The transposed constraint lists the same pairs the other way round. -/
@[simp] theorem Constraint.mem_pairs_transposed {c : Constraint} {x y : Int} :
    (x, y) ∈ c.transposed.pairs ↔ (y, x) ∈ c.pairs := by
  simp only [transposed, List.mem_map]
  constructor
  · intro hparts
    obtain ⟨p, hp, hswap⟩ := hparts
    cases hswap
    exact hp
  · intro hp
    exact ⟨(y, x), hp, rfl⟩

namespace Network

variable {net : Network} {a : Arc} {c d : Constraint}

/-- Each constraint joins two different variables, and the reverse arc carries
the transposed relation. -/
def IsSymmetric (net : Network) : Prop :=
  ∀ a c, net.find? a = some c → a.tail ≠ a.head ∧
    ∃ d, net.find? a.reverse = some d ∧ ∀ x y, (y, x) ∈ d.pairs ↔
      (x, y) ∈ c.pairs

theorem isSymmetric_empty : (∅ : Network).IsSymmetric := by
  intro a c hc
  rw [find?_empty] at hc
  cases hc

/-- What an arc carries after an insertion, told by the pairs. -/
theorem exists_find?_insert (net : Network) (c : Constraint) :
    ∃ e, (net.insert c).find? c.arc = some e ∧ ∀ x y, (x, y) ∈ e.pairs ↔
      (∀ d, net.find? c.arc = some d → (x, y) ∈ d.pairs) ∧
        (x, y) ∈ c.pairs := by
  rw [find?_insert, if_pos rfl]
  cases hd : net.find? c.arc with
  | none =>
      refine ⟨c, rfl, fun x y => ?_⟩
      simp
  | some d =>
      refine ⟨d.intersect c, rfl, fun x y => ?_⟩
      simp [Constraint.mem_pairs_intersect]

/-- An insertion leaves the constraints on other arcs alone. -/
theorem find?_insert_of_ne (h : c.arc ≠ a) :
    (net.insert c).find? a = net.find? a := by
  rw [find?_insert, if_neg h]

/-- **A constraint put on both arcs keeps a network symmetric.** -/
theorem IsSymmetric.insertSymmetric (h : net.IsSymmetric)
    (hc : c.first ≠ c.second) : (net.insertSymmetric c).IsSymmetric := by
  have hne : c.transposed.arc ≠ c.arc := fun he => hc (congrArg Arc.head he)
  have hrev : c.transposed.arc = c.arc.reverse := rfl
  -- What the two arcs carry: the old relation cut down by `c`, and transposed.
  obtain ⟨e, he, hepairs⟩ := exists_find?_insert (net.insert c.transposed) c
  rw [find?_insert_of_ne hne] at hepairs
  obtain ⟨e', he', hepairs'⟩ := exists_find?_insert net c.transposed
  have he'' : (net.insertSymmetric c).find? c.arc.reverse = some e' := by
    rw [Network.insertSymmetric, ← hrev, find?_insert_of_ne (Ne.symm hne)]
    exact he'
  have hpairs : ∀ x y, (y, x) ∈ e'.pairs ↔ (x, y) ∈ e.pairs := by
    intro x y
    rw [hepairs, hepairs', Constraint.mem_pairs_transposed, hrev]
    apply and_congr_left
    intro _
    constructor
    · intro hold d hd
      obtain ⟨_, d', hd', hdd⟩ := h _ d hd
      exact (hdd x y).mp (hold d' hd')
    · intro hold d hd
      obtain ⟨_, d', hd', hdd⟩ := h _ d hd
      exact (hdd y x).mp (hold d' hd')
  intro a f hf
  by_cases hac : c.arc = a
  · subst hac
    rw [show (net.insertSymmetric c).find? c.arc = some e from he] at hf
    cases hf
    exact ⟨hc, e', he'', hpairs⟩
  · by_cases har : c.arc.reverse = a
    · subst har
      rw [he''] at hf
      cases hf
      exact ⟨Ne.symm hc, e, he, fun x y => (hpairs y x).symm⟩
    · have hold : ∀ b, c.arc ≠ b → c.arc.reverse ≠ b →
          (net.insertSymmetric c).find? b = net.find? b := by
        intro b hb hb'
        rw [Network.insertSymmetric, find?_insert_of_ne hb,
          find?_insert_of_ne (show c.transposed.arc ≠ b from hb')]
      rw [hold a hac har] at hf
      obtain ⟨hends, d, hd, hdd⟩ := h a f hf
      refine ⟨hends, d, ?_, hdd⟩
      rw [hold a.reverse (fun he => har (congrArg Arc.reverse he))
        (fun he => hac (congrArg Arc.reverse he))]
      exact hd

end Network

end ConstraintNet
