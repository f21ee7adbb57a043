import ConstraintNet.Proofs.Decisions
import ConstraintNet.Proofs.Partition
import Mathlib.Order.Bounds.Basic

/-!
# Views of the effective domain

What a variable shows is worked out anew for each question: the values
themselves, how many they are, whether there is one, whether one of some
candidates is among them, and which is to be tried next.  Whatever was done to
the variable, marked and assigned as it may be, the answers are those of one set
of values.

There is one proviso.  The least untried value is found on a walk up the domain,
which meets all of it, but the greatest on the walk down, which passes values
over where the tree of the domain is high.  So the greatest is found just when
the walk down meets it, as it always does in a domain that started with fewer
than 2047 values.
-/

namespace ConstraintNet

/-- The first member of an ascending list to pass a test is the least that
passes it. -/
theorem find?_eq_some_iff_isLeast {α : Type} [LinearOrder α] {p : α → Bool}
    {l : List α} {a : α} (h : l.Pairwise (· < ·)) :
    l.find? p = some a ↔ IsLeast {b | b ∈ l ∧ p b} a := by
  rw [List.find?_eq_some_iff_append]
  constructor
  · rintro ⟨hp, front, back, rfl, hfront⟩
    refine ⟨⟨by simp, hp⟩, ?_⟩
    rintro b ⟨hb, hpb⟩
    rcases List.mem_append.mp hb with hb | hb
    · exact absurd hpb (by simpa using hfront b hb)
    · rcases List.mem_cons.mp hb with rfl | hb
      · exact le_refl b
      · exact le_of_lt
          (List.rel_of_pairwise_cons (List.pairwise_append.mp h).2.1 hb)
  · rintro ⟨⟨ha, hp⟩, hleast⟩
    obtain ⟨front, back, rfl⟩ := List.append_of_mem ha
    refine ⟨hp, front, back, rfl, fun b hb => ?_⟩
    have hlt : b < a :=
      (List.pairwise_append.mp h).2.2 b hb a List.mem_cons_self
    rw [Bool.not_eq_true']
    exact Bool.eq_false_iff.mpr fun hpb =>
      not_le_of_gt hlt (hleast ⟨List.mem_append_left _ hb, hpb⟩)

namespace Variable

variable {x : Variable} {d : Domain} {v : Int}

/-- The size of the effective domain is counted without making it. -/
theorem effectiveSize_eq (x : Variable) :
    x.effectiveSize = x.effective.size := by
  rw [effectiveSize, effective]
  cases x.value with
  | none => rfl
  | some u =>
      show (x.isLive u).toNat =
        (if x.isLive u then ValueSet.singleton u else ∅).size
      cases x.isLive u <;> rfl

/-- The values shown that were not tried. -/
def selectable (x : Variable) : Set Int :=
  {v | v ∈ x.effective ∧ ¬ x.wasTried v}

/-- What the walks over the domain of a variable without value look for. -/
theorem mem_selectable (hx : x.value = none) :
    v ∈ x.selectable ↔ v ∈ x.domain ∧
    (!x.marked.contains v && !x.wasTried v) = true := by
  rw [selectable, Set.mem_ofPred_eq, mem_effective_of_value_eq_none hx,
    mem_live, and_assoc]
  simp [Exclusion.Stack.contains]

/-- **The walk up finds the least value to be tried.** -/
theorem smallestUntried?_eq_some_iff (hx : x.value = none) :
    x.smallestUntried? = some v ↔ IsLeast x.selectable v := by
  rw [smallestUntried?, Domain.findUp?_eq,
    find?_eq_some_iff_isLeast x.domain.ascending_toList]
  simp only [IsLeast, lowerBounds, Set.mem_ofPred_eq, mem_selectable hx,
    Domain.mem_def]

/-- The search for the least value fails only if none is left to try. -/
theorem smallestUntried?_eq_none_iff (hx : x.value = none) :
    x.smallestUntried? = none ↔ ∀ v, v ∉ x.selectable := by
  simp only [smallestUntried?, Domain.findUp?_eq, List.find?_eq_none,
    mem_selectable hx, Domain.mem_def, not_and]

/-- **The walk down finds the greatest of the values that it meets.** -/
theorem largestUntried?_eq_some_iff (hx : x.value = none) :
    x.largestUntried? = some v ↔
    IsGreatest {w ∈ x.selectable | w ∈ x.domain.walk} v := by
  have hdown : x.domain.walk.Pairwise fun v w => w < v :=
    (List.pairwise_reverse.mpr x.domain.ascending_toList).sublist
      x.domain.walk_sublist
  have hmeets : {w ∈ x.selectable | w ∈ x.domain.walk} =
      {w | w ∈ x.domain.walk ∧
        (!x.marked.contains w && !x.wasTried w) = true} := by
    ext w
    simp only [Set.mem_ofPred_eq, mem_selectable hx]
    exact ⟨fun h => ⟨h.2, h.1.2⟩,
      fun h => ⟨⟨Domain.mem_of_mem_walk h.1, h.2⟩, h.1⟩⟩
  rw [largestUntried?, Domain.findDown?_eq, hmeets]
  exact find?_eq_some_iff_isLeast (α := Intᵒᵈ) hdown

/-- The search for the greatest value fails if none is left among those that the
walk comes by. -/
theorem largestUntried?_eq_none_iff (hx : x.value = none) :
    x.largestUntried? = none ↔ ∀ v ∈ x.domain.walk, v ∉ x.selectable := by
  simp only [largestUntried?, Domain.findDown?_eq, List.find?_eq_none,
    mem_selectable hx, not_and]
  exact forall₂_congr fun v hv =>
    ⟨fun h _ => h, fun h => h (Domain.mem_of_mem_walk hv)⟩

/-- So the greatest value to be tried is found just when the walk down meets
it. -/
theorem largestUntried?_of_isGreatest (hx : x.value = none)
    (hv : IsGreatest x.selectable v) :
    x.largestUntried? = some v ↔ v ∈ x.domain.walk := by
  rw [largestUntried?_eq_some_iff hx]
  exact ⟨fun h => h.1.2, fun h => ⟨⟨hv.1, h⟩, fun w hw => hv.2 hw.1⟩⟩

/-- A domain loses values and gets back no others. -/
theorem Divided.size_le (hx : x.Divided d) : x.domain.size ≤ d.size := by
  have hle : x.domain.values.size ≤ d.values.size := size_le_of_mem fun v hv =>
    ((hx.mem_domain v).mp hv).1
  exact hle

/-- **What a variable shows is one set of values**, whatever was done to it:
those of the domain that are not marked, or the assigned one alone.  They are
listed in ascending order; the size is the length of the list, the variable is
wiped out if there is none, and it supports the candidates if one of them is
there.  Without an assigned value the least untried value is found among them,
or none if all were tried.  The greatest is found just when the walk down the
domain meets it; what is found instead is the greatest of those met, or none if
all of these were tried.  In a domain that started with fewer than 2047 values
the walk meets all. -/
theorem views_agree (id : Nat) (d : Domain) (l : List Operation) (x : Variable)
    (h : (fresh id d).performAll l = .ok x) :
    (∀ v, v ∈ x.effective.toList ↔
      v ∈ x.domain ∧ ¬ x.marked.contains v ∧ ∀ u, x.value = some u → v = u) ∧
    x.effective.toList.Pairwise (· < ·) ∧
    x.effectiveSize = x.effective.toList.length ∧
    (x.isWipedOut ↔ x.effective.toList = []) ∧
    (∀ candidates, x.hasSupport candidates ↔
      ∃ v ∈ candidates, v ∈ x.effective.toList) ∧
    (x.value = none →
      (∀ v, x.smallestUntried? = some v ↔ IsLeast x.selectable v) ∧
      (x.smallestUntried? = none ↔ ∀ v ∈ x.effective.toList, x.wasTried v) ∧
      (∀ v, x.largestUntried? = some v ↔
        IsGreatest {w ∈ x.selectable | w ∈ x.domain.walk} v) ∧
      (x.largestUntried? = none ↔
        ∀ v ∈ x.effective.toList, v ∈ x.domain.walk → x.wasTried v) ∧
      (∀ v, IsGreatest x.selectable v →
        (x.largestUntried? = some v ↔ v ∈ x.domain.walk)) ∧
      (d.size < 2047 →
        (∀ v, x.largestUntried? = some v ↔ IsGreatest x.selectable v) ∧
        (x.largestUntried? = none ↔
          ∀ v ∈ x.effective.toList, x.wasTried v))) := by
  have hx : x.Divided d := (divided_fresh id d).performAll h
  have htried : (∀ v, v ∉ x.selectable) ↔
      ∀ v ∈ x.effective.toList, x.wasTried v := by
    simp only [selectable, Set.mem_ofPred_eq, not_and, not_not,
      ValueSet.mem_def]
  refine ⟨fun v => ?_, x.effective.ascending, x.effectiveSize_eq, ?_,
    fun _ => hasSupport_iff,
    fun hvalue => ⟨fun v => smallestUntried?_eq_some_iff hvalue,
      (smallestUntried?_eq_none_iff hvalue).trans htried,
      fun v => largestUntried?_eq_some_iff hvalue, ?_,
      fun v hv => largestUntried?_of_isGreatest hvalue hv, fun hfew => ?_⟩⟩
  · rw [← ValueSet.mem_def, mem_effective, mem_live, and_assoc]
    simp [Exclusion.Stack.contains]
  · rw [isWipedOut_iff, List.eq_nil_iff_forall_not_mem]
    exact Iff.rfl
  · rw [largestUntried?_eq_none_iff hvalue]
    simp only [selectable, Set.mem_ofPred_eq, not_and, not_not,
      ValueSet.mem_def]
    exact forall_congr' fun v =>
      ⟨fun h hv hw => h hw hv, fun h hw hv => h hv hw⟩
  · have hwalk : ∀ v, v ∈ x.domain.walk ↔ v ∈ x.domain := fun v => by
      rw [Domain.walk_eq_of_size_lt (Nat.lt_of_le_of_lt hx.size_le hfew),
        List.mem_reverse]
      exact Iff.rfl
    have hmeets : ∀ v ∈ x.selectable, v ∈ x.domain.walk := fun v hv =>
      (hwalk v).mpr ((mem_selectable hvalue).mp hv).1
    refine ⟨fun v => ?_, ?_⟩
    · rw [largestUntried?_eq_some_iff hvalue,
        Set.sep_eq_self_iff_mem_true.mpr hmeets]
    · rw [largestUntried?_eq_none_iff hvalue, ← htried]
      exact ⟨fun h v hv => h v (hmeets v hv) hv, fun h v _ => h v⟩

/-- One value is pruned, one is marked and one was tried, so that one is left to
be tried. -/
theorem views_agree_of_four :
    let d := Domain.ofList [4, 1, 3, 2]
    let l : List Operation :=
      [.prune 4, .mark fun v => decide (v ≠ 3), .commit, .assign 1, .unassign]
    ∃ x, (fresh 0 d).performAll l = .ok x ∧ x.value = none ∧ d.size < 2047 ∧
      x.effective.toList = [1, 2] ∧ x.effectiveSize = 2 ∧ ¬ x.isWipedOut ∧
      x.hasSupport [5, 2] ∧ IsLeast x.selectable 2 ∧ IsGreatest x.selectable 2 ∧
      2 ∈ x.domain.walk := by
  intro d l
  obtain ⟨x, hrun, hvalue, hlist, hleast, hgreatest⟩ : ∃ x,
    (fresh 0 d).performAll l = .ok x ∧
      x.value = none ∧ x.effective.toList = [1, 2] ∧
      x.smallestUntried? = some 2 ∧
      x.largestUntried? = some 2 :=
    ⟨_, rfl, rfl, by decide +kernel, by decide +kernel, by decide +kernel⟩
  have hfew : d.size < 2047 := by decide +kernel
  obtain ⟨-, -, hsize, hwiped, hsupport, huntried⟩ := views_agree 0 d l x hrun
  obtain ⟨hsmallest, -, -, -, hmet, hlow⟩ := huntried hvalue
  have hlast : IsGreatest x.selectable 2 := ((hlow hfew).1 2).mp hgreatest
  rw [hlist] at hsize hwiped hsupport
  exact ⟨x, hrun, hvalue, hfew, hlist, hsize,
    fun h => absurd (hwiped.mp h) (List.cons_ne_nil 1 [2]),
    (hsupport [5, 2]).mpr ⟨2, by simp, by simp⟩, (hsmallest 2).mp hleast, hlast,
    (hmet 2 hlast).mp hgreatest⟩

end Variable

end ConstraintNet
