import ConstraintNet.Proofs.Calls

/-!
# What the orders select

Each of the variable orders picks a variable without a value whenever there is
one, whatever the state of its generator.  The static ones go along a line of
the variables that they do not change.  The ascending value order selects the
least of the live values that were not tried; the descending one is sure to
select the greatest only in domains of fewer than 2047 values.
-/

namespace ConstraintNet

/-- A variable order that picks a variable without a value whenever there is
one. -/
def Selector.IsLegal {σ : Type} (select : Selector σ) : Prop :=
  ∀ m net g, (∀ j x, m.read j = .ok x → x.id = j) → m.isComplete = false →
    ∃ i g' x, select m net g = (some i, g') ∧ m.read i = .ok x ∧ x.value = none

/-- A legal variable order is safe: it never picks a variable that has a
value. -/
theorem Selector.IsLegal.isSafe {σ : Type} {select : Selector σ}
    (h : select.IsLegal) : select.IsSafe := by
  intro m net g i g' hnumbered hincomplete hselect
  obtain ⟨i', g'', x, hselect', hx, hvalue⟩ := h m net g hnumbered hincomplete
  rw [hselect] at hselect'
  cases hselect'
  exact ⟨x, hx, hvalue⟩

/-- A legal variable order picks one while there are any to be picked. -/
theorem Selector.IsLegal.ne_none {σ : Type} {select : Selector σ}
    (h : select.IsLegal) {m : Arena} {net : Network} {g g' : σ}
    (hnumbered : ∀ j x, m.read j = .ok x → x.id = j)
    (hincomplete : m.isComplete = false) : select m net g ≠ (none, g') := by
  intro hnone
  obtain ⟨i, g'', x, hselect, _⟩ := h m net g hnumbered hincomplete
  rw [hnone] at hselect
  cases hselect

namespace Arena

variable {m : Arena} {x : Variable}

/-- The unassigned variables are those of the arena that have no value. -/
theorem mem_unassigned :
    x ∈ m.unassigned ↔ (∃ i, m.read i = .ok x) ∧ x.value = none := by
  rw [unassigned, List.mem_filter, mem_toList, Variable.isAssigned,
    Bool.not_eq_true', Option.isSome_eq_false_iff, Option.isNone_iff_eq_none]

/-- There are some as long as the assignment is incomplete. -/
theorem unassigned_ne_nil (h : m.isComplete = false) : m.unassigned ≠ [] := by
  intro hnil
  have hcomplete : m.isComplete = true := isComplete_iff.mpr fun i x hx => by
    apply Classical.byContradiction
    intro hx'
    have hmem : x ∈ m.unassigned := by
      refine mem_unassigned.mpr ⟨⟨i, hx⟩, ?_⟩
      cases hvalue : x.value with
      | none => rfl
      | some v =>
          rw [Variable.isAssigned, hvalue] at hx'
          exact absurd rfl hx'
    rw [hnil] at hmem
    cases hmem
  rw [h] at hcomplete
  cases hcomplete

/-- There are none when it is complete. -/
theorem unassigned_eq_nil (h : m.isComplete) : m.unassigned = [] := by
  refine List.eq_nil_iff_forall_not_mem.mpr fun x hx => ?_
  obtain ⟨⟨i, hread⟩, hvalue⟩ := mem_unassigned.mp hx
  have hassigned := isComplete_iff.mp h i x hread
  rw [Variable.isAssigned, hvalue] at hassigned
  cases hassigned

/-- The place of a variable without a value, from its id. -/
theorem read_of_mem_unassigned (hnumbered : ∀ j x, m.read j = .ok x → x.id = j)
    (hx : x ∈ m.unassigned) : m.read x.id = .ok x ∧ x.value = none := by
  obtain ⟨⟨i, hread⟩, hvalue⟩ := mem_unassigned.mp hx
  rw [hnumbered i x hread]
  exact ⟨hread, hvalue⟩

end Arena

/-- The best by a number is one of the variables. -/
theorem exists_mem_of_best? {better : Nat × Nat → Nat × Nat → Bool}
    {number : Variable → Nat} {l : List Variable} (hl : l ≠ []) :
    ∃ x ∈ l, (best? better (l.map fun x => (x.id, number x))).map Prod.fst =
      some x.id := by
  cases hbest : best? better (l.map fun x => (x.id, number x)) with
  | none => exact absurd (List.map_eq_nil_iff.mp (best?_eq_none.mp hbest)) hl
  | some p =>
      obtain ⟨x, hx, rfl⟩ := List.mem_map.mp (mem_of_best? hbest)
      exact ⟨x, hx, rfl⟩

/-- The best by a rank comes before all members ahead of it and after none
behind it. -/
theorem exists_split_of_ranked {better : Nat × Nat → Nat × Nat → Bool}
    (rank : Nat → Int) (hbetter : ∀ p q, better p q ↔ rank p.2 < rank q.2)
    {number : Variable → Nat} {l : List Variable} {i : Nat}
    (h : (best? better (l.map fun x => (x.id, number x))).map Prod.fst =
      some i) :
    ∃ before x after, l = before ++ x :: after ∧ x.id = i ∧
      (∀ y ∈ before, rank (number x) < rank (number y)) ∧
      ∀ y ∈ after, rank (number x) ≤ rank (number y) := by
  obtain ⟨p, hbest, rfl⟩ := Option.map_eq_some_iff.mp h
  obtain ⟨front, rest, hsplit, hfront⟩ := exists_split_of_best? hbest
  obtain ⟨before, rest, hlist, rfl, hrest⟩ := List.map_eq_append_iff.mp hsplit
  obtain ⟨x, after, rfl, rfl, rfl⟩ := List.map_eq_cons_iff.mp hrest
  refine ⟨before, x, after, hlist, rfl, fun y hy => ?_, fun y hy => ?_⟩
  · exact (hbetter _ _).mp (hfront _ (List.mem_map_of_mem hy))
  · have hmem : (y.id, number y) ∈ l.map fun x => (x.id, number x) := by
      rw [hlist]
      exact List.mem_map_of_mem (f := fun x => (x.id, number x))
        (List.mem_append_right _ (List.mem_cons_of_mem _ hy))
    have hnot := not_better_best? (fun a b => ?_) (fun a b c => ?_) hbest hmem
    · exact Int.not_lt.mp fun hlt =>
        Bool.eq_false_iff.mp hnot ((hbetter _ _).mpr hlt)
    · rw [hbetter, Bool.eq_false_iff, ne_eq, hbetter]
      omega
    · rw [hbetter, hbetter, hbetter]
      omega

/-- **Each variable order picks a variable without a value whenever there is
one.** -/
theorem VariableOrder.isLegal (o : VariableOrder) : o.select.IsLegal := by
  intro m net g hnumbered hincomplete
  have hne := Arena.unassigned_ne_nil hincomplete
  have hpick : ∃ x ∈ m.unassigned,
      ∃ g', o.select m net g = (some x.id, g') := by
    cases o with
    | ascending =>
        obtain ⟨x, l, hl⟩ := List.exists_cons_of_ne_nil hne
        refine ⟨x, hl ▸ List.mem_cons_self, g, ?_⟩
        simp only [select, Arena.firstUnassigned?_eq, hl, List.head?_cons,
          Option.map_some]
    | smallestDomainFirst =>
        obtain ⟨x, hx, hbest⟩ := exists_mem_of_best? hne
        exact ⟨x, hx, g, Prod.ext hbest rfl⟩
    | mostConstrainedFirst =>
        obtain ⟨x, hx, hbest⟩ := exists_mem_of_best? hne
        exact ⟨x, hx, g, Prod.ext hbest rfl⟩
    | random =>
        obtain ⟨y, l, hl⟩ := List.exists_cons_of_ne_nil hne
        obtain ⟨i, hi, hmem⟩ := Random.choose_cons y.id (l.map Variable.id) g
        rw [← List.map_cons, ← hl] at hi hmem
        obtain ⟨x, hx, rfl⟩ := List.mem_map.mp hmem
        exact ⟨x, hx, _, Prod.ext hi rfl⟩
  obtain ⟨x, hx, g', hselect⟩ := hpick
  obtain ⟨hread, hvalue⟩ := Arena.read_of_mem_unassigned hnumbered hx
  exact ⟨x.id, g', x, hselect, hread, hvalue⟩

/-! ## Static orders -/

/-- A variable order that goes along a line: before the variable that it picks
there are none without a value. -/
def Selector.GoesAlong {σ : Type} (select : Selector σ) (net : Network)
    (n : Nat) (line : List Nat) : Prop :=
  ∀ m g i g', m.size = n → (∀ j x, m.read j = .ok x → x.id = j) →
    select m net g = (some i, g') →
    ∃ before after, line = before ++ i :: after ∧
      ∀ j ∈ before, ∀ x, m.read j = .ok x → x.value ≠ none

namespace Arena

variable {m : Arena}

/-- Variables in their places stand in the order of their ids. -/
theorem pairwise_unassigned (hnumbered : ∀ j x, m.read j = .ok x → x.id = j) :
    m.unassigned.Pairwise fun x y => x.id < y.id := by
  have hids : m.toList.map Variable.id = List.range m.size := by
    refine List.ext_getElem? fun i => ?_
    rw [List.getElem?_map, toList, Array.getElem?_toList]
    by_cases hi : i < m.size
    · obtain ⟨x, hx⟩ := exists_read hi
      rw [read_eq_ok.mp hx, List.getElem?_range hi, Option.map_some,
        hnumbered i x hx]
    · rw [Array.getElem?_eq_none (Nat.not_lt.mp hi),
        List.getElem?_eq_none
          (by rw [List.length_range]; exact Nat.not_lt.mp hi), Option.map_none]
  have hsorted : m.toList.Pairwise fun x y => x.id < y.id := by
    rw [← List.pairwise_map (f := Variable.id), hids]
    exact List.pairwise_lt_range
  exact hsorted.filter _

end Arena

namespace VariableOrder

/-- The orders that go by position, or by the number of neighbours and then by
position. -/
def IsStatic (o : VariableOrder) : Prop :=
  o = .ascending ∨ o = .mostConstrainedFirst

/-- What counts before the position; the variable with more of it comes
first. -/
def weight : VariableOrder → Network → Nat → Nat
  | .mostConstrainedFirst, net, i => net.degree i
  | _, _, _ => 0

/-- Whether one variable comes before another. -/
def Precedes (o : VariableOrder) (net : Network) (i j : Nat) : Prop :=
  o.weight net j < o.weight net i ∨ o.weight net i = o.weight net j ∧ i < j

instance (o : VariableOrder) (net : Network) (i j : Nat) :
    Decidable (o.Precedes net i j) :=
  inferInstanceAs (Decidable (_ ∨ _))

/-- The first `n` variables in the order. -/
def line (o : VariableOrder) (net : Network) (n : Nat) : List Nat :=
  (List.range n).mergeSort fun i j => decide (¬ o.Precedes net j i)

variable {o : VariableOrder} {net : Network} {m : Arena}
  {g g' : Random.Generator} {i j n : Nat}

/-- The line of the variables leaves none of them out and names none twice. -/
theorem perm_line (o : VariableOrder) (net : Network) (n : Nat) :
    (o.line net n).Perm (List.range n) :=
  List.mergeSort_perm _ _

/-- All variables are in the line, and nothing else. -/
theorem mem_line : i ∈ o.line net n ↔ i < n := by
  rw [(o.perm_line net n).mem_iff, List.mem_range]

/-- The line is in order. -/
theorem pairwise_line (o : VariableOrder) (net : Network) (n : Nat) :
    (o.line net n).Pairwise (o.Precedes net) := by
  have hsorted : (o.line net n).Pairwise fun i j =>
      decide (¬ o.Precedes net j i) = true := by
    refine List.pairwise_mergeSort (fun i j k => ?_) (fun i j => ?_) _
    · simp only [decide_eq_true_eq]
      simp only [Precedes]
      omega
    · simp only [Bool.or_eq_true, decide_eq_true_eq]
      simp only [Precedes]
      omega
  have hnodup : (o.line net n).Nodup :=
    (o.perm_line net n).nodup_iff.mpr List.nodup_range
  refine (hsorted.and hnodup).imp fun hij => ?_
  obtain ⟨hsorted, hne⟩ := hij
  have hnot := of_decide_eq_true hsorted
  simp only [Precedes] at hnot ⊢
  omega

/-- A static order picks the first of the variables without a value that have
the greatest weight. -/
theorem exists_split_of_select (ho : o.IsStatic)
    (h : o.select m net g = (some i, g')) :
    ∃ before x after, m.unassigned = before ++ x :: after ∧ x.id = i ∧
      (∀ y ∈ before, o.weight net y.id < o.weight net i) ∧
      ∀ y ∈ after, o.weight net y.id ≤ o.weight net i := by
  rcases ho with rfl | rfl
  · simp only [select, Arena.firstUnassigned?_eq, Prod.mk.injEq,
      Option.map_eq_some_iff] at h
    obtain ⟨⟨x, hx, rfl⟩, _⟩ := h
    obtain ⟨after, hafter⟩ := List.head?_eq_some_iff.mp hx
    exact ⟨[], x, after, hafter, rfl, fun y hy => (nomatch hy),
      fun _ _ => Nat.le_refl 0⟩
  · obtain ⟨before, x, after, hsplit, rfl, hbefore, hafter⟩ :=
      exists_split_of_ranked (fun k => -k) (fun p q => by simp)
        (congrArg Prod.fst h)
    refine ⟨before, x, after, hsplit, rfl, fun y hy => ?_, fun y hy => ?_⟩
    · have := hbefore y hy
      simp only [weight]
      omega
    · have := hafter y hy
      simp only [weight]
      omega

/-- **A static order goes along its line.** -/
theorem goesAlong (ho : o.IsStatic) (net : Network) (n : Nat) :
    o.select.GoesAlong net n (o.line net n) := by
  intro m g i g' hsize hnumbered hselect
  obtain ⟨before, x, after, hsplit, rfl, hbefore, hafter⟩ :=
    exists_split_of_select ho hselect
  have hx : x ∈ m.unassigned := by
    rw [hsplit]
    exact List.mem_append_right _ List.mem_cons_self
  obtain ⟨hread, _⟩ := Arena.read_of_mem_unassigned hnumbered hx
  obtain ⟨earlier, later, hline⟩ :=
    List.append_of_mem (mem_line.mpr (hsize ▸ Arena.lt_of_read hread) :
      x.id ∈ o.line net n)
  refine ⟨earlier, later, hline, fun j hj y hy hvalue => ?_⟩
  have hprecedes : o.Precedes net j x.id := by
    have hpairs := o.pairwise_line net n
    rw [hline] at hpairs
    exact (List.pairwise_append.mp hpairs).2.2 j hj x.id List.mem_cons_self
  have hj : y.id = j := hnumbered j y hy
  subst hj
  -- A variable without a value that precedes the picked one could stand nowhere
  -- in the list.
  have hmem : y ∈ m.unassigned := Arena.mem_unassigned.mpr ⟨⟨_, hy⟩, hvalue⟩
  have hids := Arena.pairwise_unassigned hnumbered
  rw [hsplit] at hmem hids
  simp only [Precedes] at hprecedes
  rcases List.mem_append.mp hmem with hmem | hmem
  · have := hbefore y hmem
    omega
  · rcases List.mem_cons.mp hmem with rfl | hmem
    · omega
    · have := hafter y hmem
      have := List.rel_of_pairwise_cons (List.pairwise_append.mp hids).2.1 hmem
      omega

end VariableOrder

/-! ## Values -/

namespace ValueOrder

/-- The values of a domain in the order in which they should be tried. -/
def line : ValueOrder → Domain → List Int
  | .ascending, d => d.toList
  | .descending, d => d.toList.reverse

/-- The live values that were not tried, in the order in which they should
be. -/
def rightful (o : ValueOrder) (x : Variable) : List Int :=
  (o.line x.domain).filter fun v => !x.marked.contains v && !x.wasTried v

/-- Which of two comes first. -/
def Before {α : Type} [LT α] : ValueOrder → α → α → Prop
  | .ascending, a, b => a < b
  | .descending, a, b => b < a

variable {o : ValueOrder} {x : Variable} {u v : Int}

/-- The line of a domain is in the order of the values. -/
theorem pairwise_line (o : ValueOrder) (d : Domain) :
    (o.line d).Pairwise o.Before := by
  cases o with
  | ascending => exact d.ascending_toList
  | descending => exact List.pairwise_reverse.mpr d.ascending_toList

/-- It has all values of the domain. -/
theorem mem_line {d : Domain} : v ∈ o.line d ↔ v ∈ d := by
  cases o with
  | ascending => exact Iff.rfl
  | descending => exact List.mem_reverse

/-- A value is rightful if it is live and was not tried, whichever order they
come in. -/
theorem mem_rightful : v ∈ o.rightful x ↔ v ∈ x.live ∧ v ∉ x.tried.values := by
  have htried : x.wasTried v ↔ v ∈ x.tried.values := Choices.contains_iff
  rw [rightful, List.mem_filter, mem_line, Variable.mem_live, ← htried,
    and_assoc]
  simp [Exclusion.Stack.contains]

/-- The value that should be tried comes before all others that may be. -/
theorem before_of_head?_rightful (h : (o.rightful x).head? = some v)
    (hu : u ∈ o.rightful x) (hne : u ≠ v) : o.Before v u := by
  obtain ⟨l, hl⟩ := List.head?_eq_some_iff.mp h
  have hpairs : (o.rightful x).Pairwise o.Before :=
    (o.pairwise_line x.domain).filter _
  rw [hl] at hpairs hu
  exact List.rel_of_pairwise_cons hpairs
    ((List.mem_cons.mp hu).resolve_left hne)

/-- The ascending order selects as it should, and so does the descending one in
a domain of fewer than 2047 values. -/
theorem select_eq_head?_rightful (ho : o = .ascending ∨ x.domain.size < 2047) :
    o.select x = (o.rightful x).head? := by
  cases o with
  | ascending =>
      rw [select, Variable.smallestUntried?, Domain.findUp?_eq, rightful,
        List.head?_filter, line]
  | descending =>
      have hsize : x.domain.size < 2047 := ho.resolve_left (by decide)
      rw [select, Variable.largestUntried?, Domain.findDown?_eq,
        Domain.walk_eq_of_size_lt hsize, rightful, List.head?_filter, line]

end ValueOrder

end ConstraintNet
