import ConstraintNet.Proofs.Built
import ConstraintNet.Proofs.Draws
import ConstraintNet.Proofs.Selection
import ConstraintNet.Proofs.Views

/-!
# Which variable is chosen

Each order chooses one of the variables without value, and none just when all
have values.  Those that go by position, by what is left of a domain or by
neighbours choose the foremost: of the variables without value that rank lowest,
the first.  The random order chooses by draws, and whichever words these are,
they come to one of the variables without value.

* `Arena.isLeast_of_split` — where the foremost stands among the variables
  without value;
* `VariableOrder.select_eq_some_iff` — the orders that do not draw choose it;
* `VariableOrder.select_eq_none_iff`, `VariableOrder.isUnassigned_of_select` —
  what all orders have in common.
-/

namespace ConstraintNet

namespace Arena

/-- The variable at a position has no value. -/
def IsUnassigned (m : Arena) (i : Nat) : Prop :=
  ∃ x, m.read i = .ok x ∧ x.value = none

/-- The positions without value at which a rank is lowest. -/
def lowest (m : Arena) (rank : Nat → Int) : Set Nat :=
  {i | m.IsUnassigned i ∧ ∀ j, m.IsUnassigned j → rank i ≤ rank j}

variable {m : Arena} {i : Nat} {x : Variable} {rank : Nat → Int}

/-- An assignment is complete when no variable is unassigned. -/
theorem isComplete_iff_not_isUnassigned :
    m.isComplete ↔ ∀ i, ¬ m.IsUnassigned i := by
  rw [isComplete_iff]
  simp only [IsUnassigned, not_exists, not_and, Variable.isAssigned,
    Option.isSome_iff_ne_none]

/-- The unassigned variables are the ids of those in the list. -/
theorem isUnassigned_iff_mem (hnumbered : m.IsNumbered) :
    m.IsUnassigned i ↔ i ∈ m.unassigned.map Variable.id := by
  rw [List.mem_map]
  constructor
  · rintro ⟨x, hx, hvalue⟩
    exact ⟨x, mem_unassigned.mpr ⟨⟨i, hx⟩, hvalue⟩, hnumbered i x hx⟩
  · rintro ⟨x, hx, rfl⟩
    obtain ⟨hread, hvalue⟩ := read_of_mem_unassigned hnumbered hx
    exact ⟨x, hread, hvalue⟩

/-- What ranks below all ahead of it, and not above any behind it, is the
foremost. -/
theorem isLeast_of_split (hnumbered : m.IsNumbered)
    {before after : List Variable}
    (hsplit : m.unassigned = before ++ x :: after)
    (hbefore : ∀ y ∈ before, rank x.id < rank y.id)
    (hafter : ∀ y ∈ after, rank x.id ≤ rank y.id) :
    IsLeast (m.lowest rank) x.id := by
  have hpositions := pairwise_unassigned hnumbered
  rw [hsplit] at hpositions
  have hall : ∀ y ∈ m.unassigned, rank x.id ≤ rank y.id ∧
      (rank y.id ≤ rank x.id → x.id ≤ y.id) := by
    intro y hy
    rw [hsplit] at hy
    rcases List.mem_append.mp hy with hy | hy
    · exact ⟨le_of_lt (hbefore y hy),
        fun hle => absurd (hbefore y hy) (not_lt_of_ge hle)⟩
    · rcases List.mem_cons.mp hy with rfl | hy
      · exact ⟨le_refl _, fun _ => le_refl _⟩
      · exact ⟨hafter y hy, fun _ =>
          le_of_lt (List.rel_of_pairwise_cons
            (List.pairwise_append.mp hpositions).2.1 hy)⟩
  have hx : m.IsUnassigned x.id :=
    (isUnassigned_iff_mem hnumbered).mpr
      (List.mem_map_of_mem (by simp [hsplit]))
  refine ⟨⟨hx, fun j hj => ?_⟩, ?_⟩
  · obtain ⟨y, hy, rfl⟩ :=
      List.mem_map.mp ((isUnassigned_iff_mem hnumbered).mp hj)
    exact (hall y hy).1
  · rintro j ⟨hj, hlow⟩
    obtain ⟨y, hy, rfl⟩ :=
      List.mem_map.mp ((isUnassigned_iff_mem hnumbered).mp hj)
    exact (hall y hy).2 (hlow x.id hx)

end Arena

namespace VariableOrder

variable {o : VariableOrder} {m : Arena} {net : Network} {g : Random.Generator}
  {i : Nat}

/-- What an order goes by before the position; the variable with less of it
comes first. -/
def rank (o : VariableOrder) (net : Network) (m : Arena) (i : Nat) : Int :=
  match o with
  | .smallestDomainFirst => (m.effective i).size
  | _ => -o.weight net i

/-- An order that does not draw chooses the foremost. -/
theorem isLeast_of_select (ho : o ≠ .random) (hnumbered : m.IsNumbered)
    (h : (o.select m net g).1 = some i) :
    IsLeast (m.lowest (o.rank net m)) i := by
  have hstatic : ∀ o : VariableOrder, o.IsStatic →
      (o.select m net g).1 = some i →
      IsLeast (m.lowest fun j => -o.weight net j) i := by
    intro o ho h
    have hselect : o.select m net g = (some i, (o.select m net g).2) :=
      Prod.ext h rfl
    obtain ⟨before, x, after, hsplit, rfl, hbefore, hafter⟩ :=
      exists_split_of_select ho hselect
    refine Arena.isLeast_of_split hnumbered hsplit (fun y hy => ?_) fun y hy =>
      ?_
    · have := hbefore y hy
      omega
    · have := hafter y hy
      omega
  cases o with
  | ascending => exact hstatic .ascending (.inl rfl) h
  | smallestDomainFirst =>
      obtain ⟨before, x, after, hsplit, rfl, hbefore, hafter⟩ :=
        exists_split_of_ranked (fun k => k) (fun p q => by simp) h
      have hsize : ∀ y ∈ before ++ x :: after,
          (m.effective y.id).size = y.effectiveSize := by
        intro y hy
        obtain ⟨hread, -⟩ :=
          Arena.read_of_mem_unassigned hnumbered (hsplit ▸ hy)
        rw [Arena.effective_of_read hread, Variable.effectiveSize_eq]
      have hx := hsize x (by simp)
      refine Arena.isLeast_of_split hnumbered hsplit (fun y hy => ?_)
        fun y hy => ?_
      · rw [rank, rank, hx, hsize y (List.mem_append_left _ hy)]
        exact hbefore y hy
      · rw [rank, rank, hx,
          hsize y (List.mem_append_right _ (List.mem_cons_of_mem x hy))]
        exact hafter y hy
  | mostConstrainedFirst => exact hstatic .mostConstrainedFirst (.inr rfl) h
  | random => exact absurd rfl ho

/-- Nothing is chosen just when all variables have values. -/
theorem select_eq_none_iff (o : VariableOrder) (hnumbered : m.IsNumbered) :
    (o.select m net g).1 = none ↔ m.isComplete := by
  constructor
  · intro hnone
    by_contra hincomplete
    obtain ⟨i, g', x, hselect, -⟩ :=
      o.isLegal m net g hnumbered (Bool.eq_false_iff.mpr hincomplete)
    rw [hselect] at hnone
    cases hnone
  · intro hcomplete
    cases o <;> simp [select, Arena.firstUnassigned?_eq, least?, greatest?,
      best?, Random.choose,
      Random.chooseFrom, Arena.unassigned_eq_nil hcomplete]

/-- What is chosen has no value. -/
theorem isUnassigned_of_select (o : VariableOrder) (hnumbered : m.IsNumbered)
    (h : (o.select m net g).1 = some i) : m.IsUnassigned i := by
  have hincomplete : m.isComplete = false :=
    Bool.eq_false_iff.mpr fun hcomplete => by
      rw [(o.select_eq_none_iff hnumbered).mpr hcomplete] at h
      cases h
  obtain ⟨i', g', x, hselect, hx⟩ := o.isLegal m net g hnumbered hincomplete
  rw [hselect] at h
  cases h
  exact ⟨x, hx⟩

/-- **An order that does not draw chooses the foremost, and nothing else.** -/
theorem select_eq_some_iff (ho : o ≠ .random) (hnumbered : m.IsNumbered) :
    (o.select m net g).1 = some i ↔ IsLeast (m.lowest (o.rank net m)) i := by
  refine ⟨isLeast_of_select ho hnumbered, fun hleast => ?_⟩
  cases hselect : (o.select m net g).1 with
  | none =>
      have hcomplete := (o.select_eq_none_iff hnumbered).mp hselect
      exact absurd hleast.1.1
        (Arena.isComplete_iff_not_isUnassigned.mp hcomplete i)
  | some j => rw [(isLeast_of_select ho hnumbered hselect).unique hleast]

/-- By domains those rank lowest that have the fewest values left. -/
theorem lowest_smallestDomainFirst (m : Arena) (net : Network) :
    m.lowest (smallestDomainFirst.rank net m) =
      {i | ∃ x, m.read i = .ok x ∧ x.value = none ∧
        ∀ j y, m.read j = .ok y → y.value = none →
          x.effectiveSize ≤ y.effectiveSize} := by
  have hrank : ∀ i x, m.read i = .ok x →
      smallestDomainFirst.rank net m i = x.effectiveSize := by
    intro i x hx
    rw [rank, Arena.effective_of_read hx, Variable.effectiveSize_eq]
  ext i
  constructor
  · rintro ⟨⟨x, hx, hvalue⟩, hlow⟩
    refine ⟨x, hx, hvalue, fun j y hy hvalue' => ?_⟩
    have hle := hlow j ⟨y, hy, hvalue'⟩
    rw [hrank i x hx, hrank j y hy] at hle
    exact Int.ofNat_le.mp hle
  · rintro ⟨x, hx, hvalue, hfewest⟩
    refine ⟨⟨x, hx, hvalue⟩, ?_⟩
    rintro j ⟨y, hy, hvalue'⟩
    rw [hrank i x hx, hrank j y hy]
    exact Int.ofNat_le.mpr (hfewest j y hy hvalue')

/-- **Each order chooses a variable without value, and those that do not draw
choose the first of those that serve them best.**  On any variables that are in
their places, whatever was done to them, on any network and in any state of the
generator: an order chooses none just when all variables have values, and else
one without.  By position it is the first of these; by domains the first of
those with the fewest values left; by neighbours the first of those with the
most neighbours.  The random order too chooses none or one of these, whatever
words it draws, if the draws end. -/
theorem select_serves_best (m : Arena) (net : Network) (g : Random.Generator)
    (hnumbered : m.IsNumbered) :
    (∀ o : VariableOrder,
      ((o.select m net g).1 = none ↔ ∀ i x, m.read i = .ok x → x.isAssigned) ∧
      ∀ i, (o.select m net g).1 = some i →
        ∃ x, m.read i = .ok x ∧ x.id = i ∧ x.value = none) ∧
    (∀ i, (ascending.select m net g).1 = some i ↔
      IsLeast {i | m.IsUnassigned i} i) ∧
    (∀ i, (smallestDomainFirst.select m net g).1 = some i ↔
      IsLeast {i | ∃ x, m.read i = .ok x ∧ x.value = none ∧
        ∀ j y, m.read j = .ok y → y.value = none →
          x.effectiveSize ≤ y.effectiveSize} i) ∧
    (∀ i, (mostConstrainedFirst.select m net g).1 = some i ↔
      IsLeast {i | m.IsUnassigned i ∧
        ∀ j, m.IsUnassigned j → net.degree j ≤ net.degree i} i) ∧
    ∀ drawn c, Random.Chosen 1 none (m.unassigned.map Variable.id) drawn c →
      (c = none ↔ ∀ i x, m.read i = .ok x → x.isAssigned) ∧
      (∀ i, c = some i → m.IsUnassigned i) ∧
      ∀ g', (∀ words ∈ drawn, words.length ≤ 0x100000000) →
        g.Yields drawn.flatten g' →
        random.select m net g = (c, g') := by
  refine ⟨fun o => ⟨?_, fun i hi => ?_⟩, fun i => ?_, fun i => ?_,
    fun i => ?_, ?_⟩
  · rw [o.select_eq_none_iff hnumbered, Arena.isComplete_iff]
  · obtain ⟨x, hx, hvalue⟩ := o.isUnassigned_of_select hnumbered hi
    exact ⟨x, hx, hnumbered i x hx, hvalue⟩
  · rw [select_eq_some_iff (by decide) hnumbered]
    simp only [Arena.lowest, rank, weight, le_refl, implies_true, and_true]
  · rw [select_eq_some_iff (by decide) hnumbered, lowest_smallestDomainFirst]
  · rw [select_eq_some_iff (by decide) hnumbered]
    simp only [Arena.lowest, rank, weight, Int.neg_le_neg_iff, Int.ofNat_le]
  · intro drawn c hchosen
    refine ⟨?_, ?_, fun g' htime hg => hchosen.chooseFrom_eq htime hg⟩
    · rw [hchosen.eq_none_iff, List.map_eq_nil_iff, ← Arena.isComplete_iff]
      exact ⟨fun hnil => by_contra fun h =>
        Arena.unassigned_ne_nil (Bool.eq_false_iff.mpr h) hnil,
        Arena.unassigned_eq_nil⟩
    · rintro i rfl
      rcases hchosen.mem with hnone | ⟨j, hj, hij⟩
      · cases hnone
      · cases hij
        exact (Arena.isUnassigned_iff_mem hnumbered).mpr hj

/-- The first variable has a value, and each order chooses another of the rest.
The first word drawn is refused, and the choice so far is given up once. -/
theorem select_serves_best_of_four :
    let m : Arena :=
      .ofList [(Variable.new 0 [0]).assign 0, .new 1 [0, 1, 2],
        .new 2 [0, 1, 2],
      .new 3 [0, 1]]
    let net := [(1, 2), (2, 3), (3, 0)].foldl
      (fun (net : Network) (i, j) =>
        net.insertSymmetric { first := i, second := j, pairs := [] }) ∅
    let g : Random.Generator := ⟨.replicate 8 0, 0,
      #v[0x80000000, 5, 3, 0x60000000, 0, 0, 0, 0, 0, 0, 0, 0, 0, 0, 0, 0]⟩
    m.IsNumbered ∧ (ascending.select m net g).1 = some 1 ∧
      IsLeast {i | m.IsUnassigned i} 1 ∧
      IsLeast {i | ∃ x, m.read i = .ok x ∧ x.value = none ∧
        ∀ j y, m.read j = .ok y → y.value = none →
          x.effectiveSize ≤ y.effectiveSize} 3 ∧
      IsLeast {i | m.IsUnassigned i ∧
        ∀ j, m.IsUnassigned j → net.degree j ≤ net.degree i} 2 ∧
      random.select m net g = (some 2, { g with position := 4 }) := by
  intro m net g
  have hnumbered : m.IsNumbered := by
    intro i x hx
    match i, hx with
    | 0, hx => cases hx; rfl
    | 1, hx => cases hx; rfl
    | 2, hx => cases hx; rfl
    | 3, hx => cases hx; rfl
  obtain ⟨-, hfirst, hfewest, hmost, hrandom⟩ :=
    select_serves_best m net g hnumbered
  have hchosen : Random.Chosen 1 none (m.unassigned.map Variable.id)
      [[0x80000000, 5], [3], [0x60000000]] (some 2) :=
    .cons (.refused (by decide) (.accepted (by decide)))
      (.cons (.accepted (by decide)) (.cons (.accepted (by decide)) .nil))
  have hascending : (ascending.select m net g).1 = some 1 := rfl
  refine ⟨hnumbered, hascending, (hfirst 1).mp hascending, (hfewest 3).mp ?_,
    (hmost 2).mp ?_,
    (hrandom _ _ hchosen).2.2 _ (by decide) ⟨rfl, rfl, rfl, rfl, rfl⟩⟩
  · decide +kernel
  · decide +kernel

end VariableOrder

end ConstraintNet
