import ConstraintNet.Proofs.Exclusions
import ConstraintNet.Variable

/-!
# Settled variables

Between two steps of a search a variable has no marks waiting, its domain and
its pruned values make up the domain it started with, and its marks lie in the
domain.  Such a variable is settled.  Excluding values and taking exclusions
back keep it so, and none of them can fail.

`Later` says what a variable may have become through exclusions alone: more
batches on either stack, fewer values, and everything else as before.
-/

namespace ConstraintNet.Variable

/-- A variable without value, prunes and marks, whose domain is that it started
with. -/
structure IsFresh (x : Variable) : Prop where
  value : x.value = none
  tried : x.tried = ∅
  pruned : x.pruned = .empty .permanent
  marked : x.marked = .empty .soft
  pending : x.pending = ∅
  mem_domain : ∀ v, v ∈ x.domain ↔ v ∈ x.initial

/-- A variable that was just created is fresh. -/
theorem isFresh_fresh (id : Nat) (domain : Domain) :
    (fresh id domain).IsFresh where
  value := rfl
  tried := rfl
  pruned := rfl
  marked := rfl
  pending := rfl
  mem_domain _ := Iff.rfl

/-- All that exclusions ask for: no marks wait, and what is in the domain was
not pruned. -/
structure Calm (x : Variable) : Prop where
  pending : x.pending = ∅
  not_pruned : ∀ v ∈ x.domain, v ∉ x.pruned.excluded

/-- No marks wait, both stacks are lawful, domain and pruned values are the two
parts of the initial domain, and the marks lie in the domain. -/
structure Settled (x : Variable) : Prop where
  pending : x.pending = ∅
  pruned_lawful : x.pruned.Lawful
  marked_lawful : x.marked.Lawful
  mem_domain : ∀ v, v ∈ x.domain ↔ v ∈ x.initial ∧ v ∉ x.pruned.excluded
  pruned_initial : ∀ v ∈ x.pruned.excluded, v ∈ x.initial
  marked_domain : ∀ v ∈ x.marked.excluded, v ∈ x.domain

variable {x y z : Variable}

theorem Settled.calm (hx : x.Settled) : x.Calm where
  pending := hx.pending
  not_pruned v hv := ((hx.mem_domain v).mp hv).2

/-- A fresh variable is settled: nothing waits, nothing is marked and nothing
pruned. -/
theorem IsFresh.settled (hx : x.IsFresh) : x.Settled where
  pending := hx.pending
  pruned_lawful := hx.pruned ▸ Exclusion.Stack.lawful_empty _
  marked_lawful := hx.marked ▸ Exclusion.Stack.lawful_empty _
  mem_domain v := by simp [hx.mem_domain v, hx.pruned, Exclusion.Stack.empty]
  pruned_initial v hv := by simp [hx.pruned, Exclusion.Stack.empty] at hv
  marked_domain v hv := by simp [hx.marked, Exclusion.Stack.empty] at hv

/-- `y` is what `x` became by some prunes and some batches of marks. -/
structure Later (x y : Variable) (prunes marks : Nat) : Prop where
  id : y.id = x.id
  initial : y.initial = x.initial
  value : y.value = x.value
  tried : y.tried = x.tried
  pruned : ∃ l, l.length = prunes ∧ y.pruned.batches = l ++ x.pruned.batches
  marked : ∃ l, l.length = marks ∧ y.marked.batches = l ++ x.marked.batches
  pruned_kind : y.pruned.kind = x.pruned.kind
  marked_kind : y.marked.kind = x.marked.kind
  domain : ∀ v ∈ y.domain, v ∈ x.domain
  excluded : ∀ v ∈ x.marked.excluded, v ∈ y.marked.excluded
  calm : x.Calm → y.Calm
  settled : x.Settled → y.Settled

theorem Later.refl (x : Variable) : x.Later x 0 0 where
  id := rfl
  initial := rfl
  value := rfl
  tried := rfl
  pruned := ⟨[], rfl, rfl⟩
  marked := ⟨[], rfl, rfl⟩
  pruned_kind := rfl
  marked_kind := rfl
  domain _ hv := hv
  excluded _ hv := hv
  calm hx := hx
  settled hx := hx

theorem Later.trans {p m p' m' : Nat} (hxy : x.Later y p m)
    (hyz : y.Later z p' m') : x.Later z (p' + p) (m' + m) where
  id := hyz.id.trans hxy.id
  initial := hyz.initial.trans hxy.initial
  value := hyz.value.trans hxy.value
  tried := hyz.tried.trans hxy.tried
  pruned := by
    obtain ⟨l, hl, hy⟩ := hxy.pruned
    obtain ⟨l', hl', hz⟩ := hyz.pruned
    exact ⟨l' ++ l, by simp [hl, hl'], by rw [hz, hy, List.append_assoc]⟩
  marked := by
    obtain ⟨l, hl, hy⟩ := hxy.marked
    obtain ⟨l', hl', hz⟩ := hyz.marked
    exact ⟨l' ++ l, by simp [hl, hl'], by rw [hz, hy, List.append_assoc]⟩
  pruned_kind := hyz.pruned_kind.trans hxy.pruned_kind
  marked_kind := hyz.marked_kind.trans hxy.marked_kind
  domain v hv := hxy.domain v (hyz.domain v hv)
  excluded v hv := hyz.excluded v (hxy.excluded v hv)
  calm hx := hyz.calm (hxy.calm hx)
  settled hx := hyz.settled (hxy.settled hx)

/-- Only live values stay live: exclusions bring nothing back. -/
theorem Later.live {p m : Nat} (h : x.Later y p m) {v : Int} (hv : v ∈ y.live) :
    v ∈ x.live := by
  obtain ⟨hdomain, hmarked⟩ := mem_live.mp hv
  exact mem_live.mpr ⟨h.domain v hdomain, fun he => hmarked (h.excluded v he)⟩

/-! ## The effective domain -/

/-- What a variable shows is live, and is its value if it has one. -/
theorem mem_effective {v : Int} :
    v ∈ x.effective ↔ v ∈ x.live ∧ ∀ u, x.value = some u → v = u := by
  unfold effective
  cases hvalue : x.value with
  | none => simp
  | some u =>
      simp only [Option.some.injEq, forall_eq']
      by_cases hu : x.isLive u
      · rw [if_pos hu, ValueSet.mem_singleton]
        constructor
        · intro heq
          subst heq
          exact ⟨isLive_iff.mp hu, rfl⟩
        · exact fun h => h.2
      · rw [if_neg hu]
        constructor
        · exact fun h => absurd h (ValueSet.not_mem_empty v)
        · intro hparts
          obtain ⟨hv, rfl⟩ := hparts
          exact absurd (isLive_iff.mpr hv) hu

/-- The effective domain of a variable without a value is what is live. -/
theorem mem_effective_of_value_eq_none (hx : x.value = none) {v : Int} :
    v ∈ x.effective ↔ v ∈ x.live := by
  simp [mem_effective, hx]

/-- A variable is wiped out when it shows nothing. -/
theorem isWipedOut_iff : x.isWipedOut ↔ ∀ v, v ∉ x.effective := by
  unfold isWipedOut
  cases hvalue : x.value with
  | none =>
      simp only [mem_effective_of_value_eq_none hvalue,
        Option.isNone_iff_eq_none,
        Domain.findUp?_eq, List.find?_eq_none, mem_live,
        Exclusion.Stack.contains, Domain.mem_def]
      simp
  | some u =>
      simp only [mem_effective, hvalue, Bool.not_eq_eq_eq_not, Bool.not_true,
        Option.some.injEq, forall_eq']
      constructor
      · rintro h v ⟨hv, rfl⟩
        rw [isLive_iff.mpr hv] at h
        cases h
      · intro h
        cases hlive : x.isLive u with
        | false => rfl
        | true => exact absurd ⟨isLive_iff.mp hlive, rfl⟩ (h u)

/-- A variable that is not wiped out shows a value. -/
theorem exists_mem_effective (h : x.isWipedOut = false) :
    ∃ v, v ∈ x.effective := by
  apply Classical.byContradiction
  intro hnone
  have hwiped : x.isWipedOut = true :=
    isWipedOut_iff.mpr fun v hv => hnone ⟨v, hv⟩
  rw [h] at hwiped
  cases hwiped

/-- A support is a candidate that the variable shows. -/
theorem hasSupport_iff {candidates : List Int} :
    x.hasSupport candidates ↔ ∃ v ∈ candidates, v ∈ x.effective := by
  unfold hasSupport
  cases hvalue : x.value with
  | none =>
      simp only [mem_effective_of_value_eq_none hvalue, List.any_eq_true,
        isLive_iff]
  | some u =>
      simp only [mem_effective, hvalue, Bool.and_eq_true, isLive_iff,
        List.contains_iff_mem, Option.some.injEq, forall_eq']
      constructor
      · intro hparts
        obtain ⟨hu, hmem⟩ := hparts
        exact ⟨u, hmem, hu, rfl⟩
      · intro hparts
        obtain ⟨v, hmem, hv, rfl⟩ := hparts
        exact ⟨hv, hmem⟩

/-- The effective domain only shrinks, also where the variable has a value. -/
theorem Later.effective {p m : Nat} (h : x.Later y p m) {v : Int}
    (hv : v ∈ y.effective) : v ∈ x.effective := by
  obtain ⟨hlive, hvalue⟩ := mem_effective.mp hv
  exact mem_effective.mpr ⟨h.live hlive,
    fun u hu => hvalue u (h.value.trans hu)⟩

/-! ## Excluding values -/

/-- `y` is `x` after the values of a list were pruned one after the other. -/
structure Pruned (x : Variable) (l : List Int) (y : Variable) : Prop where
  later : x.Later y l.length 0
  mem_domain : ∀ v, v ∈ y.domain ↔ v ∈ x.domain ∧ v ∉ l
  batches : y.pruned.batches = l.reverse.map ([·]) ++ x.pruned.batches
  marked : y.marked = x.marked
  pending : y.pending = x.pending
  same : l = [] → y = x

/-- `y` is `x` after the values of a list were marked as one batch, if there are
any. -/
structure Hidden (x : Variable) (l : List Int) (y : Variable) : Prop where
  later : x.Later y 0 (if l = [] then 0 else 1)
  mem_live : ∀ v, v ∈ y.live ↔ v ∈ x.live ∧ v ∉ l
  batches : y.marked.batches = (if l = [] then [] else [l]) ++ x.marked.batches
  domain : y.domain = x.domain
  pruned : y.pruned = x.pruned
  pending : y.pending = x.pending
  same : l = [] → y = x

/-- Pruning takes its values away from what is live and nothing else. -/
theorem Pruned.mem_live {l : List Int} (h : x.Pruned l y) (v : Int) :
    v ∈ y.live ↔ v ∈ x.live ∧ v ∉ l := by
  rw [Variable.mem_live, Variable.mem_live, h.mem_domain, h.marked,
    and_right_comm]

/-- The same for the effective domain. -/
theorem Pruned.mem_effective {l : List Int} (h : x.Pruned l y) (v : Int) :
    v ∈ y.effective ↔ v ∈ x.effective ∧ v ∉ l := by
  rw [Variable.mem_effective, Variable.mem_effective, h.mem_live, h.later.value,
    and_right_comm]

/-- A batch of marks takes just its values out of the effective domain. -/
theorem Hidden.mem_effective {l : List Int} (h : x.Hidden l y) (v : Int) :
    v ∈ y.effective ↔ v ∈ x.effective ∧ v ∉ l := by
  rw [Variable.mem_effective, Variable.mem_effective, h.mem_live, h.later.value,
    and_right_comm]

theorem pruned_nil (x : Variable) : x.Pruned [] x where
  later := Later.refl x
  mem_domain v := by simp
  batches := rfl
  marked := rfl
  pending := rfl
  same _ := rfl

/-- Values are pruned one after another. -/
theorem Pruned.cons {v : Int} {l : List Int} (hxy : x.Pruned [v] y)
    (hyz : y.Pruned l z) : x.Pruned (v :: l) z where
  later := hxy.later.trans hyz.later
  mem_domain w := by
    rw [hyz.mem_domain, hxy.mem_domain, List.mem_singleton, List.mem_cons,
      not_or, and_assoc]
  batches := by
    rw [hyz.batches, hxy.batches]
    simp
  marked := hyz.marked.trans hxy.marked
  pending := hyz.pending.trans hxy.pending
  same h := absurd h (List.cons_ne_nil v l)

/-- A value that is not live is not pruned. -/
theorem prune_of_not_mem_live {v : Int} (hv : v ∉ x.live) :
    x.prune v = .ok (false, x) := by
  rw [prune, if_neg fun h => hv (isLive_iff.mp h)]

/-- **A live value can be pruned.** -/
theorem prune_of_mem_live (hx : x.Calm) {v : Int} (hv : v ∈ x.live) :
    ∃ y, x.prune v = .ok (true, y) ∧ x.Pruned [v] y := by
  have hdomain : v ∈ x.domain := (mem_live.mp hv).1
  have hout : v ∉ x.pruned.excluded := hx.not_pruned v hdomain
  have hsingle : ∀ w ∈ [v], w ∉ x.pruned.excluded := by
    intro w hw
    rw [List.mem_singleton.mp hw]
    exact hout
  obtain ⟨pruned, hpush, hkind, hbatches, _⟩ :=
    Exclusion.Stack.push_eq_ok (List.cons_ne_nil v [])
      (List.pairwise_singleton _ v) hsingle
  have hexcluded : ∀ w, w ∈ pruned.excluded ↔
      w = v ∨ w ∈ x.pruned.excluded := by
    intro w
    rw [Exclusion.Stack.mem_excluded_push hpush, List.mem_singleton]
  have hleft : ∀ w, w ∈ x.domain.erase v ↔ w ∈ x.domain ∧ w ≠ v := fun w =>
    Domain.mem_erase
  refine ⟨{ x with domain := x.domain.erase v, pruned }, ?_, ?_⟩
  · rw [prune, if_pos (isLive_iff.mpr hv), hpush]
  · refine ⟨?_, fun w => by rw [hleft, List.mem_singleton], hbatches, rfl, rfl,
      fun h => absurd h (List.cons_ne_nil v [])⟩
    refine { Later.refl x with
      pruned := ⟨[[v]], rfl, hbatches⟩
      pruned_kind := hkind
      domain := fun w hw => ((hleft w).mp hw).1
      calm := fun _ => ⟨hx.pending, ?_⟩
      settled := fun hs => { hs with
        pruned_lawful :=
          hs.pruned_lawful.of_push hpush hbatches (List.cons_ne_nil v [])
            (List.pairwise_singleton _ v) hsingle
        mem_domain := ?_
        pruned_initial := ?_
        marked_domain := ?_ } }
    · intro w hw hp
      obtain ⟨hwx, hne⟩ := (hleft w).mp hw
      rcases (hexcluded w).mp hp with rfl | hp
      · exact hne rfl
      · exact hx.not_pruned w hwx hp
    · intro w
      rw [hleft, hs.mem_domain w, hexcluded w, not_or]
      exact ⟨fun ⟨⟨hi, hp⟩, hne⟩ => ⟨hi, hne, hp⟩,
        fun ⟨hi, hne, hp⟩ => ⟨⟨hi, hp⟩, hne⟩⟩
    · intro w hw
      rcases (hexcluded w).mp hw with rfl | hw
      · exact ((hs.mem_domain w).mp hdomain).1
      · exact hs.pruned_initial w hw
    · intro w hw
      refine (hleft w).mpr ⟨hs.marked_domain w hw, ?_⟩
      intro heq
      subst heq
      exact (mem_live.mp hv).2 hw

/-- **Live values can be pruned one after the other**, if none is named
twice. -/
theorem pruneAll_of_live {l : List Int} (k : Nat) (hx : x.Calm)
    (hnodup : l.Nodup) (hlive : ∀ v ∈ l, v ∈ x.live) :
    ∃ y, x.pruneAll k l = .ok (k + l.length, y) ∧ x.Pruned l y := by
  induction l generalizing x k with
  | nil => exact ⟨x, rfl, pruned_nil x⟩
  | cons v l ih =>
      obtain ⟨hv, hnodup⟩ := List.nodup_cons.mp hnodup
      obtain ⟨hfirst, hrest⟩ := List.forall_mem_cons.mp hlive
      obtain ⟨y, hprune, hxy⟩ := prune_of_mem_live hx hfirst
      have hlive' : ∀ w ∈ l, w ∈ y.live := by
        intro w hw
        refine (hxy.mem_live w).mpr ⟨hrest w hw, fun heq => ?_⟩
        rw [List.mem_singleton] at heq
        exact hv (heq ▸ hw)
      obtain ⟨z, hall, hyz⟩ := ih (k + 1) (hxy.later.calm hx) hnodup hlive'
      refine ⟨z, ?_, hxy.cons hyz⟩
      rw [pruneAll, hprune]
      simp only [Bool.toNat_true, hall, List.length_cons]
      congr 2
      omega

/-- **Unsupported values can be hidden**, as one batch.  The flag tells whether
there were any. -/
theorem hideUnsupported_of_calm (hx : x.Calm) (supported : Int → Bool)
    {l : List Int} (hl : (x.unsupported supported).toList = l) :
    ∃ y, x.hideUnsupported supported = .ok (!l.isEmpty, y) ∧ x.Hidden l y ∧
      y.marked.size = x.marked.size + l.length := by
  have hempty : x.pending.isEmpty = true := by rw [hx.pending]; rfl
  have hsub : ∀ w ∈ l, w ∈ x.live := by
    intro w hw
    rw [← hl, ← ValueSet.mem_def, unsupported, ValueSet.mem_filter] at hw
    exact hw.1
  have hnot : ∀ w ∈ l, w ∉ x.marked.excluded := fun w hw =>
    (mem_live.mp (hsub w hw)).2
  have hnodup : l.Nodup := hl ▸ (x.unsupported supported).nodup
  cases l with
  | nil =>
      refine ⟨x, ?_,
        ⟨Later.refl x, fun w => by simp, rfl, rfl, rfl, rfl, fun _ => rfl⟩, rfl⟩
      simp only [hideUnsupported, hempty, hl, Exclusion.Stack.push_nil, if_true,
        List.isEmpty_nil, Bool.not_true]
  | cons v l =>
      obtain ⟨marked, hpush, hkind, hbatches, hsize⟩ :=
        Exclusion.Stack.push_eq_ok (List.cons_ne_nil v l) hnodup hnot
      have hexcluded : ∀ w, w ∈ marked.excluded ↔
          w ∈ v :: l ∨ w ∈ x.marked.excluded :=
        fun w => Exclusion.Stack.mem_excluded_push hpush
      refine ⟨{ x with marked }, ?_, ⟨?_, fun w => ?_, hbatches, rfl, rfl, rfl,
        fun h => absurd h (List.cons_ne_nil v l)⟩, hsize⟩
      · simp only [hideUnsupported, hempty, hl, hpush, if_true,
          List.isEmpty_cons, Bool.not_false]
      · refine { Later.refl x with
          marked := ⟨[v :: l], rfl, hbatches⟩
          marked_kind := hkind
          excluded := fun w hw => (hexcluded w).mpr (Or.inr hw)
          calm := fun _ => ⟨hx.pending, hx.not_pruned⟩
          settled := fun hs => { hs with
            marked_lawful :=
              hs.marked_lawful.of_push hpush hbatches (List.cons_ne_nil v l)
                hnodup hnot
            marked_domain := ?_ } }
        intro w hw
        rcases (hexcluded w).mp hw with hw | hw
        · exact (mem_live.mp (hsub w hw)).1
        · exact hs.marked_domain w hw
      · have hlive : w ∈ ({ x with marked } : Variable).live ↔
            w ∈ x.domain ∧ w ∉ marked.excluded := mem_live
        rw [hlive, hexcluded w, not_or, mem_live]
        exact ⟨fun h => ⟨⟨h.1, h.2.2⟩, h.2.1⟩, fun h => ⟨h.1.1, h.2, h.1.2⟩⟩

end ConstraintNet.Variable
