import ConstraintNet.Choices
import ConstraintNet.Domain
import ConstraintNet.Exclusion.Stack
/-!
# Variables

A variable has a domain of values, some of which are hidden by marks, and
possibly an assigned value.  Pruning takes a value out of the domain, marking
hides values that stay in it; both are stacks of exclusions and are taken back
one batch at a time.  Marks are gathered first and take effect together when
they are committed.  The values tried so far by a search form a stack of their
own.

What the rest of the network sees is the effective domain: the unmarked values,
or the assigned value alone.

Main facts:

* `room_prune`, `room_pruneAll`, `room_markUnsupported_commitMarks` — every
  exclusion takes away room, which is what makes propagation end.
-/

namespace ConstraintNet

/-- A variable of the network. -/
structure Variable where
  id : Nat
  /-- The domain that the variable started with. -/
  initial : Domain
  /-- The values not pruned. -/
  domain : Domain
  /-- The assigned value. -/
  value : Option Int
  /-- The values assigned by open choices. -/
  tried : Choices
  pruned : Exclusion.Stack
  marked : Exclusion.Stack
  /-- Marks gathered and not committed yet. -/
  pending : Std.ExtTreeSet Int
deriving Inhabited

namespace Variable

/-- A fresh variable with a given domain. -/
def fresh (id : Nat) (domain : Domain) : Variable where
  id
  initial := domain
  domain
  value := none
  tried := ∅
  pruned := .empty .permanent
  marked := .empty .soft
  pending := ∅

/-- A fresh variable whose domain is filled with the values of a list in
turn. -/
def new (id : Nat) (values : List Int) : Variable := fresh id (.ofList values)

/-- A fresh variable whose domain is all of an interval. -/
def ofBounds (id : Nat) (lower upper : Int) : Variable :=
  new id (interval lower upper)

/-- A fresh variable with the values that the variable started with. -/
def reset (x : Variable) : Variable := new x.id x.initial.toList

variable (x : Variable)

/-- Whether the variable has a value. -/
def isAssigned : Bool := x.value.isSome

/-- Whether `v` is in the domain and not marked. -/
def isLive (v : Int) : Bool := v ∈ x.domain && !x.marked.contains v

/-- The live values. -/
def live : ValueSet := x.domain.values.filter fun v => !x.marked.contains v

/-! ## Pruning -/

/-- Takes a live value out of the domain.  The flag tells whether there was one
to take. -/
def prune (v : Int) : Except Fault (Bool × Variable) :=
  if x.isLive v then
    match x.pruned.push [v] with
    | .ok (_, pruned) =>
        .ok (true, { x with domain := x.domain.erase v, pruned })
    | .error e => .error e
  else .ok (false, x)

/-- Takes values out of the domain one after the other, and adds to a count
those that were live. -/
def pruneAll (x : Variable) (count : Nat) :
    List Int → Except Fault (Nat × Variable)
  | [] => .ok (count, x)
  | v :: l =>
    match x.prune v with
    | .error e => .error e
    | .ok (b, x) => x.pruneAll (count + b.toNat) l

/-- Puts the latest pruned batch back into the domain and gives its first
value. -/
def undoPrune : Except Fault (Int × Variable) :=
  match x.pruned.pop? with
  | some (v :: batch, pruned) =>
      .ok (v, { x with domain := x.domain.insertAll (v :: batch), pruned })
  | _ => .error (.nothingExcluded .permanent x.id)

/-! ## Assignment -/

/-- Assigns `v` and counts it as tried. -/
def assign (v : Int) : Variable :=
  { x with value := some v, tried := x.tried.push v }

/-- Takes the value away.  What was tried stays tried. -/
def unassign : Variable := { x with value := none }

/-- Forgets the latest tried value. -/
def retire : Except Fault Variable :=
  match x.tried.pop? with
  | none => .error (.nothingChosen x.id)
  | some (_, tried) => .ok { x with tried }

/-- Whether `v` was tried. -/
def wasTried (v : Int) : Bool := x.tried.contains v

/-! ## Marking -/

/-- The live values without support. -/
def unsupported (supported : Int → Bool) : ValueSet :=
  x.live.filter fun v => !supported v

/-- Gathers marks for the live values without support. -/
def markUnsupported (supported : Int → Bool) : Variable :=
  { x with pending := x.pending.insertMany (x.unsupported supported).toList }

/-- Hides the gathered values, as one batch.  The flag tells whether there were
any. -/
def commitMarks : Except Fault (Bool × Variable) :=
  match x.marked.push x.pending.toList with
  | .ok (b, marked) => .ok (b, { x with marked, pending := ∅ })
  | .error e => .error e

/-- Marks the live values without support and hides them at once, together with
those gathered before. -/
def hideUnsupported (supported : Int → Bool) : Except Fault (Bool × Variable) :=
  if x.pending.isEmpty then
    match x.marked.push (x.unsupported supported).toList with
    | .ok (b, marked) => .ok (b, { x with marked })
    | .error e => .error e
  else (x.markUnsupported supported).commitMarks

/-- Shows the values of the latest batch again and gives them. -/
def undoMark : Except Fault (List Int × Variable) :=
  match x.marked.pop? with
  | some (batch, marked) => .ok (batch, { x with marked })
  | none => .error (.nothingExcluded .soft x.id)

/-! ## The effective domain -/

/-- The assigned value if it is live, or all live values if none is assigned. -/
def effective : ValueSet :=
  match x.value with
  | some v => if x.isLive v then .singleton v else ∅
  | none => x.live

/-- The size of the effective domain. -/
def effectiveSize : Nat :=
  match x.value with
  | some v => (x.isLive v).toNat
  | none => x.live.size

/-- Whether nothing is left. -/
def isWipedOut : Bool :=
  match x.value with
  | some v => !x.isLive v
  | none => (x.domain.findUp? fun v => !x.marked.contains v).isNone

/-- Whether one of the candidates is left. -/
def hasSupport (candidates : List Int) : Bool :=
  match x.value with
  | some v => x.isLive v && candidates.contains v
  | none => candidates.any x.isLive

/-- The least live value that was not tried. -/
def smallestUntried? : Option Int :=
  x.domain.findUp? fun v => !x.marked.contains v && !x.wasTried v

/-- The first live value that was not tried on the walk down the domain. -/
def largestUntried? : Option Int :=
  x.domain.findDown? fun v => !x.marked.contains v && !x.wasTried v

/-! ## Views -/

/-- What a variable shows of itself: domain, marks, value and the depths of its
stacks. -/
structure Snapshot where
  domain : List Int
  marked : List Int
  value : Option Int
  prunedDepth : Nat
  markedDepth : Nat
deriving DecidableEq

/-- The view of the variable. -/
def snapshot : Snapshot where
  domain := x.domain.toList
  marked := x.marked.excluded.toList
  value := x.value
  prunedDepth := x.pruned.depth
  markedDepth := x.marked.depth

/-- Whether domain and pruned values make up the initial domain, and the marks
lie in the domain. -/
def isPartitioned : Bool :=
  x.pruned.size == x.initial.size - x.domain.size
    && x.pruned.excluded.toList.all (· ∈ x.initial)
    && x.pruned.excluded.toList.all (· ∉ x.domain)
    && x.marked.excluded.toList.all (· ∈ x.domain)

/-! ## Room -/

/-- What can still be excluded: the live values and the gathered marks. -/
def room : Nat := x.live.size + x.pending.size

variable {x}

/-- Hiding at once is gathering and then hiding. -/
theorem hideUnsupported_eq (supported : Int → Bool) :
    x.hideUnsupported supported =
      (x.markUnsupported supported).commitMarks := by
  unfold hideUnsupported
  split
  · rename_i h
    have hp : x.pending = ∅ := Std.ExtTreeSet.isEmpty_iff.mp h
    have hl : (x.markUnsupported supported).pending.toList =
        (x.unsupported supported).toList := by
      have ht :
          (∅ : Std.ExtTreeSet Int).insertMany
              (x.unsupported supported).toList =
            .ofList (x.unsupported supported).toList :=
        Std.ExtTreeSet.ext_mem fun v => by
          simp [Std.ExtTreeSet.mem_ofList]
      rw [markUnsupported, hp, ht]
      exact congrArg ValueSet.toList
        (ValueSet.ofList_toList (x.unsupported supported))
    rw [commitMarks, hl, ← hp]
    rfl
  · rfl

/-- The live values are those of the domain that are not marked. -/
theorem mem_live {v : Int} :
    v ∈ x.live ↔ v ∈ x.domain ∧ v ∉ x.marked.excluded := by
  simp [live, Exclusion.Stack.contains]

/-- The test for a live value agrees with them. -/
theorem isLive_iff {v : Int} : x.isLive v ↔ v ∈ x.live := by
  simp [mem_live, isLive, Exclusion.Stack.contains]

/-- Pruning takes away room for the value it takes. -/
theorem room_prune {y : Variable} {v : Int} {b : Bool}
    (h : x.prune v = .ok (b, y)) : y.room + b.toNat ≤ x.room := by
  unfold prune at h
  split at h
  · rename_i hv
    split at h
    · cases h
      have hlive :
          ValueSet.filter (fun w => !x.marked.contains w)
            (x.domain.erase v).values
          = x.live.filter (· != v) := ValueSet.ext_mem fun w => by
        simp [mem_live, Exclusion.Stack.contains, and_right_comm]
      have hlt : (x.live.filter (· != v)).size < x.live.size :=
        ValueSet.size_filter_lt (isLive_iff.mp hv) (by simp)
      simp only [room, live, Bool.toNat_true] at hlt ⊢
      rw [hlive]
      simp only [live]
      omega
    · cases h
  · cases h
    simp

/-- Pruning takes away room for each value that it takes. -/
theorem room_pruneAll {l : List Int} {y : Variable} {k n : Nat}
    (h : x.pruneAll k l = .ok (n, y)) : y.room + n ≤ x.room + k := by
  induction l generalizing x k with
  | nil =>
      cases h
      exact Nat.le_refl _
  | cons v l ih =>
      rw [pruneAll] at h
      split at h
      · cases h
      · rename_i b z hz
        have := room_prune hz
        have := ih h
        omega

/-- Marking and committing takes away room when something was hidden. -/
theorem room_markUnsupported_commitMarks {y : Variable} {supported : Int → Bool}
    {b : Bool} (h : (x.markUnsupported supported).commitMarks = .ok (b, y)) :
    y.room + b.toNat ≤ x.room := by
  unfold commitMarks at h
  split at h
  · rename_i flag marked hpush
    simp only [Except.ok.injEq, Prod.mk.injEq] at h
    obtain ⟨rfl, hy⟩ := h
    have hroom :
        y.room = (x.live.filter
          (· ∉ (x.markUnsupported supported).pending)).size := by
      have hlive :
          y.live = x.live.filter (· ∉ (x.markUnsupported supported).pending) :=
        ValueSet.ext_mem fun v => by
          have hm : v ∈ marked.excluded ↔
              v ∈ (x.markUnsupported supported).pending ∨
              v ∈ x.marked.excluded := by
            rw [Exclusion.Stack.mem_excluded_push hpush,
              Std.ExtTreeSet.mem_toList]
            rfl
          have hd : y.domain = x.domain := by rw [← hy, markUnsupported]
          have hk : y.marked = marked := by rw [← hy]
          simp only [ValueSet.mem_filter, mem_live, hd, hk, hm,
            decide_eq_true_eq, not_or]
          exact ⟨fun h => ⟨⟨h.1, h.2.2⟩, h.2.1⟩, fun h => ⟨h.1.1, h.2, h.1.2⟩⟩
      have hp : y.pending = ∅ := by rw [← hy]
      rw [room, hlive, hp]
      rfl
    rw [hroom]
    have hle :=
      ValueSet.size_filter_le (· ∉ (x.markUnsupported supported).pending) x.live
    cases flag with
    | false => simp only [room, Bool.toNat_false]; omega
    | true =>
        simp only [room, Bool.toNat_true]
        by_cases hp : x.pending.size = 0
        · have hne : (x.markUnsupported supported).pending.toList ≠ [] := by
            intro he
            simp [Exclusion.Stack.push, he] at hpush
          obtain ⟨v, hv⟩ := List.exists_mem_of_ne_nil _ hne
          have hv := Std.ExtTreeSet.mem_toList.mp hv
          have hlv : v ∈ x.live := by
            rw [markUnsupported,
              Std.ExtTreeSet.eq_empty_iff_size_eq_zero.mpr hp,
              Std.ExtTreeSet.mem_insertMany_list, List.contains_iff_mem] at hv
            rcases hv with hv | hv
            · exact absurd hv Std.ExtTreeSet.not_mem_empty
            · exact (ValueSet.mem_filter.mp hv).1
          have := ValueSet.size_filter_lt
            (p := (· ∉ (x.markUnsupported supported).pending)) hlv
            (by simpa using hv)
          omega
        · omega
  · cases h

end Variable

end ConstraintNet
