import Std.Data.ExtTreeSet
import ConstraintNet.Fault
/-!
# Stacks of exclusions

Values leave a variable in batches, and come back batch by batch, the last one
first.  The stack keeps the set of all values excluded at the moment beside the
batches.  Pushing a value that is excluded already is a fault.

Main facts:

* `pop?_push` — popping takes back exactly the last push;
* `mem_excluded_push` — a push excludes its batch and nothing else.
-/

namespace ConstraintNet.Exclusion

/-- Batches of excluded values. -/
structure Stack where
  kind : Kind
  /-- The batches, the latest first. -/
  batches : List (List Int)
  /-- The values of all batches. -/
  excluded : Std.ExtTreeSet Int
deriving DecidableEq, Inhabited

namespace Stack

/-- The stack without batches. -/
def empty (kind : Kind) : Stack := ⟨kind, [], ∅⟩

/-- Excludes the values of a batch one after the other; a value that is excluded
already is a fault. -/
def exclude (kind : Kind) :
    Std.ExtTreeSet Int → List Int → Except Fault (Std.ExtTreeSet Int)
  | s, [] => .ok s
  | s, v :: batch =>
    match s.containsThenInsert v with
    | (true, _) => .error (.excludedTwice kind v)
    | (false, s) => exclude kind s batch

/-- The set without the values of a batch. -/
def release (s : Std.ExtTreeSet Int) (batch : List Int) : Std.ExtTreeSet Int :=
  batch.foldl (·.erase ·) s

/-- Pushes a batch.  An empty batch is not pushed; the flag tells which. -/
def push (t : Stack) (batch : List Int) : Except Fault (Bool × Stack) :=
  if batch.isEmpty then .ok (false, t) else
    match exclude t.kind t.excluded batch with
    | .ok s =>
        .ok (true, { t with batches := batch :: t.batches, excluded := s })
    | .error e => .error e

/-- Takes back the latest batch. -/
def pop? (t : Stack) : Option (List Int × Stack) :=
  match t.batches with
  | [] => none
  | batch :: rest =>
      some (batch,
        { t with batches := rest, excluded := release t.excluded batch })

/-- Whether a value is excluded. -/
def contains (t : Stack) (v : Int) : Bool := v ∈ t.excluded

/-- The number of batches. -/
def depth (t : Stack) : Nat := t.batches.length

/-- The number of excluded values. -/
def size (t : Stack) : Nat := t.excluded.size

/-- Whether there is no batch. -/
def isEmpty (t : Stack) : Bool := t.batches.isEmpty

/-- An insertion adds its value. -/
theorem mem_insert {s : Std.ExtTreeSet Int} {v a : Int} :
    v ∈ s.insert a ↔ v = a ∨ v ∈ s := by
  rw [Std.ExtTreeSet.mem_insert, Std.LawfulEqCmp.compare_eq_iff_eq, eq_comm]

/-- A release takes the batch out and nothing else. -/
theorem mem_release {s : Std.ExtTreeSet Int} {batch : List Int} {v : Int} :
    v ∈ release s batch ↔ v ∈ s ∧ v ∉ batch := by
  induction batch generalizing s with
  | nil => simp [release]
  | cons a batch ih =>
      have : release s (a :: batch) = release (s.erase a) batch := rfl
      rw [this, ih, Std.ExtTreeSet.mem_erase, ne_eq,
        Std.LawfulEqCmp.compare_eq_iff_eq, List.mem_cons, not_or]
      exact ⟨fun h => ⟨h.1.2, fun he => h.1.1 he.symm, h.2⟩,
        fun h => ⟨⟨fun he => h.2.1 he.symm, h.1⟩, h.2.2⟩⟩

/-- A batch is excluded one value after another, and fails at the first that is
excluded already. -/
theorem exclude_cons (kind : Kind) (s : Std.ExtTreeSet Int) (v : Int)
    (batch : List Int) :
    exclude kind s (v :: batch) =
      if v ∈ s then .error (.excludedTwice kind v)
      else exclude kind (s.insert v) batch := by
  have h1 := Std.ExtTreeSet.containsThenInsert_fst (t := s) (k := v)
  have h2 := Std.ExtTreeSet.containsThenInsert_snd (t := s) (k := v)
  rw [exclude]
  cases h : s.containsThenInsert v with
  | mk found t =>
      rw [h] at h1 h2
      simp only at h1 h2
      subst h2
      cases found with
      | true => rw [if_pos (Std.ExtTreeSet.mem_iff_contains.mpr h1.symm)]
      | false =>
          rw [if_neg fun hv => ?_]
          rw [Std.ExtTreeSet.mem_iff_contains, ← h1] at hv
          cases hv

/-- What is excluded then is the batch and what was excluded before. -/
theorem mem_exclude {kind : Kind} {batch : List Int} {s r : Std.ExtTreeSet Int}
    (h : exclude kind s batch = .ok r) {v : Int} :
    v ∈ r ↔ v ∈ batch ∨ v ∈ s := by
  induction batch generalizing s with
  | nil =>
      cases h
      simp
  | cons a batch ih =>
      rw [exclude_cons] at h
      split at h
      · cases h
      · rw [ih h, mem_insert, List.mem_cons]
        exact ⟨fun h => h.elim (.inl ∘ .inr) (Or.imp_left .inl),
          fun h => h.elim (Or.elim · (.inr ∘ .inl) .inl) (.inr ∘ .inr)⟩

/-- No value of the batch was excluded before. -/
theorem not_mem_of_exclude {kind : Kind} {batch : List Int}
    {s r : Std.ExtTreeSet Int} (h : exclude kind s batch = .ok r) {v : Int}
    (hv : v ∈ batch) : v ∉ s := by
  induction batch generalizing s with
  | nil => simp at hv
  | cons a batch ih =>
      rw [exclude_cons] at h
      split at h
      · cases h
      · rename_i ha
        rcases List.mem_cons.mp hv with rfl | hv
        · exact ha
        · exact fun hs => ih h hv (mem_insert.mpr (.inr hs))

/-- A push excludes its batch and nothing else. -/
theorem mem_excluded_push {t u : Stack} {batch : List Int} {b : Bool}
    (h : t.push batch = .ok (b, u)) {v : Int} :
    v ∈ u.excluded ↔ v ∈ batch ∨ v ∈ t.excluded := by
  unfold push at h
  split at h
  · rename_i he
    cases h
    simp [List.isEmpty_iff.mp he]
  · split at h
    · rename_i s hs
      cases h
      exact mem_exclude hs
    · cases h

/-- Popping takes back exactly the last push. -/
theorem pop?_push {t u : Stack} {batch : List Int}
    (h : t.push batch = .ok (true, u)) : u.pop? = some (batch, t) := by
  unfold push at h
  split at h
  · cases h
  · split at h
    · rename_i s hs
      cases h
      have : release s batch = t.excluded := Std.ExtTreeSet.ext_mem fun v => by
        rw [mem_release, mem_exclude hs]
        exact ⟨fun h => h.1.resolve_left h.2,
          fun hv => ⟨.inr hv, fun hb => not_mem_of_exclude hs hb hv⟩⟩
      simp only [pop?]
      rw [this]
    · cases h

end Stack

end ConstraintNet.Exclusion
