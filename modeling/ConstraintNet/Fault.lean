import ConstraintNet.Arc
/-!
# Faults

A fault is a broken promise between parts of the solver: a value excluded
twice, an undo without anything to undo, an arc that names no variable.  No
search that starts from fresh variables meets one.  Each fault has a message.
-/

namespace ConstraintNet

/-- The two ways of taking a value away: for good from the domain, or by hiding
it. -/
inductive Exclusion.Kind
  | permanent
  | soft
deriving DecidableEq, Inhabited

/-- The name of the kind in messages. -/
def Exclusion.Kind.name : Exclusion.Kind → String
  | .permanent => "Permanent"
  | .soft => "Soft"

/-- How many prunes and marks a trail holds. -/
structure Checkpoint where
  pruned : Nat
  marked : Nat
deriving DecidableEq, Inhabited

/-- A checkpoint written with the names of its two counts. -/
def Checkpoint.text (c : Checkpoint) : String :=
  "Checkpoint \x7b " ++ s!"pruned: {c.pruned}, marked: {c.marked}" ++ " \x7d"

/-- A broken promise between parts of the solver. -/
inductive Fault
  /-- The value is in the stack of exclusions already. -/
  | excludedTwice (kind : Exclusion.Kind) (value : Int)
  /-- The variable has no exclusion of this kind to take back. -/
  | nothingExcluded (kind : Exclusion.Kind) (id : Nat)
  /-- The variable has no choice to retire. -/
  | nothingChosen (id : Nat)
  /-- The index names none of the variables. -/
  | outOfRange (index count : Nat)
  /-- The arc names a variable that is not there. -/
  | unknownArc (arc : Arc) (count : Nat)
  /-- The trail is shorter than the checkpoint to return to. -/
  | trailBehind (target held : Checkpoint)
  /-- The trail is not what it was when the branching on a variable began. -/
  | unbalanced (id : Nat) (before after : Checkpoint)
  /-- The search ended with changes still on the trail. -/
  | trailLeft (count : Nat)
  /-- A solution was to be recorded while some variable had no value. -/
  | unassigned
  /-- A solution was to be recorded that violates constraints. -/
  | inconsistent (violations : List (Nat × Nat))
  /-- The search went deeper than the domains allow. -/
  | tooDeep
deriving DecidableEq, Inhabited

/-- The arcs of a list of violations, as pairs between brackets. -/
def Fault.pairsText (l : List (Nat × Nat)) : String :=
  "[" ++ ", ".intercalate (l.map fun (t, h) => s!"({t}, {h})") ++ "]"

/-- What a fault says. -/
def Fault.message : Fault → String
  | excludedTwice kind value =>
      s!"{kind.name} exclusion of {value} pushed twice"
  | nothingExcluded .permanent id =>
      s!"variable {id}: undo_last_prune on an empty pruning trail"
  | nothingExcluded .soft id =>
      s!"variable {id}: undo_last_mark on an empty marking trail"
  | nothingChosen id =>
      s!"variable {id}: retire_choice without a matching assign"
  | outOfRange index count =>
      s!"index out of bounds: the len is {count} but the index is {index}"
  | unknownArc arc count =>
      s!"arc {arc.text} references an unknown variable ({count} variables)"
  | trailBehind target held =>
      s!"rewinding to {target.text} but the trail only holds " ++
        s!"{held.pruned} prunes and {held.marked} marks"
  | unbalanced id before after =>
      "assertion `left == right` failed: " ++ s!"unbalanced trail at ?{id}\n" ++
        s!"  left: {after.text}\n right: {before.text}"
  | trailLeft count => s!"search left {count} trail entries"
  | unassigned => "record_solution called with unassigned variables"
  | inconsistent violations =>
      s!"propagation let an inconsistent assignment through: {pairsText violations}"
  | tooDeep => "the search went deeper than the domains allow"

/-! ## Operations that may fail -/

/-- What a sequence of two operations that succeeded came through. -/
theorem of_bind_eq_ok {ε α β : Type} {x : Except ε α} {f : α → Except ε β}
    {r : β} (h : (x >>= f) = .ok r) : ∃ a, x = .ok a ∧ f a = .ok r := by
  cases x with
  | error e => cases h
  | ok a => exact ⟨a, rfl, h⟩

/-- A sequence of two operations fails at the first or at the second. -/
theorem of_bind_eq_error {ε α β : Type} {x : Except ε α} {f : α → Except ε β}
    {e : ε} (h : (x >>= f) = .error e) :
    x = .error e ∨ ∃ a, x = .ok a ∧ f a = .error e := by
  cases x with
  | error e' =>
      cases h
      exact .inl rfl
  | ok a => exact .inr ⟨a, rfl, h⟩

/-- A mapped computation succeeds just where the computation does. -/
theorem of_map_eq_ok {α β : Type} {x : Except Fault α} {f : α → β} {r : β}
    (h : x.map f = .ok r) : ∃ a, x = .ok a ∧ f a = r := by
  cases x with
  | error e => cases h
  | ok a =>
      cases h
      exact ⟨a, rfl, rfl⟩

end ConstraintNet
