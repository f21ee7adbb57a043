import ConstraintNet.Trail
import ConstraintNet.Tally
/-!
# Workspaces

What a search changes as it goes: the variables, the trail of their exclusions
and the tally.  An exclusion made through the workspace is recorded on the
trail at once.

Main facts:

* `room_excludeAll`, `room_hide` — exclusions take away room.
-/

namespace ConstraintNet

/-- The variables, the trail of their exclusions and the tally. -/
structure Workspace where
  arena : Arena
  trail : Trail := ∅
  tally : Tally := {}

namespace Workspace

/-- Prunes a value of a variable; the flag tells whether it was live. -/
def exclude : Workspace → Nat → Int → Except Fault (Bool × Workspace)
  | ⟨arena, trail, tally⟩, i, v =>
    match arena.adjust i (·.prune v) with
    | .error e => .error e
    | .ok (false, arena) => .ok (false, { arena, trail, tally })
    | .ok (true, arena) =>
        .ok (true, { arena, trail := trail.recordPrune i, tally })

/-- Prunes values of a variable one after the other, and counts those that were
live. -/
def excludeAll : Workspace → Nat → List Int → Except Fault (Nat × Workspace)
  | ⟨arena, trail, tally⟩, i, l =>
    match arena.adjust i (·.pruneAll 0 l) with
    | .error e => .error e
    | .ok (n, arena) =>
        .ok (n, { arena, trail := trail.recordPrunes i n, tally })

/-- Marks the live values of a variable without support as one batch, and counts
the values that the batch hides. -/
def hide : Workspace → Nat → (Int → Bool) → Except Fault (Nat × Workspace)
  | ⟨arena, trail, tally⟩, i, supported =>
    match arena.adjust i fun x =>
        (x.hideUnsupported supported).map fun (b, y) =>
          (if b then some (y.marked.size - x.marked.size) else none, y) with
    | .error e => .error e
    | .ok (none, arena) => .ok (0, { arena, trail, tally })
    | .ok (some n, arena) =>
        .ok (n, { arena, trail := trail.recordMark i, tally })

/-- Changes a variable by an operation that may fail and records nothing. -/
def modify :
    Workspace → Nat → (Variable → Except Fault Variable) →
    Except Fault Workspace
  | ⟨arena, trail, tally⟩, i, f =>
      (arena.modify i f).map fun arena => ⟨arena, trail, tally⟩

/-- Undoes what was excluded since the trail stood at `c`. -/
def rewind : Workspace → Checkpoint → Except Fault Workspace
  | ⟨arena, trail, tally⟩, c =>
    (trail.rewind c arena).map fun (trail, arena) => ⟨arena, trail, tally⟩

/-- The workspace with one more node counted. -/
def node : Workspace → Workspace
  | ⟨arena, trail, tally⟩ => ⟨arena, trail, tally.node⟩

/-- The workspace with one more backtrack counted. -/
def backtrack : Workspace → Workspace
  | ⟨arena, trail, tally⟩ => ⟨arena, trail, tally.backtrack⟩

/-- The workspace with one more wipeout counted. -/
def wipeout (w : Workspace) : Workspace := { w with tally := w.tally.wipeout }

/-- Exclusions take room for each value that was live. -/
theorem room_excludeAll {l : List Int} {w u : Workspace} {i n : Nat}
    (h : w.excludeAll i l = .ok (n, u)) : u.arena.room + n ≤ w.arena.room := by
  obtain ⟨arena, trail, tally⟩ := w
  simp only [excludeAll] at h
  split at h
  · cases h
  · rename_i m arena ha
    cases h
    exact Arena.room_adjust (k := n) ha
      fun x y hxy => by simpa using Variable.room_pruneAll hxy

/-- Hiding values takes room. -/
theorem room_hide {w u : Workspace} {i n : Nat} {supported : Int → Bool}
    (h : w.hide i supported = .ok (n, u)) :
    u.arena.room ≤ w.arena.room ∧ (0 < n → u.arena.room < w.arena.room) := by
  have key : ∀ (x y : Variable) (r : Option Nat),
      ((x.hideUnsupported supported).map fun (b, y) =>
        (if b then some (y.marked.size - x.marked.size) else none, y)) =
          .ok (r, y) →
      y.room + r.isSome.toNat ≤ x.room := by
    intro x y r hxy
    rw [Variable.hideUnsupported_eq] at hxy
    cases hc : (x.markUnsupported supported).commitMarks with
    | error e => simp [hc, Except.map] at hxy
    | ok p =>
        obtain ⟨b, z⟩ := p
        have := Variable.room_markUnsupported_commitMarks hc
        simp only [hc, Except.map, Except.ok.injEq, Prod.mk.injEq] at hxy
        obtain ⟨rfl, rfl⟩ := hxy
        cases b <;> simpa using this
  obtain ⟨arena, trail, tally⟩ := w
  simp only [hide] at h
  split at h
  · cases h
  · rename_i arena ha
    cases h
    have :=
      Arena.room_adjust (k := 0) ha fun x y hxy => by simpa using key x y _ hxy
    exact ⟨by simpa using this, fun h0 => absurd h0 (by simp)⟩
  · rename_i m arena ha
    cases h
    have :=
      Arena.room_adjust (k := 1) ha fun x y hxy => by simpa using key x y _ hxy
    simp only
    omega

end Workspace

end ConstraintNet
