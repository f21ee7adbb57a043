import ConstraintNet.Agenda
import ConstraintNet.Revision
/-!
# Propagation

Propagation serves arcs from an agenda and revises each.  A revision that
excludes values puts the arcs on the agenda whose heads lost them: always the
arcs into a pruned tail, and under full closure also those into a marked head.
The reverse of the revised arc is left out, since a revision leaves both of its
ends in agreement.  Propagation ends when nothing waits, or at once when a
variable has nothing left.

Main facts:

* `step_decreases` — each step takes room from the variables or an arc from the
  agenda, so that `run` ends.
-/

namespace ConstraintNet

/-- How far consequences are followed. -/
inductive Closure
  /-- Marks are not followed. -/
  | frontier
  /-- Marks are followed like prunes. -/
  | full
deriving DecidableEq, Inhabited

/-- The constraints to propagate through and how far to follow them. -/
structure Propagator where
  network : Network
  closure : Closure
deriving Inhabited

namespace Propagator

variable (p : Propagator)

/-- The arcs to look at again after a revision of `a` that pruned or marked
values. -/
def awakened (a : Arc) (r : Revision) : List Arc :=
  (if r.pruned > 0 then
    (p.network.arcsInto a.tail).filter (·.tail != a.head) else []) ++
  (if r.marked > 0 && p.closure == .full then
    (p.network.arcsInto a.head).filter (·.tail != a.tail) else [])

/-- What one step of propagation comes to. -/
inductive Step
  /-- No arc waits. -/
  | settled
  /-- A variable has nothing left.  `changed` is the arc whose revision did
  it. -/
  | failed (workspace : Workspace) (changed : Option Arc)
  /-- Propagation goes on.  `changed` is the arc, if its revision excluded
  values. -/
  | going (agenda : Agenda) (workspace : Workspace) (changed : Option Arc)

/-- Serves one arc. -/
def step (q : Agenda) (w : Workspace) : Except Fault Step :=
  match q.pop? with
  | none => .ok .settled
  | some (a, q) =>
    if w.arena.size ≤ a.tail ∨ w.arena.size ≤ a.head then
      .error (.unknownArc a w.arena.size)
    else do
      if (← w.arena.read a.tail).isWipedOut then
        return .failed w.wipeout none
      let (r, w) ← p.network.revise a w
      if r.isUnchanged then
        return .going q w none
      if (← w.arena.read a.head).isWipedOut then
        return .failed w.wipeout (some a)
      return .going (q.pushAll (p.awakened a r)) w (some a)

/-- A step takes room, or else an arc from the agenda. -/
theorem step_decreases {q q' : Agenda} {w w' : Workspace} {changed : Option Arc}
    (h : p.step q w = .ok (.going q' w' changed)) :
    w'.arena.room < w.arena.room ∨
    w'.arena.room ≤ w.arena.room ∧ q'.size < q.size := by
  unfold step at h
  split at h
  · cases h
  · rename_i a rest hpop
    have hsize := Agenda.size_pop? hpop
    split at h
    · cases h
    · simp only [bind, Except.bind, pure, Except.pure] at h
      split at h
      · cases h
      · split at h
        · cases h
        · split at h
          · cases h
          · rename_i r hr
            obtain ⟨r, w''⟩ := r
            have hroom := Network.room_revise hr
            simp only at h hroom
            split at h
            · cases h
              exact .inr ⟨hroom.1, by omega⟩
            · rename_i hu
              split at h
              · cases h
              · split at h
                · cases h
                · cases h
                  exact .inl (hroom.2 (by simpa using hu))

/-- Tells an observer about a changed arc. -/
def notice {β : Type} (observe : Arc → Arena → β → β) (w : Workspace)
    (seen : β) : Option Arc → β
  | none => seen
  | some a => observe a w.arena seen

/-- Propagates from an agenda.  The flag is false when a variable has nothing
left. The observer is told of each revision that excluded values. -/
def run {β : Type} (observe : Arc → Arena → β → β) (q : Agenda) (w : Workspace)
    (seen : β) : Except Fault (Bool × Workspace × β) :=
  match _h : p.step q w with
  | .error e => .error e
  | .ok .settled => .ok (true, w, seen)
  | .ok (.failed w changed) => .ok (false, w, notice observe w seen changed)
  | .ok (.going q w changed) => run observe q w (notice observe w seen changed)
termination_by (w.arena.room, q.size)
decreasing_by
  rcases p.step_decreases _h with hlt | ⟨hle, hlt⟩
  · exact Prod.Lex.left _ _ hlt
  · exact Prod.Lex.right' _ hle hlt

/-- Propagates from a list of arcs.  The flag is false when a variable has
nothing left. -/
def propagate (seed : List Arc) (w : Workspace) :
    Except Fault (Bool × Workspace) :=
  (p.run (fun _ _ _ => ()) (.ofList seed) w ()).map fun (ok, w, _) => (ok, w)

/-- One revision that excluded values, with the effective sizes left at both
ends. -/
structure Change where
  arc : Arc
  tailSize : Nat
  headSize : Nat
deriving DecidableEq

/-- The effective size of a variable, zero if there is none. -/
def sizeAt (a : Arena) (i : Nat) : Nat :=
  a.cells[i]?.elim 0 Variable.effectiveSize

/-- Propagates from a list of arcs and lists the revisions that excluded
values. -/
def propagateListing (seed : List Arc) (w : Workspace) :
    Except Fault (Bool × Workspace × List Change) :=
  (p.run (fun arc a seen => ⟨arc, sizeAt a arc.tail, sizeAt a arc.head⟩ :: seen)
    (.ofList seed) w []).map fun (ok, w, seen) => (ok, w, seen.reverse)

end Propagator

end ConstraintNet
