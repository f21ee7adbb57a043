import ConstraintNet.Network
import ConstraintNet.Workspace
/-!
# Revising an arc

A revision makes both ends of an arc agree with its constraint.  Values of the
tail without a support left at the head are pruned; then values of the head
that no remaining value of the tail supports are marked, as one batch.

Main facts:

* `revise_eq_of_find?_eq_none` — an arc without a constraint is left alone;
* `room_revise` — a revision that changes something takes room.
-/

namespace ConstraintNet

/-- How many values a revision pruned at the tail and marked at the head. -/
structure Revision where
  pruned : Nat := 0
  marked : Nat := 0
deriving DecidableEq, Inhabited

/-- Whether the revision excluded nothing. -/
def Revision.isUnchanged (r : Revision) : Bool := r.pruned == 0 && r.marked == 0

namespace Network

/-- Revises an arc. -/
def revise (n : Network) (a : Arc) (w : Workspace) :
    Except Fault (Revision × Workspace) :=
  match n.find? a with
  | none => .ok ({}, w)
  | some c => do
    let tail ← w.arena.read a.tail
    let head ← w.arena.read a.head
    let (kept, lost) :=
      tail.effective.toList.partition fun x =>
        head.hasSupport (c.supports x).toList
    let (pruned, w) ← w.excludeAll a.tail lost
    let supported := c.supported kept
    let (marked, w) ← w.hide a.head supported.contains
    return ({ pruned, marked },
      { w with tally := w.tally.revision a pruned marked })

/-- An arc without a constraint is left alone. -/
theorem revise_eq_of_find?_eq_none {n : Network} {a : Arc}
    (h : n.find? a = none) (w : Workspace) : n.revise a w = .ok ({}, w) := by
  simp [revise, h]

/-- A revision that changes something takes room. -/
theorem room_revise {n : Network} {a : Arc} {w u : Workspace} {r : Revision}
    (h : n.revise a w = .ok (r, u)) :
    u.arena.room ≤ w.arena.room ∧
    (r.isUnchanged = false → u.arena.room < w.arena.room) := by
  unfold revise at h
  split at h
  · cases h
    exact ⟨Nat.le_refl _, fun hr => by cases hr⟩
  · simp only [bind, Except.bind, pure, Except.pure] at h
    split at h
    · cases h
    · split at h
      · cases h
      · split at h
        · cases h
        · rename_i p hp
          obtain ⟨pruned, w'⟩ := p
          simp only at h
          split at h
          · cases h
          · rename_i m hm
            obtain ⟨marked, w''⟩ := m
            cases h
            have h1 := Workspace.room_excludeAll hp
            obtain ⟨h2, h3⟩ := Workspace.room_hide hm
            simp only at h2 h3 ⊢
            refine ⟨by omega, fun hr => ?_⟩
            by_cases h0 : pruned = 0
            · subst h0
              have : 0 < marked := by
                simp only [Revision.isUnchanged, beq_self_eq_true,
                  Bool.true_and] at hr
                have := ne_of_beq_false hr
                omega
              have := h3 this
              omega
            · omega

end Network

end ConstraintNet
