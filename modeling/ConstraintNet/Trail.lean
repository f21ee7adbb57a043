import ConstraintNet.Arena
/-!
# The trail

The trail records which variables had values excluded since the search began:
one entry for each pruned value and one for each batch of marks.  A checkpoint
is the number of entries of either sort.  Rewinding to a checkpoint undoes all
later marks and then all later prunes, each sort from the latest back.

Main facts:

* `rewind_checkpoint` — returning to where the trail stands changes nothing;
* `checkpoint_rewind` — after rewinding, the trail stands at the checkpoint.
-/

namespace ConstraintNet

/-- Variables of which something is recorded, with their number. -/
structure Track where
  /-- The variables, the latest entry first. -/
  entries : List Nat := []
  size : Nat := 0
  size_eq : size = entries.length := by rfl
deriving DecidableEq

namespace Track

/-- The track with some more entries of one variable. -/
def push (t : Track) (i n : Nat) : Track where
  entries := List.replicate n i ++ t.entries
  size := n + t.size
  size_eq := by simp [t.size_eq]

/-- The latest entries, so many of them. -/
def latest (t : Track) (n : Nat) : List Nat := t.entries.take n

/-- The track without so many of the latest entries. -/
def drop (t : Track) (n : Nat) : Track where
  entries := t.entries.drop n
  size := t.size - n
  size_eq := by simp [t.size_eq]

@[simp] theorem drop_zero (t : Track) : t.drop 0 = t := rfl

@[simp] theorem latest_zero (t : Track) : t.latest 0 = [] := List.take_zero

end Track

/-- The variables that had values excluded. -/
structure Trail where
  pruned : Track := {}
  marked : Track := {}
deriving DecidableEq

namespace Trail

/-- The trail without entries. -/
def empty : Trail := {}

instance : EmptyCollection Trail := ⟨empty⟩

/-- Where the trail stands. -/
def checkpoint (t : Trail) : Checkpoint := ⟨t.pruned.size, t.marked.size⟩

/-- Records that so many values of `i` were pruned. -/
def recordPrunes (t : Trail) (i n : Nat) : Trail :=
  { t with pruned := t.pruned.push i n }

/-- Records that a value of `i` was pruned. -/
def recordPrune (t : Trail) (i : Nat) : Trail := t.recordPrunes i 1

/-- Records that a batch of values of `i` was marked. -/
def recordMark (t : Trail) (i : Nat) : Trail :=
  { t with marked := t.marked.push i 1 }

/-- The number of entries. -/
def size (t : Trail) : Nat := t.pruned.size + t.marked.size

/-- Whether there is no entry. -/
def isEmpty (t : Trail) : Bool := t.size == 0

/-- Undoes the latest batch of marks of each variable of a list in turn. -/
def undoMarks (l : List Nat) (a : Arena) : Except Fault Arena :=
  l.foldlM (fun a i => (a.adjust i Variable.undoMark).map (·.2)) a

/-- Undoes the latest prune of each variable of a list in turn. -/
def undoPrunes (l : List Nat) (a : Arena) : Except Fault Arena :=
  l.foldlM (fun a i => (a.adjust i Variable.undoPrune).map (·.2)) a

/-- Undoes what was excluded since the trail stood at `c`. -/
def rewind (t : Trail) (c : Checkpoint) (a : Arena) :
    Except Fault (Trail × Arena) :=
  if c.pruned ≤ t.pruned.size ∧ c.marked ≤ t.marked.size then do
    let marks := t.marked.size - c.marked
    let prunes := t.pruned.size - c.pruned
    let a ← undoMarks (t.marked.latest marks) a
    let a ← undoPrunes (t.pruned.latest prunes) a
    return (⟨t.pruned.drop prunes, t.marked.drop marks⟩, a)
  else .error (.trailBehind c t.checkpoint)

/-- Returning to where the trail stands changes nothing. -/
theorem rewind_checkpoint (t : Trail) (a : Arena) :
    t.rewind t.checkpoint a = .ok (t, a) := by
  simp [rewind, checkpoint, undoMarks, undoPrunes, bind, Except.bind, pure,
    Except.pure]

/-- After rewinding, the trail stands at the checkpoint. -/
theorem checkpoint_rewind {t u : Trail} {c : Checkpoint} {a b : Arena}
    (h : t.rewind c a = .ok (u, b)) : u.checkpoint = c := by
  unfold rewind at h
  split at h
  · rename_i hc
    simp only [bind, Except.bind] at h
    split at h
    · cases h
    · split at h
      · cases h
      · cases h
        obtain ⟨hp, hm⟩ := hc
        cases c
        simp only [checkpoint, Track.drop, Checkpoint.mk.injEq] at *
        omega
  · cases h

end Trail

end ConstraintNet
