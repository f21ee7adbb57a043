import ConstraintNet.Variable
/-!
# Arenas

The variables of a network, addressed by position.  Every access to a position
that does not exist is a fault.

Main facts:

* `room_adjust` — what an adjustment takes from the room of one variable, it
  takes from the room of the arena.
-/

namespace ConstraintNet

/-- The variables of a network. -/
structure Arena where
  cells : Array Variable
deriving Inhabited

namespace Arena

/-- The arena of a list of variables. -/
def ofList (l : List Variable) : Arena := ⟨l.toArray⟩

/-- The variables in the order of their positions. -/
def toList (a : Arena) : List Variable := a.cells.toList

/-- The number of variables. -/
def size (a : Arena) : Nat := a.cells.size

/-- The variable at a position. -/
def read (a : Arena) (i : Nat) : Except Fault Variable :=
  if h : i < a.cells.size then .ok a.cells[i] else .error (.outOfRange i a.size)

/-- The arena with another variable at a position. -/
def write (a : Arena) (i : Nat) (x : Variable) : Arena :=
  ⟨a.cells.setIfInBounds i x⟩

/-- Of two writes at one position the second counts. -/
@[simp] theorem write_write (a : Arena) (i : Nat) (x y : Variable) :
    (a.write i x).write i y = a.write i y := by
  simp [write]

/-- Writes the variable that an operation made, if it did not fail. -/
@[noinline] def put {α : Type} (a : Arena) (i : Nat) :
    Except Fault (α × Variable) → Except Fault (α × Arena)
  | .error e => .error e
  | .ok (r, y) => .ok (r, a.write i y)

/-- Changes the variable at a position by an operation that may fail and
answers.  The arena does without the variable while the operation is at work on
it, so that the operation may change its sets in place. -/
def adjust {α : Type} (a : Arena) (i : Nat)
    (f : Variable → Except Fault (α × Variable)) : Except Fault (α × Arena) :=
  match a.read i with
  | .error e => .error e
  | .ok x => (a.write i default).put i (f x)

/-- Changes the variable at a position by an operation that may fail. -/
def modify (a : Arena) (i : Nat) (f : Variable → Except Fault Variable) :
    Except Fault Arena :=
  match a.read i with
  | .error e => .error e
  | .ok x =>
    match f x with
    | .error e => .error e
    | .ok y => .ok (a.write i y)

/-- Whether every variable has a value. -/
def isComplete (a : Arena) : Bool := a.cells.all Variable.isAssigned

/-- The variables without a value, in the order of their positions. -/
def unassigned (a : Arena) : List Variable :=
  a.toList.filter fun x => !x.isAssigned

/-- The first variable without a value. -/
def firstUnassigned? (a : Arena) : Option Variable :=
  a.cells.find? fun x => !x.isAssigned

/-- The first variable without a value is found among all variables. -/
theorem firstUnassigned?_eq (a : Arena) :
    a.firstUnassigned? = a.unassigned.head? := by
  rw [firstUnassigned?, unassigned, toList, List.head?_filter,
    Array.find?_toList]

/-- The sum of a count over variables. -/
def total (count : Variable → Nat) (l : List Variable) : Nat :=
  l.foldr (fun x n => count x + n) 0

/-- What can still be excluded from the variables together. -/
def room (a : Arena) : Nat := total Variable.room a.toList

/-- A total over all variables changes by what it changes at the one that is
written. -/
theorem total_set (count : Variable → Nat) (l : List Variable) (i : Nat)
    (h : i < l.length) (y : Variable) :
    total count (l.set i y) + count l[i] = total count l + count y := by
  induction l generalizing i with
  | nil => simp at h
  | cons x l ih =>
      cases i with
      | zero =>
          simp only [List.set_cons_zero, total, List.foldr_cons,
            List.getElem_cons_zero]
          omega
      | succ i =>
          have := ih i (by simpa using h)
          simp only [List.set_cons_succ, total, List.foldr_cons,
            List.getElem_cons_succ] at this ⊢
          omega

/-- Taking room from one variable takes it from the arena. -/
theorem room_adjust {α : Type} {a b : Arena} {i k : Nat} {r : α}
    {f : Variable → Except Fault (α × Variable)} (h : a.adjust i f = .ok (r, b))
    (hf : ∀ x y, f x = .ok (r, y) → y.room + k ≤ x.room) :
    b.room + k ≤ a.room := by
  unfold adjust at h
  split at h
  · cases h
  · rename_i x hread
    unfold put at h
    split at h
    · cases h
    · rename_i r' y hfx
      cases h
      have hxy := hf x y hfx
      rw [write_write]
      unfold read at hread
      split at hread
      · rename_i hi
        cases hread
        have := total_set Variable.room a.cells.toList i (by simpa using hi) y
        simp only [room, toList, write, Array.toList_setIfInBounds]
        simp only [Array.getElem_toList] at this
        omega
      · cases hread

end Arena

end ConstraintNet
