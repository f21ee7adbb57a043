import ConstraintNet.Proofs.Lockstep

/-!
# A variable on the side

A variable that stands behind all others, and that no constraint names, takes no
part in what a search does to the others.  Each operation on them does as it
would without it and leaves that variable alone.

So two searches go side by side, the one without the variable and the one with
it, until all others have values.  What the second one does from there on costs
it nodes and backtracks; its tally has more of these and differs in nothing
else.

* `Propagator.keeps_beside` — propagation goes on side by side;
* `Branching.carries_beside` — and so does what is done on the branches of a
  node.
-/

namespace ConstraintNet

/-! ## One variable more -/

/-- The arena with one variable more, behind all others. -/
def Arena.push (m : Arena) (x : Variable) : Arena := ⟨m.cells.push x⟩

namespace Arena

variable {m k : Arena} {x y : Variable} {i : Nat}

/-- A variable more makes the arena larger by one. -/
@[simp] theorem size_push (m : Arena) (x : Variable) :
    (m.push x).size = m.size + 1 :=
  Array.size_push x

/-- It comes last in the list of variables. -/
@[simp] theorem toList_push (m : Arena) (x : Variable) :
    (m.push x).toList = m.toList ++ [x] :=
  Array.toList_push

/-- What stood in the arena stands there still, in the same place. -/
theorem read_push_of_read (h : m.read i = .ok y) (x : Variable) :
    (m.push x).read i = .ok y := by
  have hi : i < m.cells.size := lt_of_read h
  rw [read_eq_ok, push,
    Array.getElem?_push_lt hi, ← Array.getElem?_eq_getElem hi, ← read_eq_ok, h]

/-- The new variable stands at the position that came next. -/
theorem read_push_self (m : Arena) (x : Variable) :
    (m.push x).read m.size = .ok x :=
  read_eq_ok.mpr Array.getElem?_push_size

/-- What stands in the larger arena stood in the other, or is the new
variable. -/
theorem read_push :
    (m.push x).read i = .ok y ↔ m.read i = .ok y ∨ i = m.size ∧ y = x := by
  constructor
  · intro h
    have hi : i < m.size + 1 := size_push m x ▸ lt_of_read h
    by_cases hnew : i = m.size
    · subst hnew
      exact .inr ⟨rfl, read_unique h (read_push_self m x)⟩
    · obtain ⟨z, hz⟩ := exists_read (by omega : i < m.size)
      exact .inl (read_unique h (read_push_of_read hz x) ▸ hz)
  · rintro (h | ⟨rfl, rfl⟩)
    · exact read_push_of_read h x
    · exact read_push_self m y

/-- Writing to another position and adding the variable may be done in either
order. -/
theorem write_push_of_lt (h : i < m.size) (x y : Variable) :
    (m.push x).write i y = (m.write i y).push x := by
  have hi : i < m.cells.toList.length := h
  refine congrArg mk (Array.toList_inj.mp ?_)
  simp [push, write, List.set_append_left _ _ hi]

/-- Writing over the new variable is adding what was written. -/
theorem write_push_self (m : Arena) (x y : Variable) :
    (m.push x).write m.size y = m.push y := by
  refine congrArg mk (Array.toList_inj.mp ?_)
  simp [push, size]

/-- The larger arena is complete if the other is and the new variable has a
value. -/
theorem isComplete_push (m : Arena) (x : Variable) :
    (m.push x).isComplete = (m.isComplete && x.isAssigned) := by
  simp [isComplete, push]

/-- As long as it has none, it comes last among the variables without a
value. -/
theorem unassigned_push (m : Arena) (h : x.value = none) :
    (m.push x).unassigned = m.unassigned ++ [x] := by
  simp [unassigned, Variable.isAssigned, h]

/-- The second arena has one variable more than the first, which looks like `y`
and stands in its place. -/
structure Beside (y : Variable) (m k : Arena) : Prop where
  place : m.size = y.id
  pushed : ∃ z, y.Alike z ∧ k = m.push z

namespace Beside

/-- What can be read from both arenas is the same, since the other one only goes
further. -/
theorem reads (h : m.Beside y k) (i : Nat) :
    Jointly (· = ·) (m.read i) (k.read i) := by
  obtain ⟨z, _, rfl⟩ := h.pushed
  exact fun a b ha hb => read_unique (read_push_of_read ha z) hb

/-- Writing to both arenas at a position of the smaller keeps the variable on
the side. -/
theorem write (h : m.Beside y k) (hi : i < m.size) (x : Variable) :
    (m.write i x).Beside y (k.write i x) where
  place := (size_write m i x).trans h.place
  pushed := by
    obtain ⟨z, hz, rfl⟩ := h.pushed
    exact ⟨z, hz, write_push_of_lt hi z x⟩

/-- What succeeds in both arenas answers alike and leaves the variable on the
side. -/
theorem adjust {α : Type} (h : m.Beside y k) (i : Nat)
    (f : Variable → Except Fault (α × Variable)) :
    Jointly (Same (Beside y)) (m.adjust i f) (k.adjust i f) := by
  rw [adjust_eq_bind, adjust_eq_bind]
  refine (h.reads i).bind fun x x' hx _ hxx' => ?_
  subst hxx'
  exact (Jointly.refl (f x)).map fun p q hpq =>
    hpq ▸ ⟨rfl, h.write (lt_of_read hx) p.2⟩

theorem modify (h : m.Beside y k) (i : Nat)
    (f : Variable → Except Fault Variable) :
    Jointly (Beside y) (m.modify i f) (k.modify i f) := by
  rw [modify_eq_bind, modify_eq_bind]
  refine (h.reads i).bind fun x x' hx _ hxx' => ?_
  subst hxx'
  exact (Jointly.refl (f x)).map fun p q hpq => hpq ▸ h.write (lt_of_read hx) p

/-- Undoing a trail concerns the variables named on it, and none of these is on
the side. -/
theorem rewind (h : m.Beside y k) (t : Trail) (c : Checkpoint) :
    Jointly (Same (Beside y)) (t.rewind c m) (t.rewind c k) :=
  Trail.rewind_related (fun i _ _ h p q hp hq => (h.adjust i _ p q hp hq).2)
    (fun i _ _ h p q hp hq => (h.adjust i _ p q hp hq).2) h t c

end Beside

end Arena

/-! ## Counts -/

/-- The tally with so many more nodes and backtracks. -/
def Tally.strolled (t : Tally) (nodes backtracks : Nat) : Tally :=
  { t with nodes := t.nodes + nodes, backtracks := t.backtracks + backtracks }

namespace Tally

variable {t : Tally} {n k n' k' : Nat}

/-- Strolling on adds up. -/
theorem strolled_strolled :
    (t.strolled n k).strolled n' k' = t.strolled (n + n') (k + k') := by
  simp only [strolled, Nat.add_assoc]

/-- Counting a node and strolling may come in either order. -/
theorem node_strolled : (t.strolled n k).node = t.node.strolled n k := by
  simp only [strolled, node, Nat.add_right_comm]

/-- So may counting a backtrack and strolling. -/
theorem backtrack_strolled :
    (t.strolled n k).backtrack = t.backtrack.strolled n k := by
  simp only [strolled, backtrack, Nat.add_right_comm]

end Tally

/-! ## Workspaces -/

/-- The second workspace has one variable more than the first, the same trail,
and so many more nodes and backtracks in its tally. -/
structure Workspace.Beside (y : Variable) (nodes backtracks : Nat)
    (w u : Workspace) : Prop where
  arena : w.arena.Beside y u.arena
  trail : u.trail = w.trail
  tally : u.tally = w.tally.strolled nodes backtracks

namespace Workspace.Beside

variable {y : Variable} {n k : Nat} {w u : Workspace}

theorem node (h : w.Beside y n k u) : w.node.Beside y n k u.node :=
  ⟨h.arena, h.trail, (congrArg Tally.node h.tally).trans Tally.node_strolled⟩

theorem backtrack (h : w.Beside y n k u) :
    w.backtrack.Beside y n k u.backtrack :=
  ⟨h.arena, h.trail,
    (congrArg Tally.backtrack h.tally).trans Tally.backtrack_strolled⟩

/-- A wipeout is counted on both sides. -/
theorem wipeout (h : w.Beside y n k u) : w.wipeout.Beside y n k u.wipeout :=
  { h with tally := congrArg Tally.wipeout h.tally }

/-- A change of one variable in both workspaces leaves the other one on the
side. -/
theorem modify (h : w.Beside y n k u) (i : Nat)
    (f : Variable → Except Fault Variable) :
    Jointly (Workspace.Beside y n k) (w.modify i f) (u.modify i f) := by
  obtain ⟨m, trail, tally⟩ := w
  obtain ⟨m', trail', tally'⟩ := u
  exact (h.arena.modify i f).map fun _ _ harena => ⟨harena, h.trail, h.tally⟩

/-- Undoing keeps it there and leaves trails that are alike. -/
theorem rewind (h : w.Beside y n k u) (c : Checkpoint) :
    Jointly (Workspace.Beside y n k) (w.rewind c) (u.rewind c) := by
  obtain ⟨m, trail, tally⟩ := w
  obtain ⟨m', trail', tally'⟩ := u
  obtain rfl : trail' = trail := h.trail
  exact (h.arena.rewind _ c).map fun p q hpq => ⟨hpq.2, hpq.1.symm, h.tally⟩

/-- What is pruned in one workspace is pruned in the other, with the same entry
on the trail. -/
theorem exclude (h : w.Beside y n k u) (i : Nat) (v : Int) :
    Jointly (Same (Workspace.Beside y n k)) (w.exclude i v)
      (u.exclude i v) := by
  rw [exclude_eq_map, exclude_eq_map]
  exact (h.arena.adjust i _).map fun p q hpq =>
    ⟨hpq.1, hpq.2, by simp only [hpq.1, h.trail], h.tally⟩

/-- So are many values, one after another. -/
theorem excludeAll (h : w.Beside y n k u) (i : Nat) (l : List Int) :
    Jointly (Same (Workspace.Beside y n k)) (w.excludeAll i l)
      (u.excludeAll i l) := by
  rw [excludeAll_eq_map, excludeAll_eq_map]
  exact (h.arena.adjust i _).map fun p q hpq =>
    ⟨hpq.1, hpq.2, by simp only [hpq.1, h.trail], h.tally⟩

/-- What one workspace hides, the other one hides too. -/
theorem hide (h : w.Beside y n k u) (i : Nat) (supported : Int → Bool) :
    Jointly (Same (Workspace.Beside y n k)) (w.hide i supported)
      (u.hide i supported) := by
  rw [hide_eq_map, hide_eq_map]
  exact (h.arena.adjust i _).map fun p q hpq =>
    ⟨by simp only [hpq.1], hpq.2, by simp only [hpq.1, h.trail], h.tally⟩

/-- **A revision beside the variable** excludes as much. -/
theorem revise (h : w.Beside y n k u) (net : Network) (a : Arc) :
    Jointly (Same (Workspace.Beside y n k)) (net.revise a w)
      (net.revise a u) := by
  unfold Network.revise
  cases net.find? a with
  | none => exact .ok ⟨rfl, h⟩
  | some c =>
      refine (h.arena.reads a.tail).bind fun x x' _ _ hx => ?_
      refine (h.arena.reads a.head).bind fun z z' _ _ hz => ?_
      subst hx
      subst hz
      simp only [c.partition_eq]
      refine (h.excludeAll a.tail _).bind fun p q _ _ hpq => ?_
      refine (hpq.2.hide a.head _).bind fun p' q' _ _ hpq' => ?_
      refine .ok ⟨by simp only [hpq.1, hpq'.1], { hpq'.2 with tally := ?_ }⟩
      simp only [hpq.1, hpq'.1, hpq'.2.tally]
      rfl

end Workspace.Beside

/-- **Propagation goes on beside the variable.** -/
theorem Propagator.keeps_beside (p : Propagator) (y : Variable) (n k : Nat) :
    Keeps p p (Workspace.Beside y n k) where
  size h := by
    obtain ⟨z, _, hz⟩ := h.arena.pushed
    rw [hz, Arena.size_push]
    exact Nat.le_succ _
  isWipedOut h i x x' hx hx' := by rw [h.arena.reads i x x' hx hx']
  wipeout h := h.wipeout
  revise h a := h.revise p.network a
  awakened _ _ := rfl

/-! ## Searches -/

/-- What a variable on the side makes of each solution, and the nodes and
backtracks that this takes. -/
structure Spread where
  solutions : Solution → List Solution
  nodes : Nat
  backtracks : Nat

/-- The second search has one variable more than the first, and what this makes
of each of its solutions. -/
structure Search.Beside (y : Variable) (e : Spread) (s t : Search) : Prop where
  workspace : s.toWorkspace.Beside y (e.nodes * s.solutions.size)
    (e.backtracks * s.solutions.size) t.toWorkspace
  solutions : t.solutions.toList = s.solutions.toList.flatMap e.solutions

namespace Search.Beside

variable {y : Variable} {e : Spread} {s t : Search} {i : Nat}

/-- Nothing is found or counted before the search begins, on either side. -/
theorem begin {m k : Arena} (h : m.Beside y k) :
    (Search.begin m).Beside y e (Search.begin k) where
  workspace := ⟨h, rfl, by simp [Search.begin, Tally.strolled]⟩
  solutions := rfl

/-- A search keeps the variable on the side through whatever its workspace keeps
it through. -/
theorem modify {f f' : Workspace → Except Fault Workspace} (h : s.Beside y e t)
    (hf : Jointly (Workspace.Beside y (e.nodes * s.solutions.size)
      (e.backtracks * s.solutions.size)) (f s.toWorkspace) (f' t.toWorkspace)) :
    Jointly (Search.Beside y e) (s.modify f) (t.modify f') :=
  hf.map fun _ _ hwu => ⟨hwu, h.solutions⟩

/-- The same where the operation answers something. -/
theorem adjust {α : Type} {f f' : Workspace → Except Fault (α × Workspace)}
    (h : s.Beside y e t)
    (hf : Jointly
      (Same (Workspace.Beside y (e.nodes * s.solutions.size)
        (e.backtracks * s.solutions.size))) (f s.toWorkspace)
          (f' t.toWorkspace)) :
    Jointly (Same (Search.Beside y e)) (s.adjust f) (t.adjust f') :=
  hf.map fun _ _ hpq => ⟨hpq.1, hpq.2, h.solutions⟩

theorem node (h : s.Beside y e t) : s.node.Beside y e t.node :=
  ⟨h.workspace.node, h.solutions⟩

theorem backtrack (h : s.Beside y e t) : s.backtrack.Beside y e t.backtrack :=
  ⟨h.workspace.backtrack, h.solutions⟩

/-- Propagation runs alike in both searches, for it follows arcs and none of
them leads to the variable on the side. -/
theorem propagate (h : s.Beside y e t) (p : Propagator) (seed : List Arc) :
    Jointly (Same (Search.Beside y e)) (s.propagate p seed)
      (t.propagate p seed) :=
  h.adjust ((p.keeps_beside y _ _).propagate h.workspace seed)

/-- Undoing a search leaves the variable on the side. -/
theorem rewind (h : s.Beside y e t) (c : Checkpoint) :
    Jointly (Search.Beside y e) (s.rewind c) (t.rewind c) :=
  h.modify (h.workspace.rewind c)

/-- So does a change of another variable. -/
theorem modify_variable (h : s.Beside y e t) (i : Nat)
    (f : Variable → Except Fault Variable) :
    Jointly (Search.Beside y e) (s.modify (·.modify i f))
      (t.modify (·.modify i f)) :=
  h.modify (h.workspace.modify i f)

/-- So does pruning a value of another variable. -/
theorem exclude (h : s.Beside y e t) (i : Nat) (v : Int) :
    Jointly (Same (Search.Beside y e)) (s.exclude i v) (t.exclude i v) :=
  h.adjust (h.workspace.exclude i v)

end Search.Beside

namespace Branching

variable {σ : Type}

/-- **What is done on the branches of a node** is done beside the variable. -/
theorem carries_beside (b : Branching σ) (y : Variable) (e : Spread) (i : Nat)
    (v : Int) : Carries (Search.Beside y e) b b i v v where
  accept h :=
    (h.modify_variable i _).bind fun _ _ _ _ h => h.propagate b.propagator _
  refute h := by
    refine (h.exclude i v).bind fun p q _ _ hpq => ?_
    obtain ⟨pruned, s'⟩ := p
    obtain ⟨_, t'⟩ := q
    obtain ⟨rfl, h'⟩ := hpq
    refine (h'.workspace.arena.reads i).bind fun x x' _ _ hxx' => ?_
    subst hxx'
    simp only
    split
    · exact h'.propagate b.propagator _
    · exact .ok ⟨rfl, h'⟩
  rewind c h := h.rewind c
  unassign h := h.modify_variable i _
  retire h := h.modify_variable i _
  backtrack h := h.backtrack
  trail h := h.workspace.trail

end Branching

end ConstraintNet
