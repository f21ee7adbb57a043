import ConstraintNet.Arena
import ConstraintNet.Proofs.Settled

/-!
# Reading and writing

What a read sees after a write, and what the operations on an arena come to
once the variable at their position is known.  An arena is described by its
reads: `effective` and `Admits` are what the rest of the network sees of it.
-/

namespace ConstraintNet.Arena

variable {a b : Arena} {i j : Nat} {x y : Variable}

/-- Reading succeeds at the ids of the variables and gives what is stored
there. -/
theorem read_eq_ok : a.read i = .ok x ↔ a.cells[i]? = some x := by
  unfold read
  by_cases h : i < a.cells.size
  · simp [h]
  · simp [h]

/-- Only ids of variables can be read. -/
theorem lt_of_read (h : a.read i = .ok x) : i < a.size :=
  (Array.getElem?_eq_some_iff.mp (read_eq_ok.mp h)).1

/-- Every id of a variable can be read. -/
theorem exists_read (h : i < a.size) : ∃ x, a.read i = .ok x :=
  ⟨a.cells[i], read_eq_ok.mpr (Array.getElem?_eq_getElem h)⟩

/-- Reading has one answer. -/
theorem read_unique (hx : a.read i = .ok x) (hy : a.read i = .ok y) : x = y :=
  Except.ok.inj (hx.symm.trans hy)

/-- Writing leaves the number of variables as it is. -/
@[simp] theorem size_write (a : Arena) (i : Nat) (x : Variable) :
    (a.write i x).size = a.size := by
  simp [write, size]

/-- What is written at a variable is read there afterwards. -/
theorem read_write_self (h : i < a.size) (y : Variable) :
    (a.write i y).read i = .ok y := by
  rw [read_eq_ok, write]
  exact Array.getElem?_setIfInBounds_self_of_lt h

/-- Writing one variable leaves every other as it was. -/
theorem read_write_of_ne (h : i ≠ j) (y : Variable) :
    (a.write i y).read j = a.read j := by
  have hcells : (a.write i y).cells[j]? = a.cells[j]? :=
    Array.getElem?_setIfInBounds_ne h
  cases hj : a.read j with
  | ok x => rw [read_eq_ok, hcells, ← read_eq_ok, hj]
  | error e =>
      unfold read at hj ⊢
      split at hj
      · cases hj
      · rename_i hlt
        have hlt' : ¬ j < (a.write i y).cells.size := by simpa [write] using hlt
        rw [dif_neg hlt', ← hj, size_write]

/-- After a write the variable is there, and everything else where it was. -/
theorem read_write (h : i < a.size) :
    (a.write i y).read j = .ok x ↔
    (j = i ∧ x = y) ∨ (j ≠ i ∧ a.read j = .ok x) := by
  by_cases hj : j = i
  · subst hj
    rw [read_write_self h]
    simp [eq_comm]
  · rw [read_write_of_ne (Ne.symm hj)]
    simp [hj]

/-- Writing back what was read changes nothing. -/
theorem write_self (h : a.read i = .ok x) : a.write i x = a := by
  have hcells := read_eq_ok.mp h
  obtain ⟨hi, hx⟩ := Array.getElem?_eq_some_iff.mp hcells
  rw [write]
  congr 1
  apply Array.ext_getElem?
  intro j
  by_cases hj : i = j
  · subst hj
    rw [Array.getElem?_setIfInBounds_self_of_lt hi, hcells]
  · rw [Array.getElem?_setIfInBounds_ne hj]

/-- A change that succeeds on the variable which is read succeeds on the arena,
and only this variable is written. -/
theorem adjust_eq {α : Type} {f : Variable → Except Fault (α × Variable)}
    {r : α} (h : a.read i = .ok x) (hf : f x = .ok (r, y)) :
    a.adjust i f = .ok (r, a.write i y) := by
  simp only [adjust, h, put, hf, write_write]

/-- The same for a change with no result of its own. -/
theorem modify_eq {f : Variable → Except Fault Variable} (h : a.read i = .ok x)
    (hf : f x = .ok y) : a.modify i f = .ok (a.write i y) := by
  simp only [modify, h, hf]

/-- The variables of an arena are those that can be read. -/
theorem mem_toList : x ∈ a.toList ↔ ∃ i, a.read i = .ok x := by
  simp only [toList, Array.mem_toList_iff, Array.mem_iff_getElem?, read_eq_ok]

/-- All variables have a value when no position shows one without. -/
theorem isComplete_iff :
    a.isComplete ↔ ∀ i x, a.read i = .ok x → x.isAssigned := by
  rw [isComplete, Array.all_eq_true_iff_forall_mem]
  constructor
  · intro h i x hx
    exact h x (Array.mem_of_getElem? (read_eq_ok.mp hx))
  · intro h x hx
    obtain ⟨i, hi⟩ := Array.mem_iff_getElem?.mp hx
    exact h i x (read_eq_ok.mpr hi)

/-! ## What an arena shows -/

/-- What the variable at a position shows; nothing if there is none. -/
def effective (a : Arena) (i : Nat) : ValueSet :=
  match a.read i with
  | .ok x => x.effective
  | .error _ => ∅

/-- The effective domain of an id is that of the variable there. -/
theorem effective_of_read (h : a.read i = .ok x) :
    a.effective i = x.effective := by
  rw [effective, h]

/-- A value is in the effective domain of an id only if there is a variable
there, since an id beyond the arena has none. -/
theorem read_of_mem_effective {v : Int} (h : v ∈ a.effective i) :
    ∃ x, a.read i = .ok x ∧ v ∈ x.effective := by
  unfold effective at h
  split at h
  · rename_i x hx
    exact ⟨x, hx, h⟩
  · exact absurd h (ValueSet.not_mem_empty v)

/-- Writing a variable replaces its effective domain. -/
theorem effective_write_self (h : i < a.size) :
    (a.write i y).effective i = y.effective :=
  effective_of_read (read_write_self h y)

/-- The effective domains of the other variables stay as they were. -/
theorem effective_write_of_ne (h : i ≠ j) :
    (a.write i y).effective j = a.effective j := by
  rw [effective, effective, read_write_of_ne h]

/-- Every position shows the value that `τ` has for it. -/
def Admits (a : Arena) (τ : Nat → Int) : Prop :=
  ∀ i, i < a.size → τ i ∈ a.effective i

end ConstraintNet.Arena
