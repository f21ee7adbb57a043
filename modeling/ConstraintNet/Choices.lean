import Std.Data.ExtTreeMap
/-!
# Choices

The values that a search has tried and not retired, the latest first.  A value
may have been tried more than once.  Beside the list stands how often each value
is on it, so that it is known at once whether a value was tried.

Main facts:

* `ext_values` — choices with the same list are the same;
* `contains_iff` — a value was tried when it is on the list;
* `pop?_push` — retiring takes back the latest trial.
-/

namespace ConstraintNet

/-- Tried values, the latest first. -/
structure Choices where
  values : List Int
  /-- How often each value was tried. -/
  counts : Std.ExtTreeMap Int Nat
  getElem?_counts : ∀ v,
    counts[v]? = if v ∈ values then some (values.count v) else none

namespace Choices

/-- Choices with the same list are the same. -/
theorem ext_values {c d : Choices} (h : c.values = d.values) : c = d := by
  obtain ⟨l, m, hm⟩ := c
  obtain ⟨l', m', hm'⟩ := d
  subst h
  have : m = m' :=
    Std.ExtTreeMap.ext_getElem? fun {v} => (hm v).trans (hm' v).symm
  subst this
  rfl

/-- No choices. -/
def empty : Choices := ⟨[], ∅, by simp⟩

instance : EmptyCollection Choices := ⟨empty⟩

instance : Inhabited Choices := ⟨∅⟩

/-- Tries a value. -/
def push (c : Choices) (v : Int) : Choices where
  values := v :: c.values
  counts := c.counts.insert v (c.counts.getD v 0 + 1)
  getElem?_counts w := by
    have hv : c.counts.getD v 0 = c.values.count v := by
      rw [Std.ExtTreeMap.getD_eq_getD_getElem?, c.getElem?_counts]
      split
      · rfl
      · rename_i h
        rw [List.count_eq_zero.mpr h]
        rfl
    rw [Std.ExtTreeMap.getElem?_insert, c.getElem?_counts]
    by_cases h : v = w
    · subst h
      simp [hv]
    · have hw : w ≠ v := fun he => h he.symm
      simp [h, hw]

/-- Retires the latest choice. -/
def pop? (c : Choices) : Option (Int × Choices) :=
  match h : c.values with
  | [] => none
  | v :: l => some (v, {
      values := l
      counts := if c.counts.getD v 0 ≤ 1 then c.counts.erase v
        else c.counts.insert v (c.counts.getD v 0 - 1)
      getElem?_counts := fun w => by
        have hv : c.counts.getD v 0 = l.count v + 1 := by
          rw [Std.ExtTreeMap.getD_eq_getD_getElem?, c.getElem?_counts, h]
          simp
        have hw := c.getElem?_counts w
        rw [h] at hw
        rw [hv]
        by_cases he : v = w
        · subst he
          by_cases hl : v ∈ l
          · have := List.count_pos_iff.mpr hl
            rw [if_neg (by omega)]
            simp [hl]
          · have := List.count_eq_zero.mpr hl
            rw [if_pos (by omega)]
            simp [hl]
        · have hne : w ≠ v := fun e => he e.symm
          split <;>
            simp [Std.ExtTreeMap.getElem?_erase, Std.ExtTreeMap.getElem?_insert,
              he, hw, hne] })

/-- Whether a value was tried. -/
def contains (c : Choices) (v : Int) : Bool := c.counts.contains v

/-- A value was tried when it is on the list. -/
theorem contains_iff {c : Choices} {v : Int} : c.contains v ↔ v ∈ c.values := by
  rw [contains, Std.ExtTreeMap.contains_eq_isSome_getElem?, c.getElem?_counts]
  split <;> simp [*]

/-- Retiring takes back the latest trial. -/
theorem pop?_push (c : Choices) (v : Int) : (c.push v).pop? = some (v, c) := by
  simp only [pop?, push]
  exact congrArg some (Prod.ext rfl (ext_values rfl))

/-- What is retired came first. -/
theorem values_of_pop? {c d : Choices} {v : Int} (h : c.pop? = some (v, d)) :
    c.values = v :: d.values := by
  unfold pop? at h
  split at h
  · cases h
  · rename_i hvalues
    cases h
    exact hvalues

end Choices

end ConstraintNet
