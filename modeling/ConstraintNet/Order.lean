import ConstraintNet.Arena
import ConstraintNet.Network
import ConstraintNet.Random.Draw
/-!
# Orders of variables and values

A search asks a variable order which variable to branch on, and a value order
which of its values to try.  A variable order may carry a state from one
question to the next; the random order carries its generator.

Main facts:

* `mem_of_best?`, `not_better_best?` — the best of a list is a member, and no
  member is better;
* `exists_split_of_best?` — it is better than all members before it.
-/

namespace ConstraintNet

/-- Picks a variable to branch on, given the variables, the constraints and a
state. -/
abbrev Selector (σ : Type) := Arena → Network → σ → Option Nat × σ

/-- The first element that no later one is better than, and that is better than
all earlier ones. -/
def best? {α : Type} (better : α → α → Bool) : List α → Option α
  | [] => none
  | a :: l =>
    match best? better l with
    | none => some a
    | some b => if better b a then some b else some a

/-- There is a best member unless there is none at all. -/
theorem best?_eq_none {α : Type} {better : α → α → Bool} {l : List α} :
    best? better l = none ↔ l = [] := by
  cases l with
  | nil => simp [best?]
  | cons a l =>
      simp only [best?]
      split
      · simp
      · split <;> simp

/-- The best member is one of the list. -/
theorem mem_of_best? {α : Type} {better : α → α → Bool} {l : List α} {a : α}
    (h : best? better l = some a) : a ∈ l := by
  induction l generalizing a with
  | nil => cases h
  | cons b l ih =>
      simp only [best?] at h
      split at h
      · cases h
        simp
      · rename_i c hc
        split at h
        · cases h
          exact List.mem_cons_of_mem _ (ih hc)
        · cases h
          simp

/-- No member is better than the best, provided that what beats `c` also beats
whatever does not beat `c`. -/
theorem not_better_best? {α : Type} {better : α → α → Bool}
    (asymm : ∀ a b, better a b → better b a = false)
    (split_by : ∀ a b c, better a c → better a b ∨ better b c) {l : List α}
    {a b : α} (h : best? better l = some a) (hb : b ∈ l) :
    better b a = false := by
  have irrefl : ∀ a, better a a = false := fun a => by
    by_cases haa : better a a
    · exact asymm a a haa
    · simpa using haa
  induction l generalizing a with
  | nil => cases h
  | cons c l ih =>
      simp only [best?] at h
      split at h
      · rename_i hn
        cases h
        rw [best?_eq_none.mp hn] at hb
        rw [List.mem_singleton.mp hb]
        exact irrefl c
      · rename_i d hd
        split at h
        · rename_i hdc
          cases h
          rcases List.mem_cons.mp hb with rfl | hb
          · exact asymm _ _ hdc
          · exact ih hd hb
        · rename_i hdc
          cases h
          rcases List.mem_cons.mp hb with rfl | hb
          · exact irrefl _
          · by_cases hbc : better b c
            · rcases split_by b d c hbc with h1 | h1
              · rw [ih hd hb] at h1
                cases h1
              · exact absurd h1 hdc
            · simpa using hbc

/-- The best is better than all members before it. -/
theorem exists_split_of_best? {α : Type} {better : α → α → Bool} {l : List α}
    {a : α} (h : best? better l = some a) :
    ∃ before after, l = before ++ a :: after ∧ ∀ b ∈ before, better a b := by
  induction l generalizing a with
  | nil => cases h
  | cons c l ih =>
      simp only [best?] at h
      split at h
      · cases h
        exact ⟨[], l, rfl, fun b hb => nomatch hb⟩
      · rename_i d hd
        split at h
        · rename_i hdc
          cases h
          obtain ⟨before, after, rfl, hbefore⟩ := ih hd
          refine ⟨c :: before, after, rfl, fun b hb => ?_⟩
          rcases List.mem_cons.mp hb with rfl | hb
          · exact hdc
          · exact hbefore b hb
        · cases h
          exact ⟨[], l, rfl, fun b hb => nomatch hb⟩

/-- In which order variables are branched on. -/
inductive VariableOrder
  /-- By position. -/
  | ascending
  /-- The variable with the fewest values left. -/
  | smallestDomainFirst
  /-- The variable with the most neighbours. -/
  | mostConstrainedFirst
  /-- Any variable, all alike. -/
  | random
deriving DecidableEq, Inhabited

/-- In which order the values of a variable are tried. -/
inductive ValueOrder
  /-- The least value first. -/
  | ascending
  /-- As the walk down the domain meets them. -/
  | descending
deriving DecidableEq, Inhabited

/-- The first of the variables for which a number is least. -/
def least? (number : Variable → Nat) (l : List Variable) : Option Nat :=
  (best? (fun x y => x.2 < y.2) (l.map fun x => (x.id, number x))).map Prod.fst

/-- The first of the variables for which a number is greatest. -/
def greatest? (number : Variable → Nat) (l : List Variable) : Option Nat :=
  (best? (fun x y => y.2 < x.2) (l.map fun x => (x.id, number x))).map Prod.fst

/-- Picks an unassigned variable, the first of those that serve the order
best. -/
def VariableOrder.select : VariableOrder → Selector Random.Generator
  | .ascending, a, _, g => (a.firstUnassigned?.map Variable.id, g)
  | .smallestDomainFirst, a, _, g =>
    (least? Variable.effectiveSize a.unassigned, g)
  | .mostConstrainedFirst, a, n, g =>
    (greatest? (fun x => n.degree x.id) a.unassigned, g)
  | .random, a, _, g => Random.choose (a.unassigned.map Variable.id) g

/-- Picks a live value that was not tried. -/
def ValueOrder.select : ValueOrder → Variable → Option Int
  | .ascending, x => x.smallestUntried?
  | .descending, x => x.largestUntried?

end ConstraintNet
