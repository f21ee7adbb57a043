import ConstraintNet.Random.Draw

/-!
# Draws that end

A draw goes on while the words of the generator are refused.  Nothing says how
long this may take, so a draw that ends is described by its words, however many
they are: the last is accepted, and all before it are refused.  A choice is
described by the words drawn for each element.

The first number is drawn below one.  So the first element is chosen if its draw
ends, and what comes after it can only take its place.

* `Chosen.eq_none_iff`, `Chosen.mem` — draws that end choose a member, if there
  is one;
* `Drawn.belowWithin_eq`, `Chosen.chooseFrom_eq` — what they come to is the
  answer, if no draw takes more words than are tried.
-/

namespace ConstraintNet.Random

/-- The low half of the product of a word with `n` lies within the zone. -/
def Accepts (n : Nat) (word : UInt32) : Prop :=
  word.toNat * n % 0x100000000 ≤ zone n

instance (n : Nat) (word : UInt32) : Decidable (Accepts n word) :=
  inferInstanceAs (Decidable (_ ≤ _))

/-- The words of a draw below `n` that ends: all but the last are refused, and
the last gives the number. -/
inductive Drawn (n : Nat) : List UInt32 → Nat → Prop
  | accepted {word : UInt32} (h : Accepts n word) :
      Drawn n [word] (word.toNat * n / 0x100000000)
  | refused {word : UInt32} {words : List UInt32} {r : Nat}
      (h : ¬ Accepts n word)
      (hrest : Drawn n words r) : Drawn n (word :: words) r

/-- The words drawn for each element in turn, the first of which is the `k`-th,
and what the choice so far becomes. -/
inductive Chosen {α : Type} : Nat → Option α → List α → List (List UInt32) →
    Option α → Prop
  | nil {k : Nat} {choice : Option α} : Chosen k choice [] [] choice
  | cons {k r : Nat} {choice c : Option α} {a : α} {l : List α}
      {words : List UInt32}
      {rest : List (List UInt32)} (hdraw : Drawn k words r)
      (hrest : Chosen (k + 1) (if r = 0 then some a else choice) l rest c) :
      Chosen k choice (a :: l) (words :: rest) c

variable {α : Type} {g g' : Generator} {n k r : Nat} {words later : List UInt32}
  {drawn : List (List UInt32)} {choice c : Option α} {l : List α}

/-! ## What is chosen -/

/-- What is drawn below a positive number is below it. -/
theorem Drawn.lt (h : Drawn n words r) (hn : 0 < n) : r < n := by
  induction h with
  | accepted _ => exact high_lt _ hn
  | refused _ _ ih => exact ih

/-- A choice is given up only for another. -/
theorem Chosen.isSome (h : Chosen k choice l drawn c)
    (hchoice : choice.isSome) : c.isSome := by
  induction h with
  | nil => exact hchoice
  | cons _ _ ih =>
      apply ih
      split
      · rfl
      · exact hchoice

/-- What is chosen is the choice so far or a member. -/
theorem Chosen.mem (h : Chosen k choice l drawn c) :
    c = choice ∨ ∃ a ∈ l, c = some a := by
  induction h with
  | nil => exact .inl rfl
  | @cons k r choice c a l words rest _ _ ih =>
      rcases ih with rfl | ⟨b, hb, rfl⟩
      · by_cases hr : r = 0
        · exact .inr ⟨a, List.mem_cons_self, if_pos hr⟩
        · exact .inl (if_neg hr)
      · exact .inr ⟨b, List.mem_cons_of_mem a hb, rfl⟩

/-- **Nothing is chosen only where there is nothing to choose.** -/
theorem Chosen.eq_none_iff (h : Chosen 1 none l drawn c) :
    c = none ↔ l = [] := by
  cases h with
  | nil => simp
  | cons hdraw hrest =>
      -- The only number below one is zero.
      rw [if_pos (Nat.lt_one_iff.mp (hdraw.lt Nat.one_pos))] at hrest
      have hsome := hrest.isSome rfl
      simp only [reduceCtorEq, iff_false]
      exact fun hnone => by simp [hnone] at hsome

/-! ## What a generator chooses -/

/-- The next words of a generator, and what it is after them. -/
def Generator.Yields : Generator → List UInt32 → Generator → Prop
  | g, [], g' => g' = g
  | g, word :: words, g' => g.next.1 = word ∧ g.next.2.Yields words g'

/-- A generator yields a sequence of words part by part. -/
theorem Generator.yields_append :
    g.Yields (words ++ later) g' ↔
    ∃ h, g.Yields words h ∧ h.Yields later g' := by
  induction words generalizing g with
  | nil => simp [Yields]
  | cons word words ih =>
      rw [List.cons_append, Yields, ih]
      constructor
      · rintro ⟨hword, h, hwords, hlater⟩
        exact ⟨h, ⟨hword, hwords⟩, hlater⟩
      · rintro ⟨h, ⟨hword, hwords⟩, hlater⟩
        exact ⟨hword, h, hwords, hlater⟩

/-- A draw that ends in time gives its number. -/
theorem Drawn.belowWithin_eq (h : Drawn n words r) {tries : Nat}
    (htries : words.length ≤ tries) (hg : g.Yields words g') :
    belowWithin n tries g = (r, g') := by
  induction h generalizing g tries with
  | accepted haccepts =>
      obtain ⟨rfl, rfl⟩ := hg
      cases tries with
      | zero => rfl
      | succ tries => exact if_pos haccepts
  | refused hrefused _ ih =>
      obtain ⟨rfl, hg⟩ := hg
      cases tries with
      | zero => simp at htries
      | succ tries =>
          rw [belowWithin]
          exact (if_neg hrefused).trans (ih (Nat.le_of_succ_le_succ htries) hg)

/-- **What draws that end in time come to is what is chosen.** -/
theorem Chosen.chooseFrom_eq (h : Chosen k choice l drawn c)
    (htime : ∀ words ∈ drawn, words.length ≤ 0x100000000)
    (hg : g.Yields drawn.flatten g') : chooseFrom k choice l g = (c, g') := by
  induction h generalizing g with
  | nil =>
      cases hg
      rfl
  | cons hdraw _ ih =>
      obtain ⟨hwords, htime⟩ := List.forall_mem_cons.mp htime
      obtain ⟨g'', hg, hrest⟩ := Generator.yields_append.mp hg
      rw [chooseFrom, Random.below, hdraw.belowWithin_eq hwords hg]
      exact ih htime hrest

end ConstraintNet.Random
