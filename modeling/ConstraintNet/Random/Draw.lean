import ConstraintNet.Random.ChaCha
/-!
# Fair draws

A word is scaled to a number below `n` by taking the high half of its product
with `n`.  Words whose product has its low half above a zone are drawn again,
so that every number has the same share.  A choice from a list draws once for
each element and keeps the latest for which the draw is zero.

Main facts:

* `below_lt` — a draw below a positive `n` is below `n`;
* `choose_cons` — something is chosen from any list but the
  empty one, and it is a member.
-/

namespace ConstraintNet.Random

/-- The greatest low half that is accepted: `n` times the greatest power of two
that leaves it within a word, less one. -/
def zone (n : Nat) : Nat := n <<< (31 - n.log2) - 1

/-- Draws a number below `n`, and again while the word is not accepted; after so
many tries any word is accepted. -/
def belowWithin (n : Nat) : Nat → Generator → Nat × Generator
  | 0, g => let (word, g) := g.next; (word.toNat * n / 0x100000000, g)
  | tries + 1, g =>
    let (word, g) := g.next
    let product := word.toNat * n
    if product % 0x100000000 ≤ zone n then (product / 0x100000000, g)
    else belowWithin n tries g

/-- Draws a number below `n`. -/
def below (n : Nat) (g : Generator) : Nat × Generator :=
  belowWithin n 0x100000000 g

/-- Draws for each element in turn; the draw for the `k`-th is below `k`, and a
zero makes that element the choice so far. -/
def chooseFrom {α : Type} (k : Nat) (choice : Option α) :
    List α → Generator → Option α × Generator
  | [], g => (choice, g)
  | a :: l, g =>
    let (r, g) := below k g
    chooseFrom (k + 1) (if r = 0 then some a else choice) l g

/-- Chooses an element; every element has the same share. -/
def choose {α : Type} (l : List α) (g : Generator) : Option α × Generator :=
  chooseFrom 1 none l g

/-- A word times `n` has its high half below `n`. -/
theorem high_lt (word : UInt32) {n : Nat} (hn : 0 < n) :
    word.toNat * n / 0x100000000 < n := by
  rw [Nat.div_lt_iff_lt_mul (by decide), Nat.mul_comm n]
  exact Nat.mul_lt_mul_of_pos_right word.toNat_lt hn

/-- A draw below a positive number is below it. -/
theorem below_lt {n : Nat} (hn : 0 < n) (g : Generator) :
    (below n g).1 < n := by
  have key : ∀ tries g, (belowWithin n tries g).1 < n := by
    intro tries
    induction tries with
    | zero => exact fun g => high_lt _ hn
    | succ tries ih =>
        intro g
        simp only [belowWithin]
        split
        · exact high_lt _ hn
        · exact ih _
  exact key _ g

/-- A choice from a list that begins with a candidate is this or a member of the
list. -/
theorem chooseFrom_some {α : Type} (l : List α) :
    ∀ (k : Nat) (a : α) (g : Generator),
    ∃ b, (chooseFrom k (some a) l g).1 = some b ∧ (b = a ∨ b ∈ l) := by
  induction l with
  | nil => exact fun _ a _ => ⟨a, rfl, .inl rfl⟩
  | cons c l ih =>
      intro k a g
      simp only [chooseFrom]
      split
      · obtain ⟨b, hb, h⟩ := ih (k + 1) c (below k g).2
        exact ⟨b, hb, .inr (by rcases h with rfl | h <;> simp [*])⟩
      · obtain ⟨b, hb, h⟩ := ih (k + 1) a (below k g).2
        exact ⟨b, hb, by rcases h with rfl | h <;> simp [*]⟩

/-- Something is chosen from any list but the empty one, and it is a member. -/
theorem choose_cons {α : Type} (a : α) (l : List α) (g : Generator) :
    ∃ b, (choose (a :: l) g).1 = some b ∧ b ∈ a :: l := by
  have h0 : (below 1 g).1 = 0 := by
    have := below_lt (n := 1) (by decide) g
    omega
  obtain ⟨b, hb, h⟩ := chooseFrom_some l 2 a (below 1 g).2
  refine ⟨b, ?_, by rcases h with rfl | h <;> simp [*]⟩
  simpa [choose, chooseFrom, h0] using hb

end ConstraintNet.Random
