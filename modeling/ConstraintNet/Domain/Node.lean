/-!
# Nodes of a search tree

A domain is a search tree with many keys in each node.  A node is read from its
greatest value down, the side on which domains are filled.  This file says what
any node must offer, whether it stands at the bottom of the tree or above, and
gives the nodes at the bottom, which hold keys alone.

A node holds at most `capacity` keys.  One that outgrows this is split at its
middle key.  A node that has fewer than `half` keys is filled up from its
neighbours before a value is taken out of it.

Two walks go down through a node.  `walk` is for the nodes on the right edge of
a tree, `skim` for all others.  At the bottom of the tree both meet every key;
above it, `skim` passes values over, which `Row` makes precise.

Main facts:

* `LawfulNode` — the operations act on the values as they should;
* `mem_insertDescending`, `descending_insertDescending`, `eraseDescending_eq` —
  inserting into a descending list and taking out of it.
-/

namespace ConstraintNet.Domain

/-- Each member is greater than all later ones. -/
abbrev Descending (l : List Int) : Prop := l.Pairwise (· > ·)

/-- The list with `v`, which goes before the first smaller member. -/
def insertDescending (v : Int) : List Int → List Int
  | [] => [v]
  | a :: l =>
    if a < v then v :: a :: l
    else if v = a then a :: l
    else a :: insertDescending v l

/-- A value that is put in its place is there afterwards, and nothing else comes
or goes. -/
@[simp] theorem mem_insertDescending {v w : Int} {l : List Int} :
    w ∈ insertDescending v l ↔ w = v ∨ w ∈ l := by
  induction l with
  | nil => simp [insertDescending]
  | cons a l ih =>
      simp only [insertDescending]
      split
      · simp
      · split
        · rename_i h
          subst h
          simp
        · simp only [List.mem_cons, ih]
          exact or_left_comm

/-- A descending list is still one after a value was put in its place. -/
theorem descending_insertDescending {v : Int} {l : List Int}
    (h : Descending l) : Descending (insertDescending v l) := by
  induction l with
  | nil => simp [insertDescending]
  | cons a l ih =>
      obtain ⟨ha, hl⟩ := List.pairwise_cons.mp h
      simp only [insertDescending]
      split
      · refine List.pairwise_cons.mpr ⟨fun b hb => ?_, h⟩
        rcases List.mem_cons.mp hb with rfl | hb
        · omega
        · have := ha b hb
          omega
      · split
        · exact h
        · refine List.pairwise_cons.mpr ⟨fun b hb => ?_, ih hl⟩
          rcases mem_insertDescending.mp hb with rfl | hb
          · omega
          · exact ha b hb

/-- A value goes after all greater members. -/
theorem insertDescending_append {v : Int} {l m : List Int}
    (h : ∀ a ∈ l, v < a) :
    insertDescending v (l ++ m) = l ++ insertDescending v m := by
  induction l with
  | nil => rfl
  | cons a l ih =>
      have ha := h a (by simp)
      rw [List.cons_append, insertDescending, if_neg (by omega),
        if_neg (by omega), ih fun b hb => h b (by simp [hb]), List.cons_append]

/-- A value goes before all smaller members. -/
theorem insertDescending_append_cons {v k : Int} {l m : List Int} (h : k < v) :
    insertDescending v (l ++ k :: m) = insertDescending v l ++ k :: m := by
  induction l with
  | nil => simp [insertDescending, h]
  | cons a l ih =>
      simp only [List.cons_append, insertDescending, ih]
      split
      · rfl
      · split <;> rfl

/-- The list without `v`. -/
def eraseDescending (v : Int) : List Int → List Int
  | [] => []
  | a :: l => if a = v then l else a :: eraseDescending v l

/-- A value stands but once in a descending list. -/
theorem eraseDescending_eq {v : Int} {l : List Int} (h : Descending l) :
    eraseDescending v l = l.filter (· != v) := by
  induction l with
  | nil => rfl
  | cons a l ih =>
      obtain ⟨ha, hl⟩ := List.pairwise_cons.mp h
      rw [eraseDescending]
      split
      · rename_i hv
        subst hv
        have : ∀ b ∈ l, (b != a) = true := fun b hb => by
          have := ha b hb
          simp only [bne_iff_ne, ne_eq]
          omega
        simp [List.filter_eq_self.mpr this]
      · rename_i hv
        simp [hv, ih hl]

/-- The last member that passes a test. -/
def findLast? (p : Int → Bool) : List Int → Option Int
  | [] => none
  | a :: l =>
    match findLast? p l with
    | some v => some v
    | none => if p a then some a else none

/-- The last member that passes a test is the first of the reversed list. -/
theorem findLast?_eq (p : Int → Bool) (l : List Int) :
    findLast? p l = l.reverse.find? p := by
  induction l with
  | nil => rfl
  | cons a l ih =>
      rw [findLast?, ih, List.reverse_cons, List.find?_append]
      cases l.reverse.find? p with
      | some v => rfl
      | none => cases h : p a <;> simp [h]

/-- The most keys that a node holds. -/
def capacity : Nat := 64

/-- The number of keys on either side of the key at which a node is split. -/
def half : Nat := 32

/-- Splits what a node holds at its middle if that is too much. -/
def overflow? {β : Type} (l : List β) : Option (List β × β × List β) :=
  if l.length ≤ capacity then none
  else
    match l.drop half with
    | [] => none
    | b :: lower => some (l.take half, b, lower)

/-- A list that is split at its middle is the upper half, the middle and the
lower half. -/
theorem eq_of_overflow? {β : Type} {l upper lower : List β} {b : β}
    (h : overflow? l = some (upper, b, lower)) : l = upper ++ b :: lower := by
  unfold overflow? at h
  split at h
  · cases h
  · split at h
    · cases h
    · rename_i hd
      cases h
      rw [← hd, List.take_append_drop]

/-- What an insertion makes of a node: a node again, or two with a key between
them. -/
inductive Grown (α : Type)
  | one (node : α)
  | two (upper : α) (key : Int) (lower : α)

/-- What the nodes of a tree offer. -/
class Node (α : Type) where
  /-- The values, from the greatest down. -/
  down : α → List Int
  /-- The number of keys in the node itself. -/
  size : α → Nat
  /-- The greatest value. -/
  greatest? : α → Option Int
  /-- The least value. -/
  least? : α → Option Int
  /-- One node of two and the key between them. -/
  merge : α → Int → α → α
  /-- Moves the least part of the upper of two nodes, through the key between
  them, to the lower node. -/
  lend? : α → Int → α → Option (α × Int × α)
  /-- Moves the greatest part of the lower of two nodes, through the key between
  them, to the upper node. -/
  borrow? : α → Int → α → Option (α × Int × α)
  /-- The values that a walk down meets on the right edge of a tree. -/
  walk : α → List Int
  /-- The values that a walk down meets off the right edge. -/
  skim : α → List Int
  /-- The least value that passes a test. -/
  findUp? : (Int → Bool) → α → Option Int
  /-- The first value on `walk` that passes a test. -/
  findWalk? : (Int → Bool) → α → Option Int
  /-- The first value on `skim` that passes a test. -/
  findSkim? : (Int → Bool) → α → Option Int

/-- The values of what an insertion made, from the greatest down. -/
def Grown.down {α : Type} [Node α] : Grown α → List Int
  | .one t => Node.down t
  | .two upper k lower => Node.down upper ++ k :: Node.down lower

/-- The operations of a node act on its values as they should. -/
class LawfulNode (α : Type) [Node α] : Prop where
  greatest?_eq (t : α) : Node.greatest? t = (Node.down t).head?
  least?_eq (t : α) : Node.least? t = (Node.down t).getLast?
  down_merge (upper : α) (k : Int) (lower : α) :
    Node.down (Node.merge upper k lower) =
      Node.down upper ++ k :: Node.down lower
  down_lend? {upper lower upper' lower' : α} {k k' : Int}
    (h : Node.lend? upper k lower = some (upper', k', lower')) :
    ∃ m, Node.down upper = Node.down upper' ++ k' :: m ∧
      Node.down lower' = m ++ k :: Node.down lower
  down_borrow? {upper lower upper' lower' : α} {k k' : Int}
    (h : Node.borrow? upper k lower = some (upper', k', lower')) :
    ∃ m, Node.down upper' = Node.down upper ++ k :: m ∧
      Node.down lower = m ++ k' :: Node.down lower'
  walk_sublist (t : α) : (Node.walk t).Sublist (Node.down t)
  skim_sublist (t : α) : (Node.skim t).Sublist (Node.down t)
  findUp?_eq (p : Int → Bool) (t : α) :
    Node.findUp? p t = (Node.down t).reverse.find? p
  findWalk?_eq (p : Int → Bool) (t : α) :
    Node.findWalk? p t = (Node.walk t).find? p
  findSkim?_eq (p : Int → Bool) (t : α) :
    Node.findSkim? p t = (Node.skim t).find? p

/-- A node at the bottom of a tree. -/
structure Leaf where
  /-- The keys, from the greatest down. -/
  keys : List Int
deriving DecidableEq, Inhabited

namespace Leaf

/-- Whether a key is there. -/
def contains (t : Leaf) (v : Int) : Bool := t.keys.any (· == v)

/-- Takes a key out. -/
def erase (t : Leaf) (v : Int) : Leaf := ⟨eraseDescending v t.keys⟩

/-- Puts a key in its place. -/
def insert (t : Leaf) (v : Int) : Grown Leaf :=
  let keys := insertDescending v t.keys
  match overflow? keys with
  | none => .one ⟨keys⟩
  | some (upper, k, lower) => .two ⟨upper⟩ k ⟨lower⟩

/-- Moves the least key of the upper of two leaves up, and the key between them
to the lower leaf. -/
def lend? (upper : Leaf) (k : Int) (lower : Leaf) :
    Option (Leaf × Int × Leaf) :=
  upper.keys.getLast?.map fun least =>
    (⟨upper.keys.dropLast⟩, least, ⟨k :: lower.keys⟩)

/-- Moves the greatest key of the lower of two leaves up, and the key between
them to the upper leaf. -/
def borrow? (upper : Leaf) (k : Int) (lower : Leaf) :
    Option (Leaf × Int × Leaf) :=
  match lower.keys with
  | [] => none
  | greatest :: keys => some (⟨upper.keys ++ [k]⟩, greatest, ⟨keys⟩)

instance node : Node Leaf where
  down := keys
  size t := t.keys.length
  greatest? t := t.keys.head?
  least? t := t.keys.getLast?
  merge upper k lower := ⟨upper.keys ++ k :: lower.keys⟩
  lend? := lend?
  borrow? := borrow?
  walk := keys
  skim := keys
  findUp? p t := findLast? p t.keys
  findWalk? p t := t.keys.find? p
  findSkim? p t := t.keys.find? p

/-- A leaf is searched key by key. -/
theorem contains_iff {v : Int} {t : Leaf} : t.contains v ↔ v ∈ Node.down t := by
  simp [contains, Node.down]

/-- A leaf that descends holds a key once at most, so that taking out the first
match takes out all. -/
theorem down_erase {v : Int} {t : Leaf} (h : Descending (Node.down t)) :
    Node.down (t.erase v) = (Node.down t).filter (· != v) :=
  eraseDescending_eq h

/-- Whether or not a leaf is split, its keys are those of the list with the
value in its place. -/
theorem down_insert (t : Leaf) (v : Int) :
    (t.insert v).down = insertDescending v (Node.down t) := by
  simp only [insert]
  split
  · rfl
  · rename_i h
    exact (eq_of_overflow? h).symm

instance lawful : LawfulNode Leaf where
  greatest?_eq _ := rfl
  least?_eq _ := rfl
  down_merge _ _ _ := rfl
  down_lend? {upper lower upper' lower' k k'} h := by
    obtain ⟨least, hl, he⟩ := Option.map_eq_some_iff.mp h
    cases he
    obtain ⟨l, hl⟩ := List.getLast?_eq_some_iff.mp hl
    exact ⟨[], by simp [Node.down, hl], rfl⟩
  down_borrow? {upper lower upper' lower' k k'} h := by
    change borrow? upper k lower = _ at h
    unfold borrow? at h
    split at h
    · cases h
    · rename_i hl
      cases h
      exact ⟨[], rfl, hl⟩
  walk_sublist _ := List.Sublist.refl _
  skim_sublist _ := List.Sublist.refl _
  findUp?_eq p t := findLast?_eq p t.keys
  findWalk?_eq _ _ := rfl
  findSkim?_eq _ _ := rfl

end Leaf

end ConstraintNet.Domain
