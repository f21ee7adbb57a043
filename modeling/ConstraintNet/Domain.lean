import ConstraintNet.Domain.Occupancy
import ConstraintNet.ValueSet
/-!
# Domains

The values that a variable may take, in a search tree.  As a set of values a
domain is what one expects.  The walk down, by which values are tried from the
greatest on, depends on the shape of the tree as well, and so on the order in
which values came and went.  In a tree of at most two levels it meets every
value; in a higher tree, which needs more than two thousand values, it passes
some of them over.

That a tree of so few values is low is not for any tree to say, but it is for
those that come of inserting and taking out, since these keep every node but the
root about half full.

Main facts:

* `mem_insert`, `mem_erase`, `mem_ofList` — what each operation does to the
  members;
* `toList_insert`, `toList_erase` — and to their list;
* `walk_sublist`, `walk_eq_of_height_le_one` — the walk down meets only members,
  in descending order, and all of them in a tree of at most two levels;
* `height_le_one_of_size_lt`, `walk_eq_of_size_lt` — as in every domain of fewer
  than 2047 values.
-/

namespace ConstraintNet

namespace Domain

/-- Trees whose leaves lie so many levels below the root. -/
def Tree : Nat → Type
  | 0 => Leaf
  | height + 1 => Row (Tree height)

/-- What the nodes of a tree of two levels offer. -/
@[reducible] def Tree.second : Node (Tree 1) := @Row.node _ Leaf.node

/-- What the nodes of a tree of three levels offer. -/
@[reducible] def Tree.third : Node (Tree 2) := @Row.node _ second

/-- What the nodes of a tree of four levels offer. -/
@[reducible] def Tree.fourth : Node (Tree 3) := @Row.node _ third

/-- What the nodes of a tree offer.  For low trees this is at hand and not put
together anew each time. -/
instance Tree.node : (height : Nat) → Node (Tree height)
  | 0 => Leaf.node
  | 1 => second
  | 2 => third
  | 3 => fourth
  | height + 4 => @Row.node _ (node (height + 3))

/-- A tree one level higher is a row of trees. -/
theorem Tree.node_row :
    (height : Nat) → node (height + 1) = @Row.node _ (node height)
  | 0 => rfl
  | 1 => rfl
  | 2 => rfl
  | _ + 3 => rfl

instance Tree.lawful : (height : Nat) → LawfulNode (Tree height)
  | 0 => Leaf.lawful
  | height + 1 => by
      rw [Tree.node_row]
      exact @Row.lawful _ (Tree.node height) (lawful height)

/-- The values of a tree with a row at its root. -/
theorem Tree.down_row {height : Nat} (r : Row (Tree height)) :
    @Node.down (Tree (height + 1)) _ r =
      Node.down r.top ++ Row.downRest r.rest := by
  rw [Tree.node_row]
  rfl

namespace Tree

/-- The number of keys in the root. -/
def size : (height : Nat) → Tree height → Nat
  | 0, ⟨keys⟩ => keys.length
  | _ + 1, ⟨_, rest⟩ => rest.length

/-- Whether a value is there. -/
def contains (v : Int) : (height : Nat) → Tree height → Bool
  | 0, t => Leaf.contains t v
  | height + 1, ⟨top, rest⟩ => Row.containsIn (contains v height) v top rest

/-- Puts a value in its place. -/
def insert (v : Int) : (height : Nat) → Tree height → Grown (Tree height)
  | 0, t => Leaf.insert t v
  | height + 1, r => Row.insert (insert v height) v r

/-- Takes a value out. -/
def erase : (height : Nat) → Int → Tree height → Tree height
  | 0, v, t => Leaf.erase t v
  | height + 1, v, r => Row.erase (size height) (erase height) v r

/-- Looking a value up finds the members. -/
theorem tells_contains {v : Int} :
    (height : Nat) → Row.Tells (contains v height) v
  | 0 => fun _ _ => Leaf.contains_iff
  | height + 1 => by
      rw [node_row]
      exact fun _ h => Row.containsIn_iff (tells_contains height) h

/-- Inserting puts a value in its place. -/
theorem inserts_insert {v : Int} :
    (height : Nat) → Row.Inserts (insert v height) v
  | 0 => fun t _ => Leaf.down_insert t v
  | height + 1 => by
      rw [node_row]
      exact fun _ h => Row.down_insert (inserts_insert height) h

/-- Taking a value out leaves the other values. -/
theorem removes_erase : (height : Nat) → Row.Removes (erase height)
  | 0 => fun _ _ h => Leaf.down_erase h
  | height + 1 => by
      rw [node_row]
      exact fun _ _ h => Row.down_erase (removes_erase height) h

/-! ### How full a tree is -/

/-- All nodes below the root hold what they should. -/
def Inside : (height : Nat) → Tree height → Prop
  | 0 => fun _ : Leaf => True
  | height + 1 => Row.Inside (Inside height)

/-- Every node below the root is well filled, and a root that is no leaf has a
key. -/
def Stocked (height : Nat) (t : Tree height) : Prop :=
  Enough (Inside height) (min 1 height) t

/-- The number of keys at the root, as `size` reads it off, is what the node
says. -/
theorem size_eq :
    (height : Nat) → (t : Tree height) → size height t = Node.size t
  | 0, _ => rfl
  | height + 1, _ => by
      rw [node_row]
      rfl

/-- The keys of a row, its topmost subtree and the rest. -/
theorem enough_row {height k : Nat} {r : Row (Tree height)} :
    @Enough (Tree (height + 1)) _ (Inside (height + 1)) k r ↔
      k ≤ r.rest.length ∧ Enough (Inside height) (half - 1) r.top ∧
        ∀ p ∈ r.rest, Enough (Inside height) (half - 1) p.2 := by
  rw [node_row]
  exact Iff.rfl

/-- What moves between neighbours of any height leaves them well stocked; each
level passes this on to the next. -/
theorem stocks : (height : Nat) → Stocks (Inside height)
  | 0 => Leaf.stocks
  | height + 1 => by
      rw [node_row]
      exact Row.stocks

/-- Inserting into a tree of any height leaves its root as many keys. -/
theorem grows_insert (v : Int) :
    (height : Nat) → Grows (Inside height) (insert v height)
  | 0 => Leaf.grows_insert v
  | height + 1 => by
      rw [node_row]
      exact Row.grows_insert (grows_insert v height) v

/-- Taking out of a tree of any height costs its root one key at most. -/
theorem keeps_erase : (height : Nat) → Keeps (Inside height) (erase height)
  | 0 => Leaf.keeps_erase
  | height + 1 => by
      rw [node_row]
      exact Row.keeps_erase (stocks height) (keeps_erase height)
        (size_eq height)

/-- The fewest values in a subtree with enough keys in all its nodes. -/
def load : Nat → Nat
  | 0 => half - 1
  | height + 1 => half - 1 + half * load height

/-- A tree with enough keys in all its nodes has so many values. -/
theorem load_le :
    (height : Nat) → {k : Nat} → {t : Tree height} →
    Enough (Inside height) k t →
    k ≤ (Node.down t).length ∧
      (half - 1 ≤ k → load height ≤ (Node.down t).length) ∧
      (∀ h, height = h + 1 → k + (k + 1) * load h ≤ (Node.down t).length)
  | 0, k, t, ht => by
      have hk : k ≤ (Node.down t).length := ht.1
      refine ⟨hk, fun h => Nat.le_trans h hk, fun h he => (nomatch he)⟩
  | height + 1, k, t, ht => by
      obtain ⟨top, rest⟩ : Row (Tree height) := t
      obtain ⟨hk, htop, hrest⟩ := enough_row.mp ht
      change k ≤ rest.length at hk
      have hsubtree : ∀ u : Tree height, Enough (Inside height) (half - 1) u →
          load height ≤ (Node.down u).length := fun u hu =>
        (load_le height hu).2.1 (Nat.le_refl _)
      have hbelow : ∀ l : List (Int × Tree height),
          (∀ p ∈ l, Enough (Inside height) (half - 1) p.2) →
          l.length * (1 + load height) ≤ (Row.downRest l).length := by
        intro l
        induction l with
        | nil => simp
        | cons p l ih =>
            intro hl
            have hp := hsubtree p.2 (hl p List.mem_cons_self)
            have hl' := ih fun q hq => hl q (List.mem_cons_of_mem p hq)
            rw [Row.downRest_cons, List.length_cons, List.length_cons,
              List.length_append, Nat.succ_mul]
            omega
      have hlength : load height + rest.length * (1 + load height) ≤
          (@Node.down (Tree (height + 1)) _ (Row.mk top rest)).length := by
        rw [down_row, List.length_append]
        exact Nat.add_le_add (hsubtree top htop) (hbelow rest hrest)
      have hmul : k * (1 + load height) ≤ rest.length * (1 + load height) :=
        Nat.mul_le_mul_right _ hk
      have hall : k + (k + 1) * load height ≤
          (@Node.down (Tree (height + 1)) _ (Row.mk top rest)).length := by
        have : k * (1 + load height) =
          k + k * load height := by rw [Nat.mul_add, Nat.mul_one]
        rw [Nat.succ_mul]
        omega
      refine ⟨Nat.le_trans (Nat.le_add_right _ _) hall, fun hhalf => ?_,
        fun h he => ?_⟩
      · have hmore : half * load height ≤ (k + 1) * load height :=
          Nat.mul_le_mul_right _ (by simp only [half] at hhalf ⊢; omega)
        rw [load]
        omega
      · cases he
        exact hall

/-- Higher trees have more values. -/
theorem load_one_le (height : Nat) : load 1 ≤ load (height + 1) := by
  induction height with
  | zero => exact Nat.le_refl _
  | succ height ih =>
      refine Nat.le_trans ih ?_
      rw [load.eq_def (height + 2)]
      simp only [half]
      omega

/-- A tree of three levels or more has at least 2047 values. -/
theorem le_length_of_stocked {height : Nat} {t : Tree height}
    (h : Stocked height t) (hhigh : 2 ≤ height) :
    2047 ≤ (Node.down t).length := by
  obtain ⟨low, rfl⟩ : ∃ low, height = low + 2 := ⟨height - 2, by omega⟩
  have hone : min 1 (low + 2) = 1 := by omega
  rw [Stocked, hone] at h
  have hvalues := (load_le (low + 2) h).2.2 (low + 1) rfl
  have hload := load_one_le low
  have hnumber : load 1 = 1023 := rfl
  omega

end Tree

end Domain

open Domain in
/-- A finite set of integers in a search tree. -/
structure Domain where
  height : Nat
  tree : Tree height
  descending : Descending (Node.down tree)
  stocked : Tree.Stocked height tree

namespace Domain

/-- The values in ascending order. -/
def toList (d : Domain) : List Int := (Node.down d.tree).reverse

/-- Whether a value is there. -/
def contains (d : Domain) (v : Int) : Bool := Tree.contains v d.height d.tree

/-- The search of the tree agrees with the list of members. -/
theorem contains_iff {d : Domain} {v : Int} : d.contains v ↔ v ∈ d.toList := by
  rw [toList, List.mem_reverse]
  exact Tree.tells_contains d.height d.tree d.descending

instance : Membership Int Domain := ⟨fun d v => v ∈ d.toList⟩

instance (v : Int) (d : Domain) : Decidable (v ∈ d) :=
  decidable_of_iff _ contains_iff

/-- Membership is told by the list of members, from the least to the
greatest. -/
theorem mem_def {v : Int} {d : Domain} : v ∈ d ↔ v ∈ d.toList := Iff.rfl

/-- The tree is read from the greatest value down, so its reversed values
ascend. -/
theorem ascending_toList (d : Domain) : d.toList.Pairwise (· < ·) :=
  List.pairwise_reverse.mpr d.descending

/-- The values as a set. -/
def values (d : Domain) : ValueSet := ⟨d.toList, d.ascending_toList⟩

@[simp] theorem mem_values {v : Int} {d : Domain} : v ∈ d.values ↔ v ∈ d :=
  Iff.rfl

/-- The number of values. -/
def size (d : Domain) : Nat := d.toList.length

/-- The least value. -/
def min? (d : Domain) : Option Int := Node.least? d.tree

/-- The greatest value. -/
def max? (d : Domain) : Option Int := Node.greatest? d.tree

/-- The domain without values. -/
def empty : Domain := ⟨0, Leaf.mk [], List.Pairwise.nil, Nat.le_refl 0, trivial⟩

instance : EmptyCollection Domain := ⟨empty⟩

instance : Inhabited Domain := ⟨∅⟩

@[simp] theorem not_mem_empty (v : Int) : v ∉ (∅ : Domain) := List.not_mem_nil

/-- The least value that passes a test. -/
def findUp? (d : Domain) (p : Int → Bool) : Option Int := Node.findUp? p d.tree

/-- Going up from the least member, the search finds the first member in the
list that passes the test. -/
theorem findUp?_eq (d : Domain) (p : Int → Bool) :
    d.findUp? p = d.toList.find? p :=
  LawfulNode.findUp?_eq p d.tree

/-! ## Inserting -/

/-- The domain of what an insertion made of a tree.  Two trees become the
subtrees of a new root. -/
def ofGrown {height : Nat} : (g : Grown (Tree height)) → Descending g.down →
    g.Enough (Tree.Inside height) (min 1 height) → Domain
  | .one t, h, hs => ⟨height, t, h, hs⟩
  | .two upper k lower, h, hs =>
    ⟨height + 1,
      Row.mk upper [(k, lower)], by simpa [Tree.down_row, Grown.down] using h,
      Tree.enough_row.mpr ⟨Nat.min_le_left _ _, hs.1.mono (Nat.sub_le _ _),
        fun p hp => by
        rw [List.mem_singleton.mp hp]
        exact hs.2.mono (Nat.sub_le _ _)⟩⟩

/-- Puts a value in its place. -/
def insert (d : Domain) (v : Int) : Domain :=
  ofGrown (Tree.insert v d.height d.tree)
    (Tree.inserts_insert d.height d.tree d.descending ▸
      descending_insertDescending d.descending)
    (Tree.grows_insert v d.height _ d.tree d.stocked)

/-- The domain with every value of a list put in its place, one after the
other. -/
def insertAll (d : Domain) (l : List Int) : Domain := l.foldl insert d

/-- The domain of the values of a list, which may repeat and come in any
order. -/
def ofList (l : List Int) : Domain := insertAll ∅ l

/-- A domain made from what an insertion left has its values, with a new root
above the halves if the old one was split. -/
theorem toList_ofGrown {height : Nat} (g : Grown (Tree height))
    (h : Descending g.down)
    (hs : g.Enough (Tree.Inside height) (min 1 height)) :
    (ofGrown g h hs).toList = g.down.reverse := by
  cases g with
  | one t => rfl
  | two upper k lower =>
      change
        (@Node.down (Tree (height + 1)) _ ⟨upper, [(k, lower)]⟩).reverse = _
      rw [Tree.down_row]
      simp [Grown.down]

/-- A value goes before all greater members. -/
theorem toList_insert (d : Domain) (v : Int) :
    (d.insert v).toList = (insertDescending v d.toList.reverse).reverse := by
  rw [insert, toList_ofGrown, Tree.inserts_insert d.height d.tree d.descending,
    toList, List.reverse_reverse]

/-- Inserting a value adds that value and changes no other membership. -/
@[simp] theorem mem_insert {d : Domain} {v w : Int} :
    w ∈ d.insert v ↔ w = v ∨ w ∈ d := by
  rw [mem_def, toList_insert, List.mem_reverse, mem_insertDescending,
    List.mem_reverse, mem_def]

/-- So does inserting many, one after another. -/
@[simp] theorem mem_insertAll {d : Domain} {l : List Int} {v : Int} :
    v ∈ d.insertAll l ↔ v ∈ l ∨ v ∈ d := by
  induction l generalizing d with
  | nil => simp [insertAll]
  | cons a l ih =>
      have : d.insertAll (a :: l) = (d.insert a).insertAll l := rfl
      rw [this, ih, mem_insert, List.mem_cons]
      exact ⟨fun h => h.elim (.inl ∘ .inr) (Or.imp_left .inl),
        fun h => h.elim (Or.elim · (.inr ∘ .inl) .inl) (.inr ∘ .inr)⟩

/-- A domain made from a list has the members of the list, whatever their order
and however often they stand there. -/
@[simp] theorem mem_ofList {l : List Int} {v : Int} : v ∈ ofList l ↔ v ∈ l := by
  simp [ofList]

/-! ## Taking out -/

section

variable {height : Nat} {top : Tree height} {p : Int × Tree height}
  {rest : List (Int × Tree height)}

/-- A row without keys is nothing but its topmost subtree, and shows the same
values. -/
theorem descending_of_bare
    (h : Descending (@Node.down (Tree (height + 1)) _ (Row.mk top []))) :
    Descending (Node.down top) := by
  rwa [Tree.down_row, Row.downRest_nil, List.append_nil] at h

/-- Under a root without keys the topmost subtree becomes a root itself, with
what it holds. -/
theorem stocked_of_bare
    (hs : @Enough (Tree (height + 1)) _ (Tree.Inside (height + 1)) 0
      (Row.mk top [])) : Tree.Stocked height top := by
  refine (Tree.enough_row.mp hs).2.1.mono ?_
  simp only [half]
  omega

/-- A row with a key may be a root. -/
theorem stocked_of_key
    (hs : @Enough (Tree (height + 1)) _ (Tree.Inside (height + 1)) 0
      (Row.mk top (p :: rest))) :
    Tree.Stocked (height + 1) (Row.mk top (p :: rest)) := by
  refine Tree.enough_row.mpr ⟨?_, (Tree.enough_row.mp hs).2⟩
  simp only [List.length_cons]
  omega

end

/-- The domain of a tree; a root without keys gives way to its only subtree. -/
def ofTree : (height : Nat) → (t : Tree height) → Descending (Node.down t) →
    Enough (Tree.Inside height) 0 t → Domain
  | 0, t, h, hs => ⟨0, t, h, hs⟩
  | height + 1, ⟨top, []⟩, h, hs =>
      ⟨height, top, descending_of_bare h, stocked_of_bare hs⟩
  | height + 1, ⟨top, p :: rest⟩, h, hs =>
    ⟨height + 1, Row.mk top (p :: rest), h, stocked_of_key hs⟩

/-- Taking a value out leaves what a tree with a root of its own needs. -/
theorem enough_erase (d : Domain) (v : Int) :
    Enough (Tree.Inside d.height) 0 (Tree.erase d.height v d.tree) := by
  obtain ⟨height, t, h, hs⟩ := d
  cases height with
  | zero => exact ⟨Nat.zero_le _, trivial⟩
  | succ height =>
      rw [Tree.Stocked, Nat.min_eq_left (by omega)] at hs
      exact Tree.keeps_erase (height + 1) v 0 t hs

/-- Takes a value out. -/
def erase (d : Domain) (v : Int) : Domain :=
  if d.contains v then
    ofTree d.height (Tree.erase d.height v d.tree)
      (Tree.removes_erase d.height v d.tree d.descending ▸
        d.descending.filter _)
      (d.enough_erase v)
  else d

/-- A root without keys gives way to its only child, which shows the same
values. -/
theorem toList_ofTree :
    (height : Nat) → (t : Tree height) → (h : Descending (Node.down t)) →
    (hs : Enough (Tree.Inside height) 0 t) →
    (ofTree height t h hs).toList = (Node.down t).reverse
  | 0, _, _, _ => rfl
  | height + 1, ⟨top, []⟩, _, _ => by
      change (Node.down top).reverse =
        (@Node.down (Tree (height + 1)) _ ⟨top, []⟩).reverse
      rw [Tree.down_row]
      simp
  | height + 1, ⟨top, p :: rest⟩, _, _ => rfl

/-- All other values stay. -/
theorem toList_erase (d : Domain) (v : Int) :
    (d.erase v).toList = d.toList.filter (· != v) := by
  unfold erase
  split
  · rw [toList_ofTree, Tree.removes_erase d.height v d.tree d.descending,
      toList, List.filter_reverse]
  · rename_i h
    exact (Row.filter_of_not_mem fun hv => h (contains_iff.mpr hv)).symm

/-- Taking a value out leaves all other members. -/
@[simp] theorem mem_erase {d : Domain} {v w : Int} :
    w ∈ d.erase v ↔ w ∈ d ∧ w ≠ v := by
  rw [mem_def, toList_erase, List.mem_filter, bne_iff_ne]
  rfl

/-! ## Walking down -/

/-- The values that the walk down meets. -/
def walk (d : Domain) : List Int := Node.walk d.tree

/-- The first value on the walk down that passes a test. -/
def findDown? (d : Domain) (p : Int → Bool) : Option Int :=
  Node.findWalk? p d.tree

/-- Going down, the search finds the first value on the walk that passes the
test.  The walk need not meet all members. -/
theorem findDown?_eq (d : Domain) (p : Int → Bool) :
    d.findDown? p = d.walk.find? p :=
  LawfulNode.findWalk?_eq p d.tree

/-- The walk down meets only members, in descending order. -/
theorem walk_sublist (d : Domain) : d.walk.Sublist d.toList.reverse := by
  rw [toList, List.reverse_reverse]
  exact LawfulNode.walk_sublist d.tree

/-- The walk down meets only members. -/
theorem mem_of_mem_walk {d : Domain} {v : Int} (h : v ∈ d.walk) : v ∈ d :=
  List.mem_reverse.mp (d.walk_sublist.mem h)

/-- In a tree of at most two levels the walk down meets all members. -/
theorem walk_eq_of_height_le_one {d : Domain} (h : d.height ≤ 1) :
    d.walk = d.toList.reverse := by
  obtain ⟨height, t, ht, hs⟩ := d
  match height, t, ht, hs, h with
  | 0, t, _, _, _ => exact (List.reverse_reverse _).symm
  | 1, t, _, _, _ => exact (List.reverse_reverse _).symm

/-- A domain of fewer than 2047 values has a tree of at most two levels. -/
theorem height_le_one_of_size_lt {d : Domain} (h : d.size < 2047) :
    d.height ≤ 1 := by
  refine Nat.le_of_not_lt fun hhigh => ?_
  have := Tree.le_length_of_stocked d.stocked hhigh
  rw [size, toList, List.length_reverse] at h
  omega

/-- So the walk down meets all its members. -/
theorem walk_eq_of_size_lt {d : Domain} (h : d.size < 2047) :
    d.walk = d.toList.reverse :=
  walk_eq_of_height_le_one (height_le_one_of_size_lt h)

end Domain

/-- The integers from `lower` to `upper`, both included; none if `upper <
lower`. -/
def interval (lower upper : Int) : List Int :=
  (List.range (upper - lower + 1).toNat).map fun k : Nat => lower + k

/-- An interval holds what lies between its bounds, both included. -/
@[simp] theorem mem_interval {v lower upper : Int} :
    v ∈ interval lower upper ↔ lower ≤ v ∧ v ≤ upper := by
  simp only [interval, List.mem_map, List.mem_range]
  constructor
  · rintro ⟨k, hk, rfl⟩
    omega
  · rintro ⟨h1, h2⟩
    exact ⟨(v - lower).toNat, by omega, by omega⟩

end ConstraintNet
