import ConstraintNet.Domain.RowLaws
/-!
# How full nodes are

Every node of a search tree but the root holds at least `half - 1` keys.  An
insertion splits a node only when it has more than enough for two.  Taking a
value out of a subtree begins by giving the subtree a key to spare, from a
neighbour or by merging with one, so that it has enough left afterwards.

`Enough` says that a subtree has so many keys in its root and that all nodes
below hold what they should.  The operations of a row keep this up if the
operations on its subtrees do.

Main facts:

* `Row.stocks` — what moves between neighbours leaves them well stocked inside;
* `Row.grows_insert`, `Row.keeps_erase` — inserting leaves as many keys, taking
  out at most one less.
-/

namespace ConstraintNet.Domain

/-- A subtree with at least `k` keys in its root; `inside` tells that the nodes
below hold what they should. -/
def Enough {α : Type} [Node α] (inside : α → Prop) (k : Nat) (t : α) : Prop :=
  k ≤ Node.size t ∧ inside t

/-- A node again with at least `k` keys, or two with at least `half` keys
each. -/
def Grown.Enough {α : Type} [Node α] (inside : α → Prop) (k : Nat) :
    Grown α → Prop
  | .one t => Domain.Enough inside k t
  | .two upper _ lower =>
      Domain.Enough inside half upper ∧ Domain.Enough inside half lower

/-- What moves between neighbours leaves them well stocked inside. -/
structure Stocks {α : Type} [Node α] (inside : α → Prop) : Prop where
  merge {upper lower : α} (k : Int) (hu : inside upper) (hl : inside lower) :
    inside (Node.merge upper k lower) ∧
      Node.size (Node.merge upper k lower) =
        Node.size upper + Node.size lower + 1
  lend? {upper lower upper' lower' : α} {k k' : Int}
    (h : Node.lend? upper k lower = some (upper', k', lower'))
    (hu : inside upper) (hl : inside lower) :
    inside upper' ∧ inside lower' ∧ Node.size upper' + 1 = Node.size upper ∧
      Node.size lower' = Node.size lower + 1
  borrow? {upper lower upper' lower' : α} {k k' : Int}
    (h : Node.borrow? upper k lower = some (upper', k', lower'))
    (hu : inside upper) (hl : inside lower) :
    inside upper' ∧ inside lower' ∧ Node.size upper' = Node.size upper + 1 ∧
      Node.size lower' + 1 = Node.size lower

/-- An operation that puts a value into a subtree leaves it as many keys. -/
def Grows {α : Type} [Node α] (inside : α → Prop) (insertion : α → Grown α) :
    Prop :=
  ∀ k t, Enough inside k t → (insertion t).Enough inside k

/-- An operation that takes a value out of a subtree leaves it at most one key
less. -/
def Keeps {α : Type} [Node α] (inside : α → Prop) (removal : Int → α → α) :
    Prop :=
  ∀ v k t, Enough inside (k + 1) t → Enough inside k (removal v t)

/-- A subtree that has enough keys for one bound has enough for every lower
one. -/
theorem Enough.mono {α : Type} [Node α] {inside : α → Prop} {j k : Nat} {t : α}
    (h : Enough inside k t) (hjk : j ≤ k) : Enough inside j t :=
  ⟨Nat.le_trans hjk h.1, h.2⟩

/-- A node is split only when it holds more than `capacity` keys, and then
neither half comes out short. -/
theorem length_of_overflow? {β : Type} {l upper lower : List β} {b : β}
    (h : overflow? l = some (upper, b, lower)) :
    half ≤ upper.length ∧ half ≤ lower.length := by
  unfold overflow? at h
  split at h
  · cases h
  · rename_i hlong
    split at h
    · cases h
    · rename_i hd
      cases h
      have hlength := congrArg List.length hd
      simp only [List.length_drop, List.length_cons, capacity, half]
        at hlength hlong ⊢
      rw [List.length_take]
      omega

/-! ## Leaves -/

namespace Leaf

/-- Putting a value in loses nothing: it either goes between two members or was
there before. -/
theorem length_le_insertDescending (v : Int) (l : List Int) :
    l.length ≤ (insertDescending v l).length := by
  induction l with
  | nil => simp [insertDescending]
  | cons a l ih =>
      rw [insertDescending]
      split
      · simp
      · split
        · simp
        · simpa using ih

/-- Taking a value out shortens a list by one at most, since it stops at the
first match. -/
theorem length_le_eraseDescending (v : Int) (l : List Int) :
    l.length ≤ (eraseDescending v l).length + 1 := by
  induction l with
  | nil => simp
  | cons a l ih =>
      rw [eraseDescending]
      split
      · simp
      · simpa using ih

/-- Leaves have nothing below them, so that all there is to show of merging and
moving keys is how many there are. -/
theorem stocks : Stocks (fun _ : Leaf => True) where
  merge {upper lower} k _ _ := by
    refine ⟨trivial, ?_⟩
    simp only [Node.merge, Node.size, List.length_append, List.length_cons]
    omega
  lend? {upper lower upper' lower' k k'} h _ _ := by
    obtain ⟨least, hl, he⟩ := Option.map_eq_some_iff.mp h
    cases he
    obtain ⟨l, hl⟩ := List.getLast?_eq_some_iff.mp hl
    simp [Node.size, hl]
  borrow? {upper lower upper' lower' k k'} h _ _ := by
    change borrow? upper k lower = _ at h
    unfold borrow? at h
    split at h
    · cases h
    · rename_i hl
      cases h
      simp [Node.size, hl]

/-- A leaf that is not split keeps all its keys, and one that is split was over
capacity. -/
theorem grows_insert (v : Int) : Grows (fun _ : Leaf => True) (insert · v) := by
  intro k t ht
  have hle : t.keys.length ≤ (insertDescending v t.keys).length :=
    length_le_insertDescending v _
  simp only [insert]
  split
  · exact ⟨Nat.le_trans ht.1 hle, trivial⟩
  · rename_i h
    obtain ⟨hu, hl⟩ := length_of_overflow? h
    exact ⟨⟨hu, trivial⟩, ⟨hl, trivial⟩⟩

/-- A leaf loses the key that was asked for, or nothing. -/
theorem keeps_erase : Keeps (fun _ : Leaf => True) (fun v t => erase t v) := by
  intro v k t ht
  have hle : t.keys.length ≤ (eraseDescending v t.keys).length + 1 :=
    length_le_eraseDescending v _
  refine ⟨?_, trivial⟩
  have hk : k + 1 ≤ t.keys.length := ht.1
  show k ≤ (eraseDescending v t.keys).length
  omega

end Leaf

/-! ## Rows -/

namespace Row

variable {α : Type} [Node α] {inside : α → Prop}

/-- The subtrees of a row hold what they should. -/
def Inside (inside : α → Prop) (r : Row α) : Prop :=
  Enough inside (half - 1) r.top ∧ ∀ p ∈ r.rest, Enough inside (half - 1) p.2

/-! ### Inserting -/

variable {insertion : α → Grown α}

/-- What an insertion made of one subtree takes its place among the rest.  A
split puts one more key and one more subtree into the row, and both halves hold
what they should. -/
theorem mem_restOfGrown {k : Int} {rest : List (Int × α)} {g : Grown α}
    (hg : g.Enough inside (half - 1))
    (hrest : ∀ p ∈ rest, Enough inside (half - 1) p.2) :
    (∀ p ∈ restOfGrown k rest g, Enough inside (half - 1) p.2) ∧
      rest.length + 1 ≤ (restOfGrown k rest g).length := by
  cases g with
  | one t =>
      refine ⟨fun p hp => ?_, Nat.le_refl _⟩
      rcases List.mem_cons.mp hp with rfl | hp
      · exact hg
      · exact hrest p hp
  | two upper key lower =>
      refine ⟨fun p hp => ?_, by simp [restOfGrown]⟩
      rcases List.mem_cons.mp hp with rfl | hp
      · exact hg.1.mono (Nat.sub_le _ _)
      · rcases List.mem_cons.mp hp with rfl | hp
        · exact hg.2.mono (Nat.sub_le _ _)
        · exact hrest p hp

/-- Below a pair a value is put into one subtree only.  The walk to it passes
subtrees that are well stocked already and leaves them as they are. -/
theorem mem_placeBelow (hf : Grows inside insertion) {v : Int} {p : Int × α}
    {rest : List (Int × α)} (hp : Enough inside (half - 1) p.2)
    (hrest : ∀ q ∈ rest, Enough inside (half - 1) q.2) :
    (∀ q ∈ placeBelow insertion v p rest, Enough inside (half - 1) q.2) ∧
      rest.length + 1 ≤ (placeBelow insertion v p rest).length := by
  induction rest generalizing p with
  | nil => exact mem_restOfGrown (hf _ _ hp) hrest
  | cons q rest ih =>
      have hq : Enough inside (half - 1) q.2 := hrest q List.mem_cons_self
      rw [placeBelow]
      split
      · exact mem_restOfGrown (hf _ _ hp) hrest
      · split
        · refine ⟨fun r hr => ?_, by simp⟩
          rcases List.mem_cons.mp hr with rfl | hr
          · exact hp
          · exact hrest r hr
        · obtain ⟨hall, hlength⟩ :=
            ih hq fun r hr => hrest r (List.mem_cons_of_mem q hr)
          refine ⟨fun r hr => ?_, by simpa using hlength⟩
          rcases List.mem_cons.mp hr with rfl | hr
          · exact hp
          · exact hall r hr

/-- The same of the topmost subtree, which has no key above it. -/
theorem enough_ofGrown {rest : List (Int × α)} {g : Grown α}
    (hg : g.Enough inside (half - 1))
    (hrest : ∀ p ∈ rest, Enough inside (half - 1) p.2) :
    Enough (Inside inside) rest.length (ofGrown rest g) := by
  cases g with
  | one t => exact ⟨Nat.le_refl _, hg, hrest⟩
  | two upper key lower =>
      refine ⟨Nat.le_succ _, hg.1.mono (Nat.sub_le _ _), fun p hp => ?_⟩
      rcases List.mem_cons.mp hp with rfl | hp
      · exact hg.2.mono (Nat.sub_le _ _)
      · exact hrest p hp

/-- Whichever subtree of a row a value is put into, the row has as many keys as
before and its subtrees hold what they should. -/
theorem enough_place (hf : Grows inside insertion) (v : Int) {k : Nat}
    {r : Row α} (h : Enough (Inside inside) k r) :
    Enough (Inside inside) k (place insertion v r) := by
  obtain ⟨top, rest⟩ := r
  obtain ⟨hk, htop, hrest⟩ := h
  change k ≤ rest.length at hk
  cases rest with
  | nil => exact (enough_ofGrown (hf _ _ htop) hrest).mono hk
  | cons p rest =>
      simp only [place]
      split
      · exact (enough_ofGrown (hf _ _ htop) hrest).mono hk
      · split
        · exact ⟨hk, htop, hrest⟩
        · obtain ⟨hall, hlength⟩ :=
            mem_placeBelow hf (v := v) (hrest p List.mem_cons_self)
              fun q hq => hrest q (List.mem_cons_of_mem p hq)
          exact ⟨Nat.le_trans hk hlength, htop, hall⟩

/-- A row is split between its subtrees, each of which goes to one of the halves
as it is. -/
theorem enough_split {k : Nat} {r : Row α} (h : Enough (Inside inside) k r) :
    r.split.Enough (Inside inside) k := by
  unfold split
  split
  · exact h
  · rename_i upper key t lower hover
    obtain ⟨hupper, hlower⟩ := length_of_overflow? hover
    have hrest : r.rest = upper ++ (key, t) :: lower := eq_of_overflow? hover
    have hmem := h.2.2
    rw [hrest] at hmem
    refine ⟨⟨hupper, h.2.1, fun p hp => hmem p (by simp [hp])⟩, hlower, ?_,
      fun p hp => ?_⟩
    · exact hmem (key, t) (by simp)
    · exact hmem p (by simp [hp])

/-- Inserting into a row puts the value into a subtree and then splits the row
if that made it too long. -/
theorem grows_insert (hf : Grows inside insertion) (v : Int) :
    Grows (Inside inside) (insert insertion v) :=
  fun _ _ h => enough_split (enough_place hf v h)

/-! ### Moving between neighbours -/

/-- Rows hand over whole subtrees along with a key, and every subtree that is
handed over holds what it should. -/
theorem stocks : Stocks (Inside inside) where
  merge {upper lower} k hu hl := by
    change Inside inside (merge upper k lower) ∧
      (merge upper k lower).rest.length =
        upper.rest.length + lower.rest.length + 1
    refine ⟨⟨hu.1, fun p hp => ?_⟩, ?_⟩
    · rcases List.mem_append.mp hp with hp | hp
      · exact hu.2 p hp
      · rcases List.mem_cons.mp hp with rfl | hp
        · exact hl.1
        · exact hl.2 p hp
    · simp only [merge, List.length_append, List.length_cons]
      omega
  lend? {upper lower upper' lower' k k'} h hu hl := by
    obtain ⟨p, hp, he⟩ := Option.map_eq_some_iff.mp h
    cases he
    obtain ⟨l, hlist⟩ := List.getLast?_eq_some_iff.mp hp
    have hmem : ∀ q ∈ l ++ [p], Enough inside (half - 1) q.2 := hlist ▸ hu.2
    refine ⟨⟨hu.1, fun q hq => ?_⟩, ⟨hmem p (by simp), fun q hq => ?_⟩, ?_, ?_⟩
    · rw [hlist, List.dropLast_concat] at hq
      exact hmem q (by simp [hq])
    · rcases List.mem_cons.mp hq with rfl | hq
      · exact hl.1
      · exact hl.2 q hq
    · simp [Node.size, hlist]
    · simp [Node.size]
  borrow? {upper lower upper' lower' k k'} h hu hl := by
    change borrow? upper k lower = _ at h
    unfold borrow? at h
    split at h
    · cases h
    · rename_i hlist
      cases h
      have hmem := hl.2
      rw [hlist] at hmem
      refine ⟨⟨hu.1, fun q hq => ?_⟩,
        ⟨hmem _ List.mem_cons_self, fun q hq => ?_⟩, ?_, ?_⟩
      · rcases List.mem_append.mp hq with hq | hq
        · exact hu.2 q hq
        · rw [List.mem_singleton.mp hq]
          exact hl.1
      · exact hmem q (List.mem_cons_of_mem _ hq)
      · simp [Node.size]
      · simp [Node.size, hlist]

/-! ### Taking out -/

/-- The subtrees around a spot hold what they should, and so does the one at the
spot. -/
structure SpotInside (inside : α → Prop) (s : Spot α) : Prop where
  above : ∀ p ∈ s.above, Enough inside (half - 1) p.1
  here : Enough inside (half - 1) s.here
  below : ∀ p ∈ s.below, Enough inside (half - 1) p.2

omit [Node α] in
/-- The number of keys around a spot. -/
def keysAround (s : Spot α) : Nat := s.above.length + s.below.length

/-- A row that is put together around a spot has all the keys around the
spot. -/
theorem enough_rebuild {here : α} {below : List (Int × α)}
    {above : List (α × Int)} (h : SpotInside inside ⟨above, here, below⟩) :
    Enough (Inside inside) (above.length + below.length)
      (rebuild here below above) := by
  induction above generalizing here below with
  | nil => exact ⟨Nat.le_of_eq (Nat.zero_add _), h.here, h.below⟩
  | cons p above ih =>
      obtain ⟨t, k⟩ := p
      have hrec : SpotInside inside ⟨above, t, (k, here) :: below⟩ := by
        refine ⟨fun q hq => h.above q (List.mem_cons_of_mem _ hq),
          h.above (t, k) List.mem_cons_self, fun q hq => ?_⟩
        rcases List.mem_cons.mp hq with rfl | hq
        · exact h.here
        · exact h.below q hq
      refine (ih hrec).mono ?_
      simp only [List.length_cons]
      omega

/-- Looking for a spot walks along the row and drops nothing on the way. -/
theorem spotInside_locate (v : Int) {above : List (α × Int)} {top : α}
    {rest : List (Int × α)} (h : SpotInside inside ⟨above, top, rest⟩) :
    SpotInside inside (locate v above top rest) ∧
      keysAround (locate v above top rest) = above.length + rest.length := by
  induction rest generalizing above top with
  | nil => exact ⟨h, rfl⟩
  | cons p rest ih =>
      obtain ⟨k, t⟩ := p
      rw [locate]
      split
      · exact ⟨h, rfl⟩
      · have hrec : SpotInside inside ⟨(top, k) :: above, t, rest⟩ := by
          refine ⟨fun q hq => ?_, h.below (k, t) List.mem_cons_self,
            fun q hq => h.below q (List.mem_cons_of_mem _ hq)⟩
          rcases List.mem_cons.mp hq with rfl | hq
          · exact h.here
          · exact h.above q hq
        obtain ⟨hs, hkeys⟩ := ih hrec
        refine ⟨hs, hkeys.trans ?_⟩
        simp only [List.length_cons]
        omega

variable (hstocks : Stocks inside)

/-- One spot came of another by giving its subtree keys to spare. -/
structure Filled (inside : α → Prop) (s u : Spot α) : Prop where
  spot : SpotInside inside u
  spare : half ≤ Node.size u.here
  keys : keysAround s ≤ keysAround u + 1

include hstocks

/-- Taking a key from the subtree below leaves that one `half - 1` keys at
least, because it had one to spare. -/
theorem filled_fromBelow? {s u : Spot α} (hs : SpotInside inside s)
    (h : fromBelow? s = some u) : Filled inside s u := by
  unfold fromBelow? at h
  split at h
  · cases h
  · rename_i k t below hbelow
    split at h
    · rename_i hspare
      obtain ⟨⟨here', k', t'⟩, hp, rfl⟩ := Option.map_eq_some_iff.mp h
      have hmem : ∀ p ∈ (k, t) :: below, Enough inside (half - 1) p.2 :=
        hbelow ▸ hs.below
      obtain ⟨hhere, ht, hsize, hsize'⟩ :=
        hstocks.borrow? hp hs.here.2 (hmem _ List.mem_cons_self).2
      have hle := hs.here.1
      simp only [half] at hle hspare
      refine ⟨⟨hs.above, ⟨?_, hhere⟩, fun q hq => ?_⟩, ?_, ?_⟩
      · simp only [half]
        omega
      · rcases List.mem_cons.mp hq with rfl | hq
        · refine ⟨?_, ht⟩
          simp only [half]
          omega
        · exact hmem q (List.mem_cons_of_mem _ hq)
      · simp only [half]
        omega
      · simp [keysAround, hbelow]
    · cases h

/-- Taking a key from the subtree above leaves that one enough for the same
reason. -/
theorem filled_fromAbove? {s u : Spot α} (hs : SpotInside inside s)
    (h : fromAbove? s = some u) : Filled inside s u := by
  unfold fromAbove? at h
  split at h
  · cases h
  · rename_i t k above habove
    split at h
    · rename_i hspare
      obtain ⟨⟨t', k', here'⟩, hp, rfl⟩ := Option.map_eq_some_iff.mp h
      have hmem : ∀ p ∈ (t, k) :: above, Enough inside (half - 1) p.1 :=
        habove ▸ hs.above
      obtain ⟨ht, hhere, hsize', hsize⟩ :=
        hstocks.lend? hp (hmem _ List.mem_cons_self).2 hs.here.2
      have hle := hs.here.1
      simp only [half] at hle hspare
      refine ⟨⟨fun q hq => ?_, ⟨?_, hhere⟩, hs.below⟩, ?_, ?_⟩
      · rcases List.mem_cons.mp hq with rfl | hq
        · refine ⟨?_, ht⟩
          simp only [half]
          omega
        · exact hmem q (List.mem_cons_of_mem _ hq)
      · simp only [half]
        omega
      · simp only [half]
        omega
      · simp [keysAround, habove]
    · cases h

/-- Merging with the subtree above adds up the keys of both and the one between
them, so that there are more than `half`. -/
theorem filled_withAbove? {s u : Spot α} (hs : SpotInside inside s)
    (h : withAbove? s = some u) : Filled inside s u := by
  unfold withAbove? at h
  split at h
  · cases h
  · rename_i t k above habove
    cases h
    have hmem : ∀ p ∈ (t, k) :: above, Enough inside (half - 1) p.1 :=
      habove ▸ hs.above
    have ht : Enough inside (half - 1) t := hmem _ List.mem_cons_self
    obtain ⟨hhere, hsize⟩ := hstocks.merge k ht.2 hs.here.2
    have hle := hs.here.1
    have hle' := ht.1
    simp only [half] at hle hle'
    refine ⟨⟨fun q hq => hmem q (List.mem_cons_of_mem _ hq), ⟨?_, hhere⟩,
      hs.below⟩, ?_, ?_⟩
    · simp only [half]
      omega
    · simp only [half]
      omega
    · simp only [keysAround, habove, List.length_cons]
      omega

/-- Merging with the subtree below does the same. -/
theorem filled_withBelow? {s u : Spot α} (hs : SpotInside inside s)
    (h : withBelow? s = some u) : Filled inside s u := by
  unfold withBelow? at h
  split at h
  · cases h
  · rename_i k t below hbelow
    cases h
    have hmem : ∀ p ∈ (k, t) :: below, Enough inside (half - 1) p.2 :=
      hbelow ▸ hs.below
    have ht : Enough inside (half - 1) t := hmem _ List.mem_cons_self
    obtain ⟨hhere, hsize⟩ := hstocks.merge k hs.here.2 ht.2
    have hle := hs.here.1
    have hle' := ht.1
    simp only [half] at hle hle'
    refine ⟨⟨hs.above, ⟨?_, hhere⟩,
      fun q hq => hmem q (List.mem_cons_of_mem _ hq)⟩, ?_, ?_⟩
    · simp only [half]
      omega
    · simp only [half]
      omega
    · simp only [keysAround, hbelow, List.length_cons]
      omega

/-- **A subtree that has a neighbour gets keys to spare.** -/
theorem filled_fill {s : Spot α} (hs : SpotInside inside s)
    (hkeys : 0 < keysAround s) : Filled inside s (fill s) := by
  unfold fill
  split
  · rename_i hspare
    exact ⟨hs, hspare, Nat.le_succ _⟩
  · cases h1 : fromBelow? s with
    | some u => exact filled_fromBelow? hstocks hs h1
    | none =>
      cases h2 : fromAbove? s with
      | some u => exact filled_fromAbove? hstocks hs h2
      | none =>
        cases h3 : withAbove? s with
        | some u => exact filled_withAbove? hstocks hs h3
        | none =>
          cases h4 : withBelow? s with
          | some u => exact filled_withBelow? hstocks hs h4
          | none =>
            exfalso
            obtain ⟨above, here, below⟩ := s
            cases above with
            | cons p above => cases h3
            | nil =>
                cases below with
                | cons p below => cases h4
                | nil => exact Nat.lt_irrefl 0 hkeys

variable {removal : Int → α → α} (hf : Keeps inside removal)

include hf

omit hstocks in
/-- Once the subtree at a spot has keys to spare, taking one out of it leaves
the row in order. -/
theorem enough_rebuild_removed (v : Int) {s : Spot α} (hs : SpotInside inside s)
    (hspare : half ≤ Node.size s.here) :
    Enough (Inside inside) (keysAround s)
      (rebuild (removal v s.here) s.below s.above) := by
  refine enough_rebuild ⟨hs.above,
    hf v (half - 1) s.here ⟨?_, hs.here.2⟩, hs.below⟩
  simpa only [half] using hspare

/-- A row gives up one key at most for taking a value out of a subtree: the one
that a merger takes down. -/
theorem enough_eraseHere (v : Int) {s : Spot α} (hs : SpotInside inside s)
    (hkeys : 0 < keysAround s) :
    Enough (Inside inside) (keysAround s - 1) (eraseHere removal v s) := by
  obtain ⟨hspot, hspare, hle⟩ := filled_fill hstocks hs hkeys
  exact (enough_rebuild_removed hf v hspot hspare).mono (by omega)

/-- A key of a row is replaced by one from a neighbouring subtree that can spare
it, or merged into both its neighbours.  In either case the row is short of one
key at most. -/
theorem enough_eraseKey (v : Int) {above : List (α × Int)} {here t : α}
    {below : List (Int × α)}
    (hs : SpotInside inside ⟨above, here, (v, t) :: below⟩) :
    Enough (Inside inside) (above.length + below.length)
      (eraseKey removal v above here t below) := by
  have habove : ∀ p ∈ above, Enough inside (half - 1) p.1 := hs.above
  have hhere : Enough inside (half - 1) here := hs.here
  have ht : Enough inside (half - 1) t := hs.below (v, t) List.mem_cons_self
  have hbelow : ∀ p ∈ below, Enough inside (half - 1) p.2 := fun p hp =>
    hs.below p (List.mem_cons_of_mem _ hp)
  unfold eraseKey
  split
  · rename_i k hk
    have hspare : half ≤ Node.size t := by
      split at hk
      · assumption
      · cases hk
    have hspot :
        SpotInside inside ⟨above, here, (k, removal k t) :: below⟩ := by
      refine ⟨habove, hhere, fun p hp => ?_⟩
      rcases List.mem_cons.mp hp with rfl | hp
      · exact hf k (half - 1) t ⟨by simpa only [half] using hspare, ht.2⟩
      · exact hbelow p hp
    exact (enough_rebuild hspot).mono (Nat.add_le_add_left (Nat.le_succ _) _)
  · split
    · rename_i k hk
      have hspare : half ≤ Node.size here := by
        split at hk
        · assumption
        · cases hk
      have hspot :
          SpotInside inside ⟨above, removal k here, (k, t) :: below⟩ := by
        refine ⟨habove, ?_, fun p hp => ?_⟩
        · exact hf k (half - 1) here
            ⟨by simpa only [half] using hspare, hhere.2⟩
        · rcases List.mem_cons.mp hp with rfl | hp
          · exact ht
          · exact hbelow p hp
      exact (enough_rebuild hspot).mono (Nat.add_le_add_left (Nat.le_succ _) _)
    · obtain ⟨hmerged, hsize⟩ := hstocks.merge v hhere.2 ht.2
      have hle := hhere.1
      have hle' := ht.1
      have hspot :
          SpotInside inside ⟨above, removal v (Node.merge here v t),
            below⟩ := by
        refine ⟨habove, hf v (half - 1) _ ⟨?_, hmerged⟩, hbelow⟩
        simp only [half] at hle hle' ⊢
        omega
      exact enough_rebuild hspot

/-- Both cases together: the value is a key of the row, or it is in a
subtree. -/
theorem enough_eraseAt (v : Int) {s : Spot α} (hs : SpotInside inside s)
    (hkeys : 0 < keysAround s) :
    Enough (Inside inside) (keysAround s - 1) (eraseAt removal v s) := by
  unfold eraseAt
  split
  · exact enough_eraseHere hstocks hf v hs hkeys
  · rename_i k t below hbelow
    split
    · rename_i hk
      subst hk
      obtain ⟨above, here, _⟩ := s
      cases hbelow
      exact (enough_eraseKey hstocks hf k hs).mono (by simp [keysAround])
    · exact enough_eraseHere hstocks hf v hs hkeys

omit hstocks in
/-- Where the subtree has keys to spare, the row itself does not change; only
that subtree gets shorter. -/
theorem mem_eraseBelow {size : α → Nat} (hsize : ∀ t, size t = Node.size t)
    {v : Int} {p : Int × α} {rest : List (Int × α)}
    (hspares : spares size v p.2 rest) (hp : Enough inside (half - 1) p.2)
    (hrest : ∀ q ∈ rest, Enough inside (half - 1) q.2) :
    (∀ q ∈ eraseBelow removal v p rest, Enough inside (half - 1) q.2) ∧
      (eraseBelow removal v p rest).length = rest.length + 1 := by
  have hremoved : half ≤ size p.2 →
      Enough inside (half - 1) (removal v p.2) := fun h =>
    hf v (half - 1) p.2 ⟨by simpa only [half, hsize] using h, hp.2⟩
  induction rest generalizing p with
  | nil =>
      simp only [spares, decide_eq_true_eq] at hspares
      refine ⟨fun q hq => ?_, rfl⟩
      rw [eraseBelow, List.mem_singleton] at hq
      rw [hq]
      exact hremoved hspares
  | cons q rest ih =>
      have hq : Enough inside (half - 1) q.2 := hrest q List.mem_cons_self
      have hrest' : ∀ r ∈ rest, Enough inside (half - 1) r.2 := fun r hr =>
        hrest r (List.mem_cons_of_mem q hr)
      rw [spares] at hspares
      rw [eraseBelow]
      split
      · rename_i hlt
        rw [if_pos hlt, decide_eq_true_eq] at hspares
        refine ⟨fun r hr => ?_, rfl⟩
        rcases List.mem_cons.mp hr with rfl | hr
        · exact hremoved hspares
        · exact hrest r hr
      · rename_i hlt
        rw [if_neg hlt] at hspares
        split at hspares
        · cases hspares
        · obtain ⟨hall, hlength⟩ := ih hspares hq hrest' fun h =>
            hf v (half - 1) q.2 ⟨by simpa only [half, hsize] using h, hq.2⟩
          refine ⟨fun r hr =>
            ?_, by rw [List.length_cons, List.length_cons, hlength]⟩
          rcases List.mem_cons.mp hr with rfl | hr
          · exact hp
          · exact hall r hr

omit hstocks in
/-- The same of a whole row: taking out of a subtree that can spare a key leaves
the row all its keys. -/
theorem enough_eraseInside {size : α → Nat} (hsize : ∀ t, size t = Node.size t)
    {v : Int} {k : Nat} {r : Row α} (h : Enough (Inside inside) k r)
    (hspares : spares size v r.top r.rest) :
    Enough (Inside inside) k (eraseInside removal v r) := by
  obtain ⟨top, rest⟩ := r
  obtain ⟨hk, htop, hrest⟩ := h
  have hremoved : half ≤ size top →
      Enough inside (half - 1) (removal v top) := fun h =>
    hf v (half - 1) top ⟨by simpa only [half, hsize] using h, htop.2⟩
  cases rest with
  | nil =>
      simp only [spares, decide_eq_true_eq] at hspares
      exact ⟨hk, hremoved hspares, hrest⟩
  | cons p rest =>
      simp only [spares] at hspares
      simp only [eraseInside]
      split
      · rename_i hlt
        rw [if_pos hlt, decide_eq_true_eq] at hspares
        exact ⟨hk, hremoved hspares, hrest⟩
      · rename_i hlt
        rw [if_neg hlt] at hspares
        split at hspares
        · cases hspares
        · obtain ⟨hall, hlength⟩ := mem_eraseBelow hf hsize hspares
            (hrest p List.mem_cons_self) fun q hq =>
              hrest q (List.mem_cons_of_mem p hq)
          refine ⟨?_, htop, hall⟩
          change k ≤ (eraseBelow removal v p rest).length
          rw [hlength]
          exact hk

/-- **Taking a value out leaves a row at most one key less.** -/
theorem keeps_erase {size : α → Nat} (hsize : ∀ t, size t = Node.size t) :
    Keeps (Inside inside) (erase size removal) := by
  intro v k r h
  unfold erase
  split
  · rename_i hspares
    exact (enough_eraseInside hf hsize h hspares).mono (Nat.le_succ k)
  · have hspot : SpotInside inside ⟨[], r.top, r.rest⟩ :=
      ⟨by simp, h.2.1, h.2.2⟩
    obtain ⟨hs, hkeys⟩ := spotInside_locate v hspot
    have hk : k + 1 ≤ r.rest.length := h.1
    simp only [List.length_nil] at hkeys
    exact (enough_eraseAt hstocks hf v hs (by omega)).mono (by omega)

end Row

end ConstraintNet.Domain
