import ConstraintNet.Domain.Row
/-!
# The laws of rows

A row of lawful nodes is lawful.  Inserting and taking out act on the values of
a row, from the greatest down, as on a descending list; whatever moves between
neighbouring subtrees to make room stays in its order.

Main facts:

* `Row.lawful` — the operations of a row act on its values as they should;
* `containsIn_iff`, `down_insert`, `down_erase` — so do looking up, inserting
  and taking out, if they do in the subtrees;
* `down_rebuild`, `down_locate` — a spot shows the same values as its row;
* `fill_fills` — giving a subtree keys to spare moves no value past another.
-/

namespace ConstraintNet.Domain.Row

variable {α : Type} [Node α]

@[simp] theorem downRest_nil : downRest ([] : List (Int × α)) = [] := rfl

/-- A key comes before the values of the subtree next below it. -/
@[simp] theorem downRest_cons (p : Int × α) (l : List (Int × α)) :
    downRest (p :: l) = p.1 :: (Node.down p.2 ++ downRest l) := rfl

/-- Pairs that stand further up come first. -/
@[simp] theorem downRest_append (l m : List (Int × α)) :
    downRest (l ++ m) = downRest l ++ downRest m := List.flatMap_append

/-- A row made from what became of the topmost subtree shows its values before
those of the rest. -/
theorem down_ofGrown (rest : List (Int × α)) (g : Grown α) :
    (ofGrown rest g).down = g.down ++ downRest rest := by
  cases g <;> simp [ofGrown, down, Grown.down]

/-- The same below a key: what became of the subtree next below it shows between
the key and the rest. -/
theorem downRest_restOfGrown (k : Int) (rest : List (Int × α)) (g : Grown α) :
    downRest (restOfGrown k rest g) = k :: (g.down ++ downRest rest) := by
  cases g <;> simp [restOfGrown, Grown.down]

/-- Splitting a row moves no value past another; the key in the middle goes up
between the halves. -/
theorem down_split (r : Row α) : r.split.down = r.down := by
  unfold split
  split
  · rfl
  · rename_i h
    have := eq_of_overflow? h
    simp [Grown.down, Node.down, down, this]

/-- A row that is put together around a spot shows what stands above the spot,
then the spot, then what stands below. -/
theorem down_rebuild (here : α) (below : List (Int × α))
    (above : List (α × Int)) :
    (rebuild here below above).down =
      downAbove above ++ (Node.down here ++ downRest below) := by
  induction above generalizing here below with
  | nil => rfl
  | cons p above ih =>
      rw [rebuild, ih]
      simp [downAbove]

/-- The values that a spot shows. -/
def downSpot (s : Spot α) : List Int :=
  downAbove s.above ++ (Node.down s.here ++ downRest s.below)

/-- Looking for a spot only turns pairs over, so that the spot shows what the
row showed. -/
theorem down_locate (v : Int) (above : List (α × Int)) (top : α)
    (rest : List (Int × α)) :
    downSpot (locate v above top rest) =
      downAbove above ++ (Node.down top ++ downRest rest) := by
  induction rest generalizing above top with
  | nil => rfl
  | cons p rest ih =>
      rw [locate]
      split
      · rfl
      · rw [ih]
        simp [downAbove]

/-- What stands above a spot is greater than the value sought. -/
theorem lt_of_mem_above_locate {v : Int} {above : List (α × Int)} {top : α}
    {rest : List (Int × α)} (ha : ∀ x ∈ downAbove above, v < x)
    (hd : Descending (Node.down top ++ downRest rest)) :
    ∀ x ∈ downAbove (locate v above top rest).above, v < x := by
  induction rest generalizing above top with
  | nil => exact ha
  | cons p rest ih =>
      rw [locate]
      split
      · exact ha
      · rename_i hk
        obtain ⟨h1, h2, h3⟩ := List.pairwise_append.mp hd
        refine ih (fun x hx => ?_) (List.pairwise_cons.mp h2).2
        rcases List.mem_append.mp hx with hx | hx
        · exact ha x hx
        · rcases List.mem_append.mp hx with hx | hx
          · have := h3 x hx p.1 (by simp)
            omega
          · rw [List.mem_singleton.mp hx]
            omega

omit [Node α] in
/-- The key next below a spot is not greater than the value sought. -/
theorem le_of_below_locate {v k : Int} {t : α} {above : List (α × Int)}
    {top : α} {rest below : List (Int × α)}
    (h : (locate v above top rest).below = (k, t) :: below) : k ≤ v := by
  induction rest generalizing above top with
  | nil => cases h
  | cons p rest ih =>
      rw [locate] at h
      split at h
      · rename_i hk
        cases h
        exact hk
      · exact ih h

/-- An operation tells whether `v` is in a subtree. -/
def Tells (inside : α → Bool) (v : Int) : Prop :=
  ∀ t, Descending (Node.down t) → (inside t ↔ v ∈ Node.down t)

/-- An operation puts `v` in its place in a subtree. -/
def Inserts (insertion : α → Grown α) (v : Int) : Prop :=
  ∀ t, Descending (Node.down t) →
    (insertion t).down = insertDescending v (Node.down t)

/-- An operation takes values out of subtrees. -/
def Removes (removal : Int → α → α) : Prop :=
  ∀ v t, Descending (Node.down t) →
    Node.down (removal v t) = (Node.down t).filter (· != v)

/-- One spot shows the same values as another, and no other values around it. -/
structure Fills (s u : Spot α) : Prop where
  down_eq : downSpot u = downSpot s
  above_subset : downAbove u.above ⊆ downAbove s.above
  below_subset : downRest u.below ⊆ downRest s.below

variable [LawfulNode α]

/-- Taking a key from the subtree below moves that key up and the one between
the subtrees down. -/
theorem fromBelow?_fills {s u : Spot α} (h : fromBelow? s = some u) :
    Fills s u := by
  unfold fromBelow? at h
  split at h
  · cases h
  · rename_i k t below hs
    split at h
    · obtain ⟨p, hp, rfl⟩ := Option.map_eq_some_iff.mp h
      obtain ⟨m, h1, h2⟩ := LawfulNode.down_borrow? hp
      refine ⟨?_, fun x hx => hx, fun x hx => ?_⟩
      · simp [downSpot, hs, h1, h2]
      · rw [hs]
        simp only [downRest_cons, h2, List.mem_cons, List.mem_append] at hx ⊢
        rcases hx with hx | hx | hx <;> simp [hx]
    · cases h

/-- Taking a key from the subtree above does the same the other way round. -/
theorem fromAbove?_fills {s u : Spot α} (h : fromAbove? s = some u) :
    Fills s u := by
  unfold fromAbove? at h
  split at h
  · cases h
  · rename_i t k above hs
    split at h
    · obtain ⟨p, hp, rfl⟩ := Option.map_eq_some_iff.mp h
      obtain ⟨m, h1, h2⟩ := LawfulNode.down_lend? hp
      refine ⟨?_, fun x hx => ?_, fun x hx => hx⟩
      · simp [downSpot, downAbove, hs, h1, h2]
      · rw [hs]
        simp only [downAbove, h1, List.mem_cons, List.mem_append,
          List.not_mem_nil] at hx ⊢
        rcases hx with hx | hx | hx | hx
        · simp [hx]
        · simp [hx]
        · simp [hx]
        · exact absurd hx (by simp)
    · cases h

/-- Merging with the subtree above takes the key between the two down between
their values. -/
theorem withAbove?_fills {s u : Spot α} (h : withAbove? s = some u) :
    Fills s u := by
  unfold withAbove? at h
  split at h
  · cases h
  · rename_i t k above hs
    cases h
    refine ⟨?_, fun x hx => ?_, fun x hx => hx⟩
    · simp [downSpot, downAbove, hs, LawfulNode.down_merge]
    · rw [hs]
      exact List.mem_append_left _ hx

/-- Merging with the subtree below does the same. -/
theorem withBelow?_fills {s u : Spot α} (h : withBelow? s = some u) :
    Fills s u := by
  unfold withBelow? at h
  split at h
  · cases h
  · rename_i k t below hs
    cases h
    refine ⟨?_, fun x hx => hx, fun x hx => ?_⟩
    · simp [downSpot, hs, LawfulNode.down_merge]
    · rw [hs]
      exact List.mem_cons_of_mem _ (List.mem_append_right _ hx)

/-- Giving a subtree keys to spare moves no value past another. -/
theorem fill_fills (s : Spot α) : Fills s (fill s) := by
  unfold fill
  split
  · exact ⟨rfl, fun _ h => h, fun _ h => h⟩
  · cases h1 : fromBelow? s with
    | some u => exact fromBelow?_fills h1
    | none =>
      cases h2 : fromAbove? s with
      | some u => exact fromAbove?_fills h2
      | none =>
        cases h3 : withAbove? s with
        | some u => exact withAbove?_fills h3
        | none =>
          cases h4 : withBelow? s with
          | some u => exact withBelow?_fills h4
          | none => exact ⟨rfl, fun _ h => h, fun _ h => h⟩

omit [Node α] [LawfulNode α] in
/-- A list keeps all its members when what is taken out is not among them. -/
theorem filter_of_not_mem {v : Int} {l : List Int} (h : v ∉ l) :
    l.filter (· != v) = l :=
  List.filter_eq_self.mpr fun x hx => by
    simp only [bne_iff_ne, ne_eq]
    exact fun he => h (he ▸ hx)

variable {removal : Int → α → α}

/-- The subtree at the spot is where the value is, if it is anywhere; so taking
it out there takes it out of the row.  Keys are moved first, and none of this
concerns the value. -/
theorem down_eraseHere (hf : Removes removal) {v : Int} {s : Spot α}
    (hd : Descending (downSpot s)) (ha : ∀ x ∈ downAbove s.above, v < x)
    (hb : ∀ x ∈ downRest s.below, x < v) :
    (eraseHere removal v s).down = (downSpot s).filter (· != v) := by
  obtain ⟨h1, h2, h3⟩ := fill_fills s
  have hh : Descending (Node.down (fill s).here) := by
    rw [← h1] at hd
    exact (List.pairwise_append.mp (List.pairwise_append.mp hd).2.1).1
  have hav : v ∉ downAbove (fill s).above := fun h => by
    have := ha v (h2 h)
    omega
  have hbv : v ∉ downRest (fill s).below := fun h => by
    have := hb v (h3 h)
    omega
  rw [eraseHere, down_rebuild, hf v _ hh, ← h1]
  simp only [downSpot, List.filter_append, filter_of_not_mem hav,
    filter_of_not_mem hbv]

/-- A key that is taken out is replaced by its neighbour in one of the subtrees,
which is taken out of that subtree.  If neither can spare one, the key goes down
between the merged subtrees and is taken out there. -/
theorem down_eraseKey (hf : Removes removal) {v : Int} {above : List (α × Int)}
    {here t : α} {below : List (Int × α)}
    (hd : Descending (downSpot ⟨above, here, (v, t) :: below⟩)) :
    (eraseKey removal v above here t below).down =
      (downSpot ⟨above, here, (v, t) :: below⟩).filter (· != v) := by
  simp only [downSpot, downRest_cons] at hd ⊢
  obtain ⟨-, hd', had⟩ := List.pairwise_append.mp hd
  obtain ⟨hh, hvd, hhv⟩ := List.pairwise_append.mp hd'
  obtain ⟨hv, htb⟩ := List.pairwise_cons.mp hvd
  have ht := (List.pairwise_append.mp htb).1
  have hav : v ∉ downAbove above := fun h => by
    have := had v h v (by simp)
    omega
  have hhv : v ∉ Node.down here := fun h => by
    have := hhv v h v (by simp)
    omega
  have htv : v ∉ Node.down t := fun h => by
    have := hv v (List.mem_append_left _ h)
    omega
  have hbv : v ∉ downRest below := fun h => by
    have := hv v (List.mem_append_right _ h)
    omega
  have hgoal :
      (downAbove above ++
        (Node.down here ++ v :: (Node.down t ++ downRest below))).filter
      (· != v) = downAbove above ++
        (Node.down here ++ (Node.down t ++ downRest below)) := by
    simp [List.filter_append, filter_of_not_mem, hav, hhv, htv, hbv]
  rw [hgoal]
  unfold eraseKey
  split
  · rename_i k hk
    have hk : (Node.down t).head? = some k := by
      split at hk
      · rw [← LawfulNode.greatest?_eq, hk]
      · cases hk
    obtain ⟨l, hl⟩ := List.head?_eq_some_iff.mp hk
    have hkl : k ∉ l := fun h => by
      rw [hl] at ht
      have := (List.pairwise_cons.mp ht).1 k h
      omega
    have he : Node.down (removal k t) = l := by
      rw [hf k t ht, hl]
      simp [filter_of_not_mem hkl]
    simp [down_rebuild, he, hl]
  · split
    · rename_i k hk
      have hk : (Node.down here).getLast? = some k := by
        split at hk
        · rw [← LawfulNode.least?_eq, hk]
        · cases hk
      obtain ⟨l, hl⟩ := List.getLast?_eq_some_iff.mp hk
      have hkl : k ∉ l := fun h => by
        rw [hl] at hh
        have := (List.pairwise_append.mp hh).2.2 k h k (by simp)
        omega
      have he : Node.down (removal k here) = l := by
        rw [hf k here hh, hl]
        simp [filter_of_not_mem hkl]
      simp [down_rebuild, he, hl]
    · have hm : Descending (Node.down (Node.merge here v t)) := by
        rw [LawfulNode.down_merge]
        refine hd'.sublist ?_
        exact (List.sublist_append_left _ _).cons_cons _ |>.append_left _
      rw [down_rebuild, hf v _ hm, LawfulNode.down_merge]
      simp [List.filter_append, filter_of_not_mem, hhv, htv]

/-- The spot that `locate` finds is the right one: on either side of it there
are only greater and only smaller values. -/
theorem down_eraseAt (hf : Removes removal) {v : Int} {r : Row α}
    (hd : Descending r.down) :
    (eraseAt removal v (locate v [] r.top r.rest)).down =
      r.down.filter (· != v) := by
  have hs : downSpot (locate v [] r.top r.rest) = r.down := by
    rw [down_locate]
    rfl
  have ha : ∀ x ∈ downAbove (locate v [] r.top r.rest).above, v < x :=
    lt_of_mem_above_locate (by simp [downAbove]) hd
  have hle : ∀ k t below, (locate v [] r.top r.rest).below =
      (k, t) :: below → k ≤ v :=
    fun _ _ _ h => le_of_below_locate h
  rw [← hs] at hd ⊢
  generalize hu : locate v [] r.top r.rest = s at hd ha ⊢
  unfold eraseAt
  split
  · rename_i hb
    exact down_eraseHere hf hd ha (by simp [hb])
  · rename_i k t below hb
    have hkv : k ≤ v := hle k t below (hu ▸ hb)
    split
    · rename_i he
      subst he
      obtain ⟨above, here, _⟩ := s
      cases hb
      exact down_eraseKey hf hd
    · rename_i he
      refine down_eraseHere hf hd ha fun x hx => ?_
      rw [hb, downRest_cons] at hx
      simp only [downSpot, hb, downRest_cons] at hd
      have hd := (List.pairwise_append.mp (List.pairwise_append.mp hd).2.1).2.1
      rcases List.mem_cons.mp hx with rfl | hx
      · omega
      · have := (List.pairwise_cons.mp hd).1 x hx
        omega

omit [LawfulNode α] in
/-- In the subtree of a pair that has keys to spare, a value can be taken out
with no look at the neighbours. -/
theorem downRest_eraseBelow (hf : Removes removal) {size : α → Nat} {v : Int}
    {p : Int × α} {rest : List (Int × α)} (hp : p.1 ≠ v)
    (hs : spares size v p.2 rest) (hd : Descending (downRest (p :: rest))) :
    downRest (eraseBelow removal v p rest) =
      (downRest (p :: rest)).filter (· != v) := by
  have hpv : (p.1 != v) = true := by simpa using hp
  induction rest generalizing p with
  | nil =>
      rw [downRest_cons] at hd ⊢
      obtain ⟨-, hd⟩ := List.pairwise_cons.mp hd
      have ht := (List.pairwise_append.mp hd).1
      simp [eraseBelow, hf v p.2 ht, hpv]
  | cons q rest ih =>
      rw [downRest_cons] at hd ⊢
      obtain ⟨-, hd⟩ := List.pairwise_cons.mp hd
      obtain ⟨ht, hr, htr⟩ := List.pairwise_append.mp hd
      rw [List.filter_cons, if_pos hpv, List.filter_append]
      rw [spares] at hs
      rw [eraseBelow]
      split
      · rename_i hqv
        have hv : v ∉ downRest (q :: rest) := fun h => by
          rw [downRest_cons] at h hr
          rcases List.mem_cons.mp h with h | h
          · omega
          · have := (List.pairwise_cons.mp hr).1 v h
            omega
        rw [downRest_cons, hf v p.2 ht, filter_of_not_mem hv]
      · rename_i hqv
        rw [if_neg hqv] at hs
        split at hs
        · cases hs
        · rename_i hne
          have hv : v ∉ Node.down p.2 := fun h => by
            have := htr v h q.1 (by simp)
            omega
          have hq : q.1 ≠ v := fun h => hne h.symm
          rw [downRest_cons, ih hq hs hr (by simpa using hq),
            filter_of_not_mem hv]

omit [LawfulNode α] in
/-- The same of a whole row, which begins with the topmost subtree. -/
theorem down_eraseInside (hf : Removes removal) {size : α → Nat} {v : Int}
    {r : Row α} (hs : spares size v r.top r.rest) (hd : Descending r.down) :
    (eraseInside removal v r).down = r.down.filter (· != v) := by
  obtain ⟨top, rest⟩ := r
  obtain ⟨ht, hr, htr⟩ := List.pairwise_append.mp hd
  cases rest with
  | nil => simp [eraseInside, down, hf v top ht]
  | cons p rest =>
      simp only [spares] at hs
      simp only [eraseInside, down, List.filter_append]
      split
      · rename_i hpv
        have hv : v ∉ downRest (p :: rest) := fun h => by
          simp only [downRest_cons] at h hr
          rcases List.mem_cons.mp h with h | h
          · omega
          · have := (List.pairwise_cons.mp hr).1 v h
            omega
        simp only [hf v top ht, filter_of_not_mem hv]
      · rename_i hpv
        rw [if_neg hpv] at hs
        split at hs
        · cases hs
        · rename_i hne
          have hv : v ∉ Node.down top := fun h => by
            have := htr v h p.1 (by simp)
            omega
          simp only [downRest_eraseBelow hf (fun h => hne h.symm) hs hr,
            filter_of_not_mem hv]

/-- Taking a value out of a row leaves the other values. -/
theorem down_erase (hf : Removes removal) {size : α → Nat} {v : Int} {r : Row α}
    (hd : Descending r.down) :
    (erase size removal v r).down = r.down.filter (· != v) := by
  unfold erase
  split
  · rename_i hs
    exact down_eraseInside hf hs hd
  · exact down_eraseAt hf hd

omit [LawfulNode α] in
/-- Looking a value up in a row goes down one subtree only.  That is enough
since the values descend. -/
theorem containsIn_iff {inside : α → Bool} {v : Int} (hf : Tells inside v)
    {top : α} {rest : List (Int × α)}
    (hd : Descending (Node.down top ++ downRest rest)) :
    containsIn inside v top rest ↔ v ∈ Node.down top ++ downRest rest := by
  induction rest generalizing top with
  | nil =>
      simp only [downRest_nil, List.append_nil] at hd ⊢
      exact hf top hd
  | cons p rest ih =>
      obtain ⟨k, t⟩ := p
      obtain ⟨h1, h2, h3⟩ := List.pairwise_append.mp hd
      obtain ⟨h4, h5⟩ := List.pairwise_cons.mp h2
      simp only [containsIn, downRest_cons, List.mem_append, List.mem_cons]
      split
      · rename_i hkv
        rw [hf top h1]
        refine ⟨.inl, fun h => h.elim id fun h => ?_⟩
        rcases h with rfl | h
        · omega
        · have := h4 v (List.mem_append.mpr h)
          simp only at this
          omega
      · split
        · rename_i hv
          simp [hv]
        · rename_i hkv hv
          rw [ih h5, List.mem_append]
          refine ⟨fun h => .inr (.inr h), fun h => ?_⟩
          rcases h with h | h | h
          · have := h3 v h k (by simp)
            omega
          · exact absurd h hv
          · exact h

omit [LawfulNode α] in
/-- Below a pair a value goes into the subtree whose key is next above it, and
that is its place among all the values below. -/
theorem downRest_placeBelow {insertion : α → Grown α} {v : Int}
    (hf : Inserts insertion v) {p : Int × α} {rest : List (Int × α)}
    (hd : Descending (downRest (p :: rest))) :
    downRest (placeBelow insertion v p rest) =
      p.1 :: insertDescending v (Node.down p.2 ++ downRest rest) := by
  induction rest generalizing p with
  | nil =>
      have ht : Descending (Node.down p.2) := by
        rw [downRest_cons, downRest_nil, List.append_nil] at hd
        exact (List.pairwise_cons.mp hd).2
      simp [placeBelow, downRest_restOfGrown, hf p.2 ht]
  | cons q rest ih =>
      obtain ⟨-, hd⟩ := List.pairwise_cons.mp hd
      obtain ⟨ht, hr, htr⟩ := List.pairwise_append.mp hd
      have htop : ∀ a ∈ Node.down p.2, q.1 < a := fun a ha =>
        htr a ha q.1 (by simp)
      rw [placeBelow, downRest_cons q rest]
      split
      · rename_i hqv
        rw [downRest_restOfGrown, hf p.2 ht, insertDescending_append_cons hqv,
          downRest_cons]
      · split
        · rename_i hv
          rw [hv, insertDescending_append htop, insertDescending,
            if_neg (by omega), if_pos rfl]
          rfl
        · rename_i hqv hv
          have hlt : v < q.1 := by omega
          have htv : ∀ a ∈ Node.down p.2, v < a := fun a ha => by
            have := htop a ha
            omega
          rw [insertDescending_append htv, insertDescending, if_neg (by omega),
            if_neg hv, downRest_cons, ih hr]

omit [LawfulNode α] in
/-- Putting a value into a row puts it in its place among all the values of the
row. -/
theorem down_place {insertion : α → Grown α} {v : Int}
    (hf : Inserts insertion v) {r : Row α} (hd : Descending r.down) :
    (place insertion v r).down = insertDescending v r.down := by
  obtain ⟨top, rest⟩ := r
  obtain ⟨ht, hr, htr⟩ := List.pairwise_append.mp hd
  cases rest with
  | nil =>
      change (ofGrown [] (insertion top)).down =
        insertDescending v (Node.down top ++ [])
      rw [down_ofGrown, hf top ht, downRest_nil, List.append_nil,
        List.append_nil]
  | cons p rest =>
      have htop : ∀ a ∈ Node.down top, p.1 < a := fun a ha =>
        htr a ha p.1 (by simp)
      simp only [place, down, downRest_cons]
      split
      · rename_i hpv
        change (ofGrown (p :: rest) (insertion top)).down = _
        rw [down_ofGrown, hf top ht, insertDescending_append_cons hpv,
          downRest_cons]
      · split
        · rename_i hv
          rw [hv, insertDescending_append htop, insertDescending,
            if_neg (by omega), if_pos rfl]
          rfl
        · rename_i hpv hv
          have hlt : v < p.1 := by omega
          have htv : ∀ a ∈ Node.down top, v < a := fun a ha => by
            have := htop a ha
            omega
          rw [insertDescending_append htv, insertDescending, if_neg (by omega),
            if_neg hv, downRest_placeBelow hf hr]

omit [LawfulNode α] in
/-- Inserting into a row puts the value in its place. -/
theorem down_insert {insertion : α → Grown α} {v : Int}
    (hf : Inserts insertion v) {r : Row α} (hd : Descending r.down) :
    (insert insertion v r).down = insertDescending v r.down :=
  (down_split _).trans (down_place hf hd)

/-- Going up through a row, from the least value, the first that passes a test
is the first of the reversed list. -/
theorem findUpIn?_eq (p : Int → Bool) (top : α) (rest : List (Int × α)) :
    findUpIn? p top rest =
      (Node.down top ++ downRest rest).reverse.find? p := by
  induction rest generalizing top with
  | nil => simp [findUpIn?, LawfulNode.findUp?_eq]
  | cons q rest ih =>
      rw [findUpIn?, ih, LawfulNode.findUp?_eq]
      cases h : p q.1 <;> simp [List.find?_append, Option.or_assoc, h]

/-- The search below the topmost subtree meets the values in the order in which
`skimRest` lists them. -/
theorem findSkimRest?_eq (p : Int → Bool) (l : List (Int × α)) :
    findSkimRest? p l = (skimRest l).find? p := by
  induction l with
  | nil => rfl
  | cons q l ih =>
      have : skimRest (q :: l) = q.1 :: (Node.skim q.2 ++ skimRest l) := rfl
      rw [findSkimRest?, ih, LawfulNode.findSkim?_eq, this, List.find?_cons,
        List.find?_append]
      split
      · rename_i h
        rw [h]
      · rename_i h
        rw [eq_false_of_ne_true h]
        cases (Node.skim q.2).find? p <;> rfl

instance lawful : LawfulNode (Row α) where
  greatest?_eq r := by
    change Row.greatest? r = (Row.down r).head?
    rw [greatest?, down, LawfulNode.greatest?_eq, List.head?_append]
    cases r.rest <;> simp
  least?_eq r := by
    change Row.least? r = (Row.down r).getLast?
    unfold least?
    split
    · rename_i h
      rw [List.getLast?_eq_none_iff] at h
      rw [LawfulNode.least?_eq, down, h]
      simp
    · rename_i k t h
      obtain ⟨l, hl⟩ := List.getLast?_eq_some_iff.mp h
      rw [LawfulNode.least?_eq, down, hl, downRest_append, ← List.append_assoc,
        List.getLast?_append]
      simp [List.getLast?_cons]
  down_merge upper k lower := by
    change (merge upper k lower).down = upper.down ++ k :: lower.down
    simp [merge, down]
  down_lend? {upper lower upper' lower' k k'} h := by
    obtain ⟨p, hp, he⟩ := Option.map_eq_some_iff.mp h
    cases he
    obtain ⟨l, hl⟩ := List.getLast?_eq_some_iff.mp hp
    exact ⟨Node.down
      p.2, by simp [Node.down, down, hl], by simp [Node.down, down]⟩
  down_borrow? {upper lower upper' lower' k k'} h := by
    change borrow? upper k lower = _ at h
    unfold borrow? at h
    split at h
    · cases h
    · rename_i hl
      cases h
      exact ⟨Node.down
        lower.top, by simp [Node.down, down], by simp [Node.down, down, hl]⟩
  walk_sublist r := by
    refine (LawfulNode.walk_sublist r.top).append ?_
    induction r.rest with
    | nil => exact List.Sublist.refl _
    | cons p l ih =>
        exact ((LawfulNode.skim_sublist p.2).append ih).cons_cons p.1
  skim_sublist r := by
    refine (LawfulNode.skim_sublist r.top).append ?_
    have key : ∀ l : List (Int × α),
        (skimRest l).Sublist (downRest l) := fun l => by
      induction l with
      | nil => exact List.Sublist.refl _
      | cons p l ih =>
          exact ((LawfulNode.skim_sublist p.2).append ih).cons_cons p.1
    refine (key _).trans ?_
    cases r.rest with
    | nil => exact List.Sublist.refl _
    | cons p l => exact (List.sublist_append_right _ _).cons p.1
  findUp?_eq p r := findUpIn?_eq p r.top r.rest
  findWalk?_eq p r := by
    change Row.findWalk? p r = (Row.walk r).find? p
    rw [findWalk?, walk, LawfulNode.findWalk?_eq, findSkimRest?_eq,
      List.find?_append, Option.orElse_eq_orElse, Option.orElse_eq_or]
  findSkim?_eq p r := by
    change Row.findSkim? p r = (Row.skim r).find? p
    rw [findSkim?, skim, LawfulNode.findSkim?_eq, findSkimRest?_eq,
      List.find?_append, Option.orElse_eq_orElse, Option.orElse_eq_or]

end ConstraintNet.Domain.Row
