import ConstraintNet.Proofs.Pairings

/-!
# Search trees of one shape

A search tree compares its keys and does nothing else with them.  So what it
does to a tree it does to a copy, which has other keys in the same places:
looking up, inserting and taking out keep to the copies, as long as the keys
that go together are ordered alike.  Then the walk down, too, which depends on
the shape of the tree, meets values that go together.
-/

namespace ConstraintNet

namespace Domain

/-- The pairing carries the order of integers over. -/
abbrev Ordered (P : Int → Int → Prop) : Prop :=
  ValueOrder.ascending.Carries P .ascending

namespace Ordered

variable {P : Int → Int → Prop} {a b a' b' : Int}

/-- Values that go together are compared alike. -/
theorem lt_iff (hP : Ordered P) (h : P a b) (h' : P a' b') : a < a' ↔ b < b' :=
  hP a b a' b' h h'

/-- The same for the order that is not strict. -/
theorem le_iff (hP : Ordered P) (h : P a b) (h' : P a' b') :
    a ≤ a' ↔ b ≤ b' := by
  have := hP.lt_iff h' h
  omega

/-- Two values are equal just when their partners are, so that no two values
share a partner. -/
theorem eq_iff (hP : Ordered P) (h : P a b) (h' : P a' b') :
    a = a' ↔ b = b' := by
  have := hP.lt_iff h h'
  have := hP.lt_iff h' h
  omega

end Ordered

variable {P : Int → Int → Prop} {v w : Int} {l m : List Int}

/-! ## Lists of keys -/

/-- A key and its partner go to the same place in a list and in its copy, since
every comparison on the way comes out alike. -/
theorem insertDescending_copies (hP : Ordered P) (hvw : P v w)
    (h : List.Forall₂ P l m) :
    List.Forall₂ P (insertDescending v l) (insertDescending w m) := by
  induction h with
  | nil => exact .cons hvw .nil
  | cons hab h ih =>
      simp only [insertDescending, hP.lt_iff hab hvw, hP.eq_iff hvw hab]
      split
      · exact .cons hvw (.cons hab h)
      · split
        · exact .cons hab h
        · exact .cons hab ih

/-- A key and its partner are found in the same place, or neither is found. -/
theorem eraseDescending_copies (hP : Ordered P) (hvw : P v w)
    (h : List.Forall₂ P l m) :
    List.Forall₂ P (eraseDescending v l) (eraseDescending w m) := by
  induction h with
  | nil => exact .nil
  | cons hab h ih =>
      simp only [eraseDescending, hP.eq_iff hab hvw]
      split
      · exact h
      · exact .cons hab ih

/-- A node that is too large and its copy are split at the same place. -/
theorem overflow?_copies {α β : Type} {R : α → β → Prop} {l : List α}
    {m : List β} (h : List.Forall₂ R l m) :
    Option.Rel (fun p q => List.Forall₂ R p.1 q.1 ∧ R p.2.1 q.2.1 ∧
      List.Forall₂ R p.2.2 q.2.2)
      (overflow? l) (overflow? m) := by
  have hdrop := List.forall₂_drop half h
  rw [overflow?, overflow?, h.length_eq]
  split
  · exact .none
  · generalize l.drop half = lower at hdrop
    generalize m.drop half = lower' at hdrop
    cases hdrop with
    | nil => exact .none
    | cons hab hrest => exact .some ⟨List.forall₂_take half h, hab, hrest⟩

/-! ## Nodes -/

/-- What an insertion made of a node and of its copy. -/
inductive Grown.Copies {α : Type} (P : Int → Int → Prop) (T : α → α → Prop) :
    Grown α → Grown α → Prop
  | one {t u : α} (h : T t u) : Copies P T (.one t) (.one u)
  | two {t t' u u' : α} {k k' : Int} (h : T t t') (hk : P k k') (h' : T u u') :
      Copies P T (.two t k u) (.two t' k' u')

/-- Two nodes and the key between them. -/
def Moved {α : Type} (P : Int → Int → Prop) (T : α → α → Prop)
    (p q : α × Int × α) : Prop :=
  T p.1 q.1 ∧ P p.2.1 q.2.1 ∧ T p.2.2 q.2.2

/-- What a node offers keeps to the copies that `T` tells of. -/
structure KeepsCopies {α : Type} [Node α] (P : Int → Int → Prop)
    (T : α → α → Prop) : Prop where
  size {t u : α} (h : T t u) : Node.size u = Node.size t
  greatest? {t u : α} (h : T t u) :
    Option.Rel P (Node.greatest? t) (Node.greatest? u)
  least? {t u : α} (h : T t u) : Option.Rel P (Node.least? t) (Node.least? u)
  merge {t t' u u' : α} {k k' : Int} (h : T t t') (hk : P k k') (h' : T u u') :
    T (Node.merge t k u) (Node.merge t' k' u')
  lend? {t t' u u' : α} {k k' : Int} (h : T t t') (hk : P k k') (h' : T u u') :
    Option.Rel (Moved P T) (Node.lend? t k u) (Node.lend? t' k' u')
  borrow? {t t' u u' : α} {k k' : Int} (h : T t t') (hk : P k k')
    (h' : T u u') :
    Option.Rel (Moved P T) (Node.borrow? t k u) (Node.borrow? t' k' u')
  down {t u : α} (h : T t u) : List.Forall₂ P (Node.down t) (Node.down u)
  walk {t u : α} (h : T t u) : List.Forall₂ P (Node.walk t) (Node.walk u)
  skim {t u : α} (h : T t u) : List.Forall₂ P (Node.skim t) (Node.skim u)

namespace Leaf

/-- Leaves with keys that go together. -/
def Copies (P : Int → Int → Prop) (t u : Leaf) : Prop :=
  List.Forall₂ P t.keys u.keys

variable {t u : Leaf}

/-- A leaf finds a value just when its copy finds the partner. -/
theorem contains_copies (hP : Ordered P) (hvw : P v w) (h : t.Copies P u) :
    u.contains w = t.contains v := by
  rw [Bool.eq_iff_iff, contains_iff, contains_iff]
  exact (List.rel_mem hP.biUnique hvw h).symm

/-- A leaf and its copy lose keys in the same place. -/
theorem erase_copies (hP : Ordered P) (hvw : P v w) (h : t.Copies P u) :
    (t.erase v).Copies P (u.erase w) :=
  eraseDescending_copies hP hvw h

/-- A leaf and its copy grow alike: both are split or neither, and the keys that
go up go together. -/
theorem insert_copies (hP : Ordered P) (hvw : P v w) (h : t.Copies P u) :
    (t.insert v).Copies P (Leaf.Copies P) (u.insert w) := by
  have hkeys := insertDescending_copies hP hvw h
  simp only [insert]
  rcases cases_of_rel (overflow?_copies hkeys) with
    ⟨hl, hm⟩ | ⟨p, q, hl, hm, hupper, hk, hlower⟩
  · rw [hl, hm]
    exact .one hkeys
  · rw [hl, hm]
    exact .two hupper hk hlower

/-- What leaves offer keeps to copies, since all of it is told by positions in
their lists of keys. -/
theorem keepsCopies : KeepsCopies P (Leaf.Copies P) where
  size h := h.length_eq.symm
  greatest? h := rel_head? h
  least? h := rel_getLast? h
  merge h hk h' := List.rel_append h (.cons hk h')
  lend? {t t' u u' k k'} h hk h' := by
    change Option.Rel _ (lend? t k u) (lend? t' k' u')
    rw [lend?, lend?]
    rcases cases_of_rel (rel_getLast? h) with ⟨hl, hm⟩ | ⟨a, b, hl, hm, hab⟩
    · rw [hl, hm]
      exact .none
    · rw [hl, hm]
      exact .some ⟨forall₂_dropLast h, hab, .cons hk h'⟩
  borrow? {t t' u u' k k'} h hk h' := by
    change Option.Rel _ (borrow? t k u) (borrow? t' k' u')
    obtain ⟨keys⟩ := u
    obtain ⟨keys'⟩ := u'
    cases h' with
    | nil => exact .none
    | cons hab h' => exact .some ⟨List.rel_append h (.cons hk .nil), hab, h'⟩
  down h := h
  walk h := h
  skim h := h

end Leaf

/-! ## Rows -/

namespace Row

variable {α : Type} {T : α → α → Prop}

/-- Keys, each with the subtree next below it. -/
abbrev RestCopies (P : Int → Int → Prop) (T : α → α → Prop) :
    List (Int × α) → List (Int × α) → Prop :=
  List.Forall₂ fun p q => P p.1 q.1 ∧ T p.2 q.2

/-- Rows of subtrees that `T` tells to be copies, with keys that go together. -/
structure Copies (P : Int → Int → Prop) (T : α → α → Prop) (r s : Row α) :
    Prop where
  top : T r.top s.top
  rest : RestCopies P T r.rest s.rest

/-- Spots in a row and in its copy. -/
structure SpotCopies (P : Int → Int → Prop) (T : α → α → Prop) (s s' : Spot α) :
    Prop where
  above : List.Forall₂ (fun p q => T p.1 q.1 ∧ P p.2 q.2) s.above s'.above
  here : T s.here s'.here
  below : RestCopies P T s.below s'.below

variable {r r' : Row α} {s s' : Spot α} {t t' : α}
  {rest rest' below below' : List (Int × α)} {above above' : List (α × Int)}
  {p q : Int × α} {k k' : Int}

/-! ### Looking up and inserting -/

/-- A row and its copy send the search down the same subtree. -/
theorem containsIn_copies (hP : Ordered P) (hvw : P v w)
    {inside inside' : α → Bool} (hinside : ∀ t u, T t u → inside' u = inside t)
    (h : T t t') (hrest : RestCopies P T rest rest') :
    containsIn inside' w t' rest' = containsIn inside v t rest := by
  induction hrest generalizing t t' with
  | nil => exact hinside _ _ h
  | cons hpq _ ih =>
      simp only [containsIn, hP.lt_iff hpq.1 hvw, hP.eq_iff hvw hpq.1,
        hinside _ _ h, ih hpq.2]

/-- A row that is made from what became of the topmost subtree copies the one
made likewise. -/
theorem ofGrown_copies {g g' : Grown α} (hrest : RestCopies P T rest rest')
    (h : g.Copies P T g') : (ofGrown rest g).Copies P T (ofGrown rest' g') := by
  cases h with
  | one h => exact ⟨h, hrest⟩
  | two h hk h' => exact ⟨h, .cons ⟨hk, h'⟩ hrest⟩

/-- The same below a key. -/
theorem restOfGrown_copies {g g' : Grown α} (hk : P k k')
    (hrest : RestCopies P T rest rest') (h : g.Copies P T g') :
    RestCopies P T (restOfGrown k rest g) (restOfGrown k' rest' g') := by
  cases h with
  | one h => exact .cons ⟨hk, h⟩ hrest
  | two h hk' h' => exact .cons ⟨hk, h⟩ (.cons ⟨hk', h'⟩ hrest)

section

variable {insertion insertion' : α → Grown α}

/-- Below a pair a value and its partner are put into subtrees in the same
place. -/
theorem placeBelow_copies (hP : Ordered P) (hvw : P v w)
    (hinsertion : ∀ t u, T t u → (insertion t).Copies P T (insertion' u))
    (hpq : P p.1 q.1 ∧ T p.2 q.2) (hrest : RestCopies P T rest rest') :
    RestCopies P T (placeBelow insertion v p rest)
      (placeBelow insertion' w q rest') := by
  induction hrest generalizing p q with
  | nil => exact restOfGrown_copies hpq.1 .nil (hinsertion _ _ hpq.2)
  | cons hpq' hrest ih =>
      simp only [placeBelow, hP.lt_iff hpq'.1 hvw, hP.eq_iff hvw hpq'.1]
      split
      · exact restOfGrown_copies hpq.1 (.cons hpq' hrest) (hinsertion _ _ hpq.2)
      · split
        · exact .cons hpq (.cons hpq' hrest)
        · exact .cons hpq (ih hpq')

/-- In a whole row, too, they go to the same place. -/
theorem place_copies (hP : Ordered P) (hvw : P v w)
    (hinsertion : ∀ t u, T t u → (insertion t).Copies P T (insertion' u))
    (h : r.Copies P T r') :
    (place insertion v r).Copies P T (place insertion' w r') := by
  obtain ⟨top, rest⟩ := r
  obtain ⟨top', rest'⟩ := r'
  obtain ⟨htop, hrest⟩ := h
  cases hrest with
  | nil => exact ofGrown_copies .nil (hinsertion _ _ htop)
  | cons hpq hrest =>
      simp only [place, hP.lt_iff hpq.1 hvw, hP.eq_iff hvw hpq.1]
      split
      · exact ofGrown_copies (.cons hpq hrest) (hinsertion _ _ htop)
      · split
        · exact ⟨htop, .cons hpq hrest⟩
        · exact ⟨htop, placeBelow_copies hP hvw hinsertion hpq hrest⟩

/-- A row and its copy are split at the same key or not at all. -/
theorem split_copies (h : r.Copies P T r') :
    r.split.Copies P (Copies P T) r'.split := by
  rw [split, split]
  rcases cases_of_rel (overflow?_copies h.rest) with
    ⟨hl, hm⟩ | ⟨⟨_, _, _⟩, ⟨_, _, _⟩, hl, hm, hupper, hkt, hlower⟩
  · rw [hl, hm]
    exact .one h
  · rw [hl, hm]
    exact .two ⟨h.top, hupper⟩ hkt.1 ⟨hkt.2, hlower⟩

/-- Inserting keeps to the copy: a value goes where its partner goes, and both
rows are split or neither. -/
theorem insert_copies (hP : Ordered P) (hvw : P v w)
    (hinsertion : ∀ t u, T t u → (insertion t).Copies P T (insertion' u))
    (h : r.Copies P T r') :
    (insert insertion v r).Copies P (Copies P T) (insert insertion' w r') :=
  split_copies (place_copies hP hvw hinsertion h)

end

/-! ### Taking out -/

/-- Rows that are merged with copies between them are copies. -/
theorem merge_copies (h : r.Copies P T r') (hk : P k k') {u u' : Row α}
    (h' : u.Copies P T u') : (merge r k u).Copies P T (merge r' k' u') :=
  ⟨h.top, List.rel_append h.rest (.cons ⟨hk, h'.top⟩ h'.rest)⟩

/-- The upper row lends the same subtree as its copy, with a key that goes with
the other's. -/
theorem lend?_copies (h : r.Copies P T r') (hk : P k k') {u u' : Row α}
    (h' : u.Copies P T u') :
    Option.Rel (Moved P (Copies P T)) (lend? r k u) (lend? r' k' u') := by
  rw [lend?, lend?]
  rcases cases_of_rel (rel_getLast? h.rest) with ⟨hl, hm⟩ | ⟨p, q, hl, hm, hpq⟩
  · rw [hl, hm]
    exact .none
  · rw [hl, hm]
    exact .some ⟨⟨h.top, forall₂_dropLast h.rest⟩, hpq.1, hpq.2,
      .cons ⟨hk, h'.top⟩ h'.rest⟩

/-- The lower row gives the same subtree as its copy. -/
theorem borrow?_copies (h : r.Copies P T r') (hk : P k k') {u u' : Row α}
    (h' : u.Copies P T u') :
    Option.Rel (Moved P (Copies P T)) (borrow? r k u) (borrow? r' k' u') := by
  obtain ⟨top, rest⟩ := u
  obtain ⟨top', rest'⟩ := u'
  obtain ⟨htop, hrest⟩ := h'
  cases hrest with
  | nil => exact .none
  | cons hpq hrest =>
      exact .some ⟨⟨h.top, List.rel_append h.rest (.cons ⟨hk, htop⟩ .nil)⟩,
        hpq.1, hpq.2, hrest⟩

/-- A row put together around a spot copies the one put together around the
spot's copy. -/
theorem rebuild_copies (h : T t t') (hbelow : RestCopies P T below below')
    (habove : List.Forall₂ (fun p q => T p.1 q.1 ∧ P p.2 q.2) above above') :
    (rebuild t below above).Copies P T (rebuild t' below' above') := by
  induction habove generalizing t t' below below' with
  | nil => exact ⟨h, hbelow⟩
  | cons hpq _ ih => exact ih hpq.1 (.cons ⟨hpq.2, h⟩ hbelow)

/-- A value and its partner are sought by the same steps, so that the spots
found are copies. -/
theorem locate_copies (hP : Ordered P) (hvw : P v w)
    (habove : List.Forall₂ (fun p q => T p.1 q.1 ∧ P p.2 q.2) above above')
    (h : T t t') (hrest : RestCopies P T rest rest') :
    SpotCopies P T (locate v above t rest) (locate w above' t' rest') := by
  induction hrest generalizing t t' above above' with
  | nil => exact ⟨habove, h, .nil⟩
  | cons hpq hrest ih =>
      simp only [locate, hP.le_iff hpq.1 hvw]
      split
      · exact ⟨habove, h, .cons hpq hrest⟩
      · exact ih (.cons ⟨h, hpq.1⟩ habove) hpq.2

variable [Node α]

/-- The subtree below a spot has a key to spare just when its copy has, for they
hold equally many. -/
theorem fromBelow?_copies (hT : KeepsCopies P T) (h : SpotCopies P T s s') :
    Option.Rel (SpotCopies P T) (fromBelow? s) (fromBelow? s') := by
  obtain ⟨above, here, below⟩ := s
  obtain ⟨above', here', below'⟩ := s'
  obtain ⟨habove, hhere, hbelow⟩ := h
  cases hbelow with
  | nil => exact .none
  | cons hpq hbelow =>
      simp only [fromBelow?, hT.size hpq.2]
      split
      · rcases cases_of_rel (hT.borrow? hhere hpq.1 hpq.2) with
          ⟨hl, hm⟩ | ⟨a, b, hl, hm, hab⟩
        · rw [hl, hm]
          exact .none
        · rw [hl, hm]
          exact .some ⟨habove, hab.1, .cons hab.2 hbelow⟩
      · exact .none

/-- So has the subtree above. -/
theorem fromAbove?_copies (hT : KeepsCopies P T) (h : SpotCopies P T s s') :
    Option.Rel (SpotCopies P T) (fromAbove? s) (fromAbove? s') := by
  obtain ⟨above, here, below⟩ := s
  obtain ⟨above', here', below'⟩ := s'
  obtain ⟨habove, hhere, hbelow⟩ := h
  cases habove with
  | nil => exact .none
  | cons hpq habove =>
      simp only [fromAbove?, hT.size hpq.1]
      split
      · rcases cases_of_rel (hT.lend? hpq.1 hpq.2 hhere) with
          ⟨hl, hm⟩ | ⟨a, b, hl, hm, hab⟩
        · rw [hl, hm]
          exact .none
        · rw [hl, hm]
          exact .some ⟨.cons ⟨hab.1, hab.2.1⟩ habove, hab.2.2, hbelow⟩
      · exact .none

/-- There is a subtree above to merge with just when there is one above the
copy. -/
theorem withAbove?_copies (hT : KeepsCopies P T) (h : SpotCopies P T s s') :
    Option.Rel (SpotCopies P T) (withAbove? s) (withAbove? s') := by
  obtain ⟨above, here, below⟩ := s
  obtain ⟨above', here', below'⟩ := s'
  obtain ⟨habove, hhere, hbelow⟩ := h
  cases habove with
  | nil => exact .none
  | cons hpq habove => exact .some ⟨habove, hT.merge hpq.1 hpq.2 hhere, hbelow⟩

/-- There is one below just when there is one below the copy. -/
theorem withBelow?_copies (hT : KeepsCopies P T) (h : SpotCopies P T s s') :
    Option.Rel (SpotCopies P T) (withBelow? s) (withBelow? s') := by
  obtain ⟨above, here, below⟩ := s
  obtain ⟨above', here', below'⟩ := s'
  obtain ⟨habove, hhere, hbelow⟩ := h
  cases hbelow with
  | nil => exact .none
  | cons hpq hbelow => exact .some ⟨habove, hT.merge hhere hpq.1 hpq.2, hbelow⟩

/-- A subtree is given keys to spare from the same place. -/
theorem fill_copies (hT : KeepsCopies P T) (h : SpotCopies P T s s') :
    SpotCopies P T (fill s) (fill s') := by
  rw [fill, fill, hT.size h.here]
  split
  · exact h
  · have hfilled :=
      rel_or (fromBelow?_copies hT h) (rel_or (fromAbove?_copies hT h)
        (rel_or (withAbove?_copies hT h) (withBelow?_copies hT h)))
    rcases cases_of_rel hfilled with ⟨hl, hm⟩ | ⟨a, b, hl, hm, hab⟩
    · rw [hl, hm]
      exact h
    · rw [hl, hm]
      exact hab

section

variable {removal removal' : Int → α → α}

/-- Taking a value out of the subtree at a spot keeps to the copy, with keys
moved from the same neighbour. -/
theorem eraseHere_copies (hT : KeepsCopies P T) (hvw : P v w)
    (hremoval : ∀ v w t u, P v w → T t u → T (removal v t) (removal' w u))
    (h : SpotCopies P T s s') :
    (eraseHere removal v s).Copies P T (eraseHere removal' w s') :=
  have hfill := fill_copies hT h
  rebuild_copies (hremoval _ _ _ _ hvw hfill.here) hfill.below hfill.above

/-- Taking out a key keeps to the copy.  Its replacement comes from the same
subtree, or the same two subtrees are merged. -/
theorem eraseKey_copies (hT : KeepsCopies P T) (hvw : P v w)
    (hremoval : ∀ v w t u, P v w → T t u → T (removal v t) (removal' w u))
    {u u' : α}
    (habove : List.Forall₂ (fun p q => T p.1 q.1 ∧ P p.2 q.2) above above')
    (h : T t t') (h' : T u u') (hbelow : RestCopies P T below below') :
    (eraseKey removal v above t u below).Copies P T
      (eraseKey removal' w above' t' u' below') := by
  have hgreatest : Option.Rel P
      (if half ≤ Node.size u then Node.greatest? u else none)
      (if half ≤ Node.size u' then Node.greatest? u' else none) := by
    rw [hT.size h']
    split
    · exact hT.greatest? h'
    · exact .none
  have hleast : Option.Rel P
      (if half ≤ Node.size t then Node.least? t else none)
      (if half ≤ Node.size t' then Node.least? t' else none) := by
    rw [hT.size h]
    split
    · exact hT.least? h
    · exact .none
  rw [eraseKey, eraseKey]
  rcases cases_of_rel hgreatest with ⟨hl, hm⟩ | ⟨a, b, hl, hm, hab⟩
  · rw [hl, hm]
    rcases cases_of_rel hleast with ⟨hl, hm⟩ | ⟨a, b, hl, hm, hab⟩
    · rw [hl, hm]
      exact rebuild_copies (hremoval _ _ _ _ hvw (hT.merge h hvw h'))
        hbelow habove
    · rw [hl, hm]
      exact rebuild_copies (hremoval _ _ _ _ hab h)
        (.cons ⟨hab, h'⟩ hbelow) habove
  · rw [hl, hm]
    exact rebuild_copies h (.cons ⟨hab, hremoval _ _ _ _ hab h'⟩ hbelow) habove

/-- Both cases together: a value is a key just when its partner is. -/
theorem eraseAt_copies (hP : Ordered P) (hT : KeepsCopies P T) (hvw : P v w)
    (hremoval : ∀ v w t u, P v w → T t u → T (removal v t) (removal' w u))
    (h : SpotCopies P T s s') :
    (eraseAt removal v s).Copies P T (eraseAt removal' w s') := by
  obtain ⟨above, here, below⟩ := s
  obtain ⟨above', here', below'⟩ := s'
  obtain ⟨habove, hhere, hbelow⟩ := h
  cases hbelow with
  | nil => exact eraseHere_copies hT hvw hremoval ⟨habove, hhere, .nil⟩
  | cons hpq hbelow =>
      simp only [eraseAt, hP.eq_iff hpq.1 hvw]
      split
      · exact eraseKey_copies hT hvw hremoval habove hhere hpq.2 hbelow
      · exact eraseHere_copies hT hvw hremoval ⟨habove, hhere, .cons hpq hbelow⟩

omit [Node α] in
/-- Whether there are keys to spare is the same for a row and its copy. -/
theorem spares_copies (hP : Ordered P) (hvw : P v w) {size size' : α → Nat}
    (hsize : ∀ t u, T t u → size' u = size t) (h : T t t')
    (hrest : RestCopies P T rest rest') :
    spares size' w t' rest' = spares size v t rest := by
  induction hrest generalizing t t' with
  | nil => simp only [spares, hsize _ _ h]
  | cons hpq _ ih =>
      simp only [spares, hP.lt_iff hpq.1 hvw, hP.eq_iff hvw hpq.1,
        hsize _ _ h, ih hpq.2]

omit [Node α] in
/-- Below a pair, taking out of a subtree with keys to spare keeps to the
copy. -/
theorem eraseBelow_copies (hP : Ordered P) (hvw : P v w)
    (hremoval : ∀ v w t u, P v w → T t u → T (removal v t) (removal' w u))
    (hpq : P p.1 q.1 ∧ T p.2 q.2) (hrest : RestCopies P T rest rest') :
    RestCopies P T (eraseBelow removal v p rest)
      (eraseBelow removal' w q rest') := by
  induction hrest generalizing p q with
  | nil => exact .cons ⟨hpq.1, hremoval _ _ _ _ hvw hpq.2⟩ .nil
  | cons hpq' hrest ih =>
      simp only [eraseBelow, hP.lt_iff hpq'.1 hvw]
      split
      · exact .cons ⟨hpq.1, hremoval _ _ _ _ hvw hpq.2⟩ (.cons hpq' hrest)
      · exact .cons hpq (ih hpq')

omit [Node α] in
/-- So it does in a whole row. -/
theorem eraseInside_copies (hP : Ordered P) (hvw : P v w)
    (hremoval : ∀ v w t u, P v w → T t u → T (removal v t) (removal' w u))
    (h : r.Copies P T r') :
    (eraseInside removal v r).Copies P T (eraseInside removal' w r') := by
  obtain ⟨top, rest⟩ := r
  obtain ⟨top', rest'⟩ := r'
  obtain ⟨htop, hrest⟩ := h
  cases hrest with
  | nil => exact ⟨hremoval _ _ _ _ hvw htop, .nil⟩
  | cons hpq hrest =>
      simp only [eraseInside, hP.lt_iff hpq.1 hvw]
      split
      · exact ⟨hremoval _ _ _ _ hvw htop, .cons hpq hrest⟩
      · exact ⟨htop, eraseBelow_copies hP hvw hremoval hpq hrest⟩

/-- **A value is taken out of a row and its partner out of the copy.** -/
theorem erase_copies (hP : Ordered P) (hT : KeepsCopies P T) (hvw : P v w)
    {size size' : α → Nat} (hsize : ∀ t u, T t u → size' u = size t)
    (hremoval : ∀ v w t u, P v w → T t u → T (removal v t) (removal' w u))
    (h : r.Copies P T r') :
    (erase size removal v r).Copies P T (erase size' removal' w r') := by
  rw [erase, erase, spares_copies hP hvw hsize h.top h.rest]
  split
  · exact eraseInside_copies hP hvw hremoval h
  · exact eraseAt_copies hP hT hvw hremoval
      (locate_copies hP hvw .nil h.top h.rest)

end

/-! ### What a row offers -/

/-- The greatest values of a row and its copy go together. -/
theorem greatest?_copies (hT : KeepsCopies P T) (h : r.Copies P T r') :
    Option.Rel P r.greatest? r'.greatest? := by
  refine rel_or (hT.greatest? h.top) ?_
  rcases cases_of_rel (rel_head? h.rest) with ⟨hl, hm⟩ | ⟨p, q, hl, hm, hpq⟩
  · rw [hl, hm]
    exact .none
  · rw [hl, hm]
    exact .some hpq.1

/-- So do the least values. -/
theorem least?_copies (hT : KeepsCopies P T) (h : r.Copies P T r') :
    Option.Rel P r.least? r'.least? := by
  rw [least?, least?]
  rcases cases_of_rel (rel_getLast? h.rest) with ⟨hl, hm⟩ | ⟨p, q, hl, hm, hpq⟩
  · rw [hl, hm]
    exact hT.least? h.top
  · rw [hl, hm]
    rcases cases_of_rel (hT.least? hpq.2) with ⟨hl, hm⟩ | ⟨a, b, hl, hm, hab⟩
    · simp only [hl, hm]
      exact .some hpq.1
    · simp only [hl, hm]
      exact .some hab

/-- What stands below the topmost subtree goes together value by value. -/
theorem downRest_copies (hT : KeepsCopies P T) (h : RestCopies P T rest rest') :
    List.Forall₂ P (downRest rest) (downRest rest') :=
  List.rel_flatMap h fun _ _ hpq => .cons hpq.1 (hT.down hpq.2)

/-- So does what a walk down meets there. -/
theorem skimRest_copies (hT : KeepsCopies P T) (h : RestCopies P T rest rest') :
    List.Forall₂ P (skimRest rest) (skimRest rest') :=
  List.rel_flatMap h fun _ _ hpq => .cons hpq.1 (hT.skim hpq.2)

/-- **Rows keep to copies if their subtrees do.** -/
theorem keepsCopies (hT : KeepsCopies P T) : KeepsCopies P (Copies P T) where
  size h := h.rest.length_eq.symm
  greatest? := greatest?_copies hT
  least? := least?_copies hT
  merge h hk h' := merge_copies h hk h'
  lend? h hk h' := lend?_copies h hk h'
  borrow? h hk h' := borrow?_copies h hk h'
  down h := List.rel_append (hT.down h.top) (downRest_copies hT h.rest)
  walk h := List.rel_append (hT.walk h.top) (skimRest_copies hT h.rest)
  skim h :=
    List.rel_append (hT.skim h.top)
      (skimRest_copies hT (List.forall₂_drop 1 h.rest))

end Row

/-! ## Trees -/

namespace Tree

/-- Trees of one shape with keys that go together. -/
def Copies (P : Int → Int → Prop) :
    (height : Nat) → Tree height → Tree height → Prop
  | 0 => Leaf.Copies P
  | height + 1 => Row.Copies P (Copies P height)

/-- Trees of every height keep to copies, level upon level. -/
theorem keepsCopies (height : Nat) : KeepsCopies P (Copies P height) := by
  induction height with
  | zero => exact Leaf.keepsCopies
  | succ height ih =>
      rw [node_row]
      exact Row.keepsCopies ih

/-- A tree and its copy have equally many keys at the root. -/
theorem size_copies :
    (height : Nat) → {t u : Tree height} → Copies P height t u →
    size height u = size height t := by
  intro height t u h
  rw [size_eq, size_eq, (keepsCopies height).size h]

/-- A tree finds a value just when its copy finds the partner. -/
theorem contains_copies (hP : Ordered P) (hvw : P v w) :
    (height : Nat) → {t u : Tree height} →
    Copies P height t u → contains w height u = contains v height t
  | 0, _, _, h => Leaf.contains_copies hP hvw h
  | height + 1, _, _, h =>
    Row.containsIn_copies hP hvw (fun _ _ h => contains_copies hP hvw height h)
      h.top h.rest

/-- Inserting into a tree keeps to the copy at every level. -/
theorem insert_copies (hP : Ordered P) (hvw : P v w) :
    (height : Nat) → {t u : Tree height} →
    Copies P height t u →
    (insert v height t).Copies P (Copies P height) (insert w height u)
  | 0, _, _, h => Leaf.insert_copies hP hvw h
  | height + 1, _, _, h =>
    Row.insert_copies hP hvw (fun _ _ h => insert_copies hP hvw height h) h

/-- So does taking out. -/
theorem erase_copies (hP : Ordered P) :
    (height : Nat) → {v w : Int} → {t u : Tree height} →
    P v w → Copies P height t u →
    Copies P height (erase height v t) (erase height w u)
  | 0, _, _, _, _, hvw, h => Leaf.erase_copies hP hvw h
  | height + 1, _, _, _, _, hvw, h =>
    Row.erase_copies hP (keepsCopies height) hvw
      (fun _ _ h => size_copies height h)
      (fun _ _ _ _ hvw h => erase_copies hP height hvw h) h

end Tree

/-! ## Domains -/

/-- Domains whose trees have one shape and keys that go together. -/
inductive Copies (P : Int → Int → Prop) : Domain → Domain → Prop
  | mk {n : Nat} {t u : Tree n} {h h' hs hs'} (hcopies : Tree.Copies P n t u) :
      Copies P ⟨n, t, h, hs⟩ ⟨n, u, h', hs'⟩

namespace Copies

variable {d e : Domain}

theorem empty : Copies P ∅ ∅ := .mk (n := 0) .nil

/-- Copies have the same number of members, and these go together in their
order. -/
theorem toList (h : d.Copies P e) : List.Forall₂ P d.toList e.toList := by
  cases h with
  | mk h => exact List.rel_reverse ((Tree.keepsCopies _).down h)

/-- On the walk down, copies show values that go together.  Nothing less than
one shape would give this. -/
theorem walk (h : d.Copies P e) : List.Forall₂ P d.walk e.walk := by
  cases h with
  | mk h => exact (Tree.keepsCopies _).walk h

/-- A domain has a value just when its copy has the partner. -/
theorem contains (h : d.Copies P e) (hP : Ordered P) (hvw : P v w) :
    e.contains w = d.contains v := by
  cases h with
  | mk h => exact Tree.contains_copies hP hvw _ h

/-- Under a new root, too, what was split stays a copy. -/
theorem ofGrown {height : Nat} {g g' : Grown (Tree height)} {h h' hs hs'}
    (hcopies : g.Copies P (Tree.Copies P height) g') :
    (Domain.ofGrown g h hs).Copies P (Domain.ofGrown g' h' hs') := by
  cases hcopies with
  | one hcopies => exact .mk hcopies
  | two hupper hk hlower =>
      exact .mk (n := height + 1) ⟨hupper, .cons ⟨hk, hlower⟩ .nil⟩

/-- A value and its partner are put into copies, and copies they stay. -/
theorem insert (h : d.Copies P e) (hP : Ordered P) (hvw : P v w) :
    (d.insert v).Copies P (e.insert w) := by
  cases h with
  | mk h => exact ofGrown (Tree.insert_copies hP hvw _ h)

/-- So they do if many values are inserted, one after another and in the same
order. -/
theorem insertAll (hP : Ordered P) (hlm : List.Forall₂ P l m) :
    ∀ {d e : Domain}, d.Copies P e →
      (d.insertAll l).Copies P (e.insertAll m) := by
  induction hlm with
  | nil => exact fun h => h
  | cons hvw _ ih => exact fun h => ih (h.insert hP hvw)

/-- **Domains that were filled in the same order are copies.** -/
theorem ofList (hP : Ordered P) (hlm : List.Forall₂ P l m) :
    (Domain.ofList l).Copies P (Domain.ofList m) :=
  insertAll hP hlm empty

/-- A root without keys gives way in the copy as well. -/
theorem ofTree :
    (height : Nat) → {t u : Tree height} → {h : _} → {h' : _} → {hs : _} →
    {hs' : _} →
    Tree.Copies P height t u →
      (Domain.ofTree height t h hs).Copies P (Domain.ofTree height u h' hs')
  | 0, _, _, _, _, _, _, hcopies => .mk hcopies
  | height + 1, ⟨top, rest⟩, ⟨top', rest'⟩, _, _, _, _, hcopies => by
      obtain ⟨htop, hrest⟩ := hcopies
      cases hrest with
      | nil => exact .mk htop
      | cons hpq hrest => exact .mk (n := height + 1) ⟨htop, .cons hpq hrest⟩

/-- **Taking out keeps to the copy.** -/
theorem erase (h : d.Copies P e) (hP : Ordered P) (hvw : P v w) :
    (d.erase v).Copies P (e.erase w) := by
  rw [Domain.erase, Domain.erase]
  simp only [h.contains hP hvw]
  split
  · cases h with
    | mk h => exact ofTree _ (Tree.erase_copies hP _ hvw h)
  · exact h

/-- Going up, tests that agree on what goes together find values that go
together, or both find none. -/
theorem findUp? (h : d.Copies P e) {p q : Int → Bool}
    (hpq : ∀ a b, P a b → q b = p a) :
    Option.Rel P (d.findUp? p) (e.findUp? q) := by
  rw [findUp?_eq, findUp?_eq]
  exact rel_find? hpq h.toList

/-- The same going down, along the walks. -/
theorem findDown? (h : d.Copies P e) {p q : Int → Bool}
    (hpq : ∀ a b, P a b → q b = p a) :
    Option.Rel P (d.findDown? p) (e.findDown? q) := by
  rw [findDown?_eq, findDown?_eq]
  exact rel_find? hpq h.walk

end Copies

end Domain

end ConstraintNet
