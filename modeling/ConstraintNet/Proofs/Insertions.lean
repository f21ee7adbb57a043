import ConstraintNet.Proofs.Engines

/-!
# Networks of insertions

A network denotes the intersection of what was put into it.  An insertion on
both arcs is one insertion on each, so that all insertions are a list of
constraints, each on its own arc; what an arc carries after them is settled
constraint by constraint.  The links grow beside the constraints, by both ends
of each arc, so that they too are told by what was put in.  Nothing depends on
the order in which it came, although the pairs that an arc keeps do.
-/

namespace ConstraintNet

/-- A list in an order that never goes both ways is known by its members. -/
theorem eq_iff_of_asymm {α : Type} {r : α → α → Prop}
    (hr : ∀ a b, r a b → ¬ r b a) {l m : List α} (hl : l.Pairwise r) :
    l = m ↔ m.Pairwise r ∧ ∀ a, a ∈ m ↔ a ∈ l := by
  constructor
  · rintro rfl
    exact ⟨hl, fun _ => Iff.rfl⟩
  · rintro ⟨hm, hmem⟩
    have hne : ∀ {a b : α}, r a b → a ≠ b := fun {a b} hab heq => by
      subst heq
      exact hr a a hab hab
    have hperm : l.Perm m :=
      (List.perm_ext_iff_of_nodup (hl.imp hne) (hm.imp hne)).mpr fun a =>
        (hmem a).symm
    exact hperm.eq_of_pairwise (fun a b _ _ hab hba =>
      absurd hba (hr a b hab)) hl hm

/-- A constraint that is put into a network, on its own arc or on both. -/
inductive Insertion
  | directed (c : Constraint)
  | symmetric (c : Constraint)

namespace Insertion

/-- The network after the insertion. -/
def perform (net : Network) : Insertion → Network
  | directed c => net.insert c
  | symmetric c => net.insertSymmetric c

/-- The constraints that the insertion puts on their own arcs, in their
order. -/
def parts : Insertion → List Constraint
  | directed c => [c]
  | symmetric c => [c.transposed, c]

/-- An insertion performs its parts one after another. -/
theorem perform_eq (net : Network) (i : Insertion) :
    i.perform net = i.parts.foldl Network.insert net := by
  cases i <;> rfl

/-- Every part is a constraint that was given directed, given symmetric, or
whose other direction was given symmetric. -/
theorem mem_flatMap_parts {l : List Insertion} {c : Constraint} :
    c ∈ l.flatMap parts ↔ (directed c ∈ l ∨ symmetric c ∈ l) ∨
    symmetric c.transposed ∈ l := by
  rw [List.mem_flatMap]
  constructor
  · rintro ⟨i, hi, hc⟩
    cases i with
    | directed d =>
        cases List.mem_singleton.mp hc
        exact .inl (.inl hi)
    | symmetric d =>
        rcases List.mem_cons.mp hc with rfl | hc
        · rw [Constraint.transposed_transposed]
          exact .inr hi
        · cases List.mem_singleton.mp hc
          exact .inl (.inr hi)
  · rintro ((hi | hi) | hi)
    · exact ⟨_, hi, List.mem_singleton_self c⟩
    · exact ⟨_, hi, List.mem_cons_of_mem _ (List.mem_singleton_self c)⟩
    · exact ⟨_, hi, List.mem_cons.mpr (.inl c.transposed_transposed.symm)⟩

/-- Some of the insertions puts a constraint on the arc: one on its own arc
only, or one on both arcs from either end. -/
def Reach (l : List Insertion) (a : Arc) : Prop :=
  ∃ c, (directed c ∈ l ∨ symmetric c ∈ l) ∧ c.arc = a ∨
    symmetric c ∈ l ∧ c.arc = a.reverse

/-- All insertions that put a constraint on the arc list the pair there. -/
def Permit (l : List Insertion) (a : Arc) (x y : Int) : Prop :=
  (∀ c, directed c ∈ l ∨ symmetric c ∈ l → c.arc = a → (x, y) ∈ c.pairs) ∧
    ∀ c, symmetric c ∈ l → c.arc = a.reverse → (y, x) ∈ c.pairs

end Insertion

/-- The network of a list of insertions. -/
def Network.ofInsertions (l : List Insertion) : Network :=
  l.foldl (fun net i => i.perform net) ∅

namespace Network

variable {net : Network} {l : List Constraint} {a : Arc} {x y : Int}

/-! ## Ascending lists -/

/-- The arcs come in the order of their tails, and then of their heads. -/
theorem arcs_ascending (net : Network) :
    net.arcs.Pairwise fun a b =>
      a.tail < b.tail ∨ a.tail = b.tail ∧ a.head < b.head :=
  Std.ExtTreeMap.ordered_keys.imp Arc.compare_eq_lt.mp

/-- Of two arcs at most one comes first. -/
theorem not_before_of_before (a b : Arc)
    (h : a.tail < b.tail ∨ a.tail = b.tail ∧ a.head < b.head) :
    ¬ (b.tail < a.tail ∨ b.tail = a.tail ∧ b.head < a.head) := by omega

/-- Two networks with a constraint on the same arcs list them alike. -/
theorem arcs_eq_of_isSome {net net' : Network}
    (h : ∀ a, (net.find? a).isSome ↔ (net'.find? a).isSome) :
    net.arcs = net'.arcs :=
  (eq_iff_of_asymm not_before_of_before net.arcs_ascending).mpr
    ⟨net'.arcs_ascending, fun a => by rw [mem_arcs, mem_arcs, h a]⟩

/-! ## One constraint at a time -/

/-- On each arc the network carries what all the constraints of a list on that
arc allow. -/
structure Meets (net : Network) (l : List Constraint) : Prop where
  carried : ∀ a, (net.find? a).isSome ↔ ∃ c ∈ l, c.arc = a
  scope : ∀ a d, net.find? a = some d → d.arc = a
  listed : ∀ a d, net.find? a = some d → ∀ x y, (x, y) ∈ d.pairs ↔
    ∀ c ∈ l, c.arc = a → (x, y) ∈ c.pairs

/-- The empty network meets an empty list of constraints: nothing is found on
any arc. -/
theorem meets_empty : (∅ : Network).Meets [] where
  carried a := by simp
  scope a d hd := by simp at hd
  listed a d hd := by simp at hd

/-- Only which constraints there are counts, not their order or how often they
come. -/
theorem Meets.of_mem {l' : List Constraint} (h : net.Meets l)
    (hmem : ∀ c, c ∈ l ↔ c ∈ l') : net.Meets l' where
  carried a := by simpa only [hmem] using h.carried a
  scope := h.scope
  listed a d hd := by simpa only [hmem] using h.listed a d hd

/-- One more constraint is met by inserting it. -/
theorem Meets.insert (h : net.Meets l) (c : Constraint) :
    (net.insert c).Meets (l ++ [c]) where
  carried a := by
    rw [find?_insert]
    by_cases hca : c.arc = a
    · simp [hca]
    · simp [hca, h.carried a]
  scope a d hd := by
    rw [find?_insert] at hd
    by_cases hca : c.arc = a
    · rw [if_pos hca] at hd
      cases hold : net.find? a with
      | none =>
          rw [hold] at hd
          cases hd
          exact hca
      | some e =>
          rw [hold] at hd
          cases hd
          exact h.scope a e hold
    · rw [if_neg hca] at hd
      exact h.scope a d hd
  listed a d hd x y := by
    simp only [List.mem_append, List.mem_singleton, or_imp, forall_and,
      forall_eq]
    by_cases hca : c.arc = a
    · subst hca
      obtain ⟨e, he, hpairs⟩ := exists_find?_insert net c
      cases he.symm.trans hd
      -- Either the arc carried what the constraints so far allow, or none of
      -- them is on it.
      have hold : (∀ d, net.find? c.arc = some d → (x, y) ∈ d.pairs) ↔
          ∀ b ∈ l, b.arc = c.arc → (x, y) ∈ b.pairs := by
        cases hfind : net.find? c.arc with
        | none =>
            have hnone : ¬ ∃ b ∈ l, b.arc = c.arc := by
              rw [← h.carried, hfind]
              simp
            exact ⟨fun _ b hb hbc => absurd ⟨b, hb, hbc⟩ hnone,
              fun _ d hd => nomatch hd⟩
        | some d =>
            rw [← h.listed _ d hfind]
            simp
      rw [hpairs, hold]
      simp
    · rw [find?_insert_of_ne hca] at hd
      rw [h.listed a d hd x y]
      simp [hca]

/-- **A network meets the constraints that were put into it.** -/
theorem meets_ofConstraints (l : List Constraint) :
    (ofConstraints l).Meets l := by
  have hrun : ∀ (l done : List Constraint) (net : Network), net.Meets done →
      (l.foldl Network.insert net).Meets (done ++ l) := by
    intro l
    induction l with
    | nil => simp
    | cons c l ih =>
        intro done net h
        have := ih (done ++ [c]) (net.insert c) (h.insert c)
        rwa [List.append_assoc] at this
  exact hrun l [] ∅ meets_empty

/-- A network of insertions is that of their parts, in order. -/
theorem ofInsertions_eq (l : List Insertion) :
    ofInsertions l = ofConstraints (l.flatMap Insertion.parts) := by
  simp only [ofInsertions, ofConstraints, List.foldl_flatMap,
    Insertion.perform_eq]

/-! ## What a network denotes -/

/-- **What can be asked of a network has the answer that a list of insertions
gives**: which arcs carry a constraint, what is allowed on them, and what they
link.  Lists are told by their order and their members. -/
structure Denotes (net : Network) (l : List Insertion) : Prop where
  isSome : ∀ a, (net.find? a).isSome ↔ Insertion.Reach l a
  scope : ∀ a c, net.find? a = some c → c.arc = a
  allows : ∀ a x y, net.allows a x y ↔ Insertion.Permit l a x y
  supports : ∀ x a ys, (net.supports x a).toList = ys ↔
    ys.Pairwise (· < ·) ∧
      ∀ y, y ∈ ys ↔ Insertion.Reach l a ∧ Insertion.Permit l a x y
  neighbors : ∀ i js, net.neighbors i = js ↔
    js.Pairwise (· < ·) ∧ ∀ j, j ∈ js ↔ Insertion.Reach l ⟨i, j⟩
  incident : ∀ j is, net.incident j = is ↔
    is.Pairwise (· < ·) ∧ ∀ i, i ∈ is ↔ Insertion.Reach l ⟨i, j⟩
  degree : ∀ i, net.degree i = (net.neighbors i).length
  arcs : ∀ as, net.arcs = as ↔
    (as.Pairwise fun a b => a.tail < b.tail ∨
        a.tail = b.tail ∧ a.head < b.head) ∧
      ∀ a, a ∈ as ↔ Insertion.Reach l a
  maxVariable? : ∀ k, net.maxVariable? = some k ↔
    (∃ a, Insertion.Reach l a ∧ (k = a.tail ∨ k = a.head)) ∧
      ∀ a, Insertion.Reach l a → a.tail ≤ k ∧ a.head ≤ k
  maxVariable?_none : net.maxVariable? = none ↔ ∀ a, ¬ Insertion.Reach l a

/-- Whether a network allows a pair is told by the constraint on the arc. -/
theorem allows_iff_forall :
    net.allows a x y ↔ ∀ d, net.find? a = some d → (x, y) ∈ d.pairs := by
  cases hd : net.find? a <;> simp [allows, hd]

/-- The supports of a value on an arc are what the arc allows with it; without a
constraint there are none. -/
theorem mem_supports_iff :
    y ∈ net.supports x a ↔ (net.find? a).isSome ∧ net.allows a x y := by
  cases hd : net.find? a <;> simp [supports, allows, hd]

/-- A network without arcs names no variable, and only such a network. -/
theorem maxVariable?_eq_none : net.maxVariable? = none ↔ net.arcs = [] := by
  rw [maxVariable?, List.max?_eq_none_iff, List.flatMap_eq_nil_iff]
  constructor
  · intro h
    refine List.eq_nil_iff_forall_not_mem.mpr fun a ha => ?_
    exact List.cons_ne_nil _ _ (h a ha)
  · intro h a ha
    rw [h] at ha
    exact absurd ha List.not_mem_nil

/-- An arc carries a constraint just where some insertion reaches it. -/
theorem Meets.isSome {l : List Insertion}
    (h : net.Meets (l.flatMap Insertion.parts)) (a : Arc) :
    (net.find? a).isSome ↔ Insertion.Reach l a := by
  rw [h.carried]
  constructor
  · rintro ⟨c, hc, rfl⟩
    rcases Insertion.mem_flatMap_parts.mp hc with hc | hc
    · exact ⟨c, .inl ⟨hc, rfl⟩⟩
    · exact ⟨c.transposed, .inr ⟨hc, rfl⟩⟩
  · rintro ⟨c, ⟨hc, hca⟩ | ⟨hc, hca⟩⟩
    · exact ⟨c, Insertion.mem_flatMap_parts.mpr (.inl hc), hca⟩
    · refine ⟨c.transposed, Insertion.mem_flatMap_parts.mpr (.inr ?_),
        congrArg Arc.reverse hca⟩
      rwa [Constraint.transposed_transposed]

/-- A pair is allowed just where all insertions permit it. -/
theorem Meets.allows {l : List Insertion}
    (h : net.Meets (l.flatMap Insertion.parts)) (a : Arc) (x y : Int) :
    net.allows a x y ↔ Insertion.Permit l a x y := by
  have hall : net.allows a x y ↔
      ∀ c ∈ l.flatMap Insertion.parts, c.arc = a → (x, y) ∈ c.pairs := by
    rw [allows_iff_forall]
    cases hd : net.find? a with
    | none =>
        have hnone : ¬ ∃ c ∈ l.flatMap Insertion.parts, c.arc = a := by
          rw [← h.carried, hd]
          simp
        exact ⟨fun _ c hc hca => absurd ⟨c, hc, hca⟩ hnone,
          fun _ d hd => nomatch hd⟩
    | some d =>
        rw [← h.listed a d hd]
        simp
  rw [hall]
  constructor
  · intro hpairs
    refine ⟨fun c hc => hpairs c (Insertion.mem_flatMap_parts.mpr (.inl hc)),
      fun c hc hca => ?_⟩
    apply Constraint.mem_pairs_transposed.mp
    refine hpairs _ (Insertion.mem_flatMap_parts.mpr (.inr ?_))
      (congrArg Arc.reverse hca)
    rwa [Constraint.transposed_transposed]
  · rintro ⟨hown, hback⟩ c hc hca
    rcases Insertion.mem_flatMap_parts.mp hc with hc | hc
    · exact hown c hc hca
    · exact Constraint.mem_pairs_transposed.mp
        (hback _ hc (congrArg Arc.reverse hca))

/-- What an arc and the links answer follows from which arcs there are and what
they allow. -/
theorem Meets.denotes {l : List Insertion}
    (h : net.Meets (l.flatMap Insertion.parts)) : net.Denotes l where
  isSome := h.isSome
  scope := h.scope
  allows := h.allows
  supports x a ys := by
    rw [eq_iff_of_asymm (fun _ _ => Int.lt_asymm) (net.supports x a).ascending]
    simp only [← ValueSet.mem_def, mem_supports_iff, h.isSome, h.allows]
  neighbors i js := by
    rw [eq_iff_of_asymm (fun _ _ => Nat.lt_asymm) (net.neighbors_ascending i)]
    simp only [mem_neighbors, h.isSome]
  incident j is := by
    rw [eq_iff_of_asymm (fun _ _ => Nat.lt_asymm) (net.incident_ascending j)]
    simp only [mem_incident, h.isSome]
  degree := net.degree_eq_length
  arcs as := by
    rw [eq_iff_of_asymm not_before_of_before net.arcs_ascending]
    simp only [mem_arcs, h.isSome]
  maxVariable? k := by
    rw [maxVariable?_eq_some]
    simp only [mem_arcs, h.isSome]
  maxVariable?_none := by
    rw [maxVariable?_eq_none, List.eq_nil_iff_forall_not_mem]
    simp only [mem_arcs, h.isSome]

/-- Networks that have the same arcs and allow the same on each. -/
structure Matches (net net' : Network) : Prop where
  arcs : net.arcs = net'.arcs
  allows : ∀ a x y, net.allows a x y = net'.allows a x y

/-- Two networks that denote the same insertions match. -/
theorem Denotes.matches {net' : Network} {l : List Insertion}
    (h : net.Denotes l) (h' : net'.Denotes l) : net.Matches net' where
  arcs := arcs_eq_of_isSome fun a => (h.isSome a).trans (h'.isSome a).symm
  allows a x y :=
    Bool.eq_iff_iff.mpr ((h.allows a x y).trans (h'.allows a x y).symm)

/-- Insertions on both arcs alone leave transposed relations on opposite
arcs. -/
theorem Denotes.reverse {l : List Insertion} (h : net.Denotes l)
    (hsymmetric : ∀ c, .directed c ∉ l) (a : Arc) :
    ((net.find? a).isSome ↔ (net.find? a.reverse).isSome) ∧
      ∀ x y, net.allows a x y ↔ net.allows a.reverse y x := by
  have hcases : ∀ c, Insertion.directed c ∈ l ∨ .symmetric c ∈ l ↔
      .symmetric c ∈ l :=
    fun c => or_iff_right (hsymmetric c)
  have hback : ∀ c : Constraint, c.arc = a.reverse.reverse ↔
      c.arc = a := fun c => by
    rw [Arc.reverse_reverse]
  constructor
  · rw [h.isSome, h.isSome]
    simp only [Insertion.Reach, hcases, hback]
    exact exists_congr fun c => or_comm
  · intro x y
    rw [h.allows, h.allows]
    simp only [Insertion.Permit, hcases, hback]
    exact and_comm

/-- A network of insertions meets the constraints they put in, and those of any
other list with the same insertions. -/
theorem meets_ofInsertions {l l' : List Insertion}
    (hmem : ∀ i, i ∈ l ↔ i ∈ l') :
    (ofInsertions l).Meets (l'.flatMap Insertion.parts) := by
  rw [ofInsertions_eq]
  refine (meets_ofConstraints _).of_mem fun c => ?_
  simp only [List.mem_flatMap, hmem]

/-- A network that is made of insertions, in any order and number, denotes what
they say, in all three of its indices. -/
theorem denotes_ofInsertions (l : List Insertion) :
    (ofInsertions l).Denotes l :=
  (meets_ofInsertions fun _ => Iff.rfl).denotes

/-- **A network denotes what was put into it.**  Any other order of the
insertions gives a network that matches it, and insertions on both arcs alone
give a network in which opposite arcs carry transposed relations. -/
theorem ofInsertions_denotes (l : List Insertion) :
    (ofInsertions l).Denotes l ∧
    (∀ l' : List Insertion, (∀ i, i ∈ l ↔ i ∈ l') →
      (ofInsertions l).Matches (ofInsertions l')) ∧
    ((∀ c, .directed c ∉ l) → ∀ a,
      ((ofInsertions l).find? a).isSome =
        ((ofInsertions l).find? a.reverse).isSome ∧
      ∀ c d, (ofInsertions l).find? a = some c →
        (ofInsertions l).find? a.reverse = some d →
        d.first = c.second ∧ d.second = c.first ∧
        ∀ x y, (y, x) ∈ d.pairs ↔ (x, y) ∈ c.pairs) := by
  have hdenotes := denotes_ofInsertions l
  refine ⟨hdenotes, fun l' hmem =>
      (meets_ofInsertions hmem).denotes.matches (denotes_ofInsertions l'),
    fun hsymmetric a => ?_⟩
  obtain ⟨hsome, hallows⟩ := hdenotes.reverse hsymmetric a
  refine ⟨Bool.eq_iff_iff.mpr hsome, fun c d hc hd => ?_⟩
  have hscope : c.arc = d.arc.reverse := by
    rw [hdenotes.scope a c hc, hdenotes.scope _ d hd, Arc.reverse_reverse]
  refine ⟨(congrArg Arc.head hscope).symm, (congrArg Arc.tail hscope).symm,
    fun x y => ?_⟩
  have := hallows x y
  simpa [Network.allows, hc, hd, Iff.comm] using this

end Network

end ConstraintNet
