import Mathlib.Data.List.Forall2
import ConstraintNet.Proofs.Selection

/-!
# Pairings of values

A pairing says which value of one network goes with which of another, each with
one at most.  Two sets are paired when every member of either goes with a member
of the other.  Then they have the same size; and if the pairing carries one
order over to another, then the sets, listed by these orders, are paired member
by member.
-/

namespace ConstraintNet

open Relator (BiUnique)

/-- Every member of either set goes with a member of the other. -/
structure Paired (P : Int → Int → Prop) (A B : Int → Prop) : Prop where
  forth : ∀ a, A a → ∃ b, B b ∧ P a b
  back : ∀ b, B b → ∃ a, A a ∧ P a b

namespace Paired

variable {P : Int → Int → Prop} {A A' B B' : Int → Prop} {l l' : List Int}
  {a b : Int}

/-- Values that go together are both members or neither is. -/
theorem iff (h : Paired P A B) (hP : BiUnique P) (hab : P a b) : A a ↔ B b := by
  constructor
  · intro ha
    obtain ⟨b', hb', hab'⟩ := h.forth a ha
    exact hP.2 hab' hab ▸ hb'
  · intro hb
    obtain ⟨a', ha', hab'⟩ := h.back b hb
    exact hP.1 hab' hab ▸ ha'

theorem empty : Paired P (fun _ => False) (fun _ => False) :=
  ⟨fun _ h => h.elim, fun _ h => h.elim⟩

/-- The members that pass tests which agree on values that go together. -/
theorem sep (h : Paired P A B) {p q : Int → Prop}
    (hpq : ∀ a b, P a b → (p a ↔ q b)) :
    Paired P (fun v => A v ∧ p v) (fun v => B v ∧ q v) where
  forth a ha := by
    obtain ⟨b, hb, hab⟩ := h.forth a ha.1
    exact ⟨b, ⟨hb, (hpq a b hab).mp ha.2⟩, hab⟩
  back b hb := by
    obtain ⟨a, ha, hab⟩ := h.back b hb.1
    exact ⟨a, ⟨ha, (hpq a b hab).mpr hb.2⟩, hab⟩

/-- Members of either set are paired with members of either set. -/
theorem or (h : Paired P A B) (h' : Paired P A' B') :
    Paired P (fun v => A v ∨ A' v) (fun v => B v ∨ B' v) where
  forth a ha := ha.elim
    (fun ha => (h.forth a ha).imp fun _ hb => ⟨.inl hb.1, hb.2⟩)
    fun ha => (h'.forth a ha).imp fun _ hb => ⟨.inr hb.1, hb.2⟩
  back b hb := hb.elim
    (fun hb => (h.back b hb).imp fun _ ha => ⟨.inl ha.1, ha.2⟩)
    fun hb => (h'.back b hb).imp fun _ ha => ⟨.inr ha.1, ha.2⟩

theorem congr (h : Paired P A B) (hA : ∀ a, A' a ↔ A a) (hB : ∀ b, B' b ↔ B b) :
    Paired P A' B' where
  forth a ha :=
    (h.forth a ((hA a).mp ha)).imp fun b hb => ⟨(hB b).mpr hb.1, hb.2⟩
  back b hb := (h.back b ((hB b).mp hb)).imp fun a ha => ⟨(hA a).mpr ha.1, ha.2⟩

/-! ## Lists -/

/-- Lists that are paired member by member. -/
theorem of_forall₂ (h : List.Forall₂ P l l') : Paired P (· ∈ l) (· ∈ l') := by
  induction h with
  | nil => exact empty.congr (by simp) (by simp)
  | @cons a b l l' hab _ ih =>
      have hhead : Paired P (· = a) (· = b) :=
        ⟨fun _ ha => ⟨b, rfl, ha ▸ hab⟩, fun _ hb => ⟨a, rfl, hb ▸ hab⟩⟩
      exact (hhead.or ih).congr (fun _ => List.mem_cons) fun _ => List.mem_cons

/-- What is left of paired lists without two values that go together. -/
theorem erase (h : Paired P (· ∈ l) (· ∈ l')) (hP : BiUnique P) (hl : l.Nodup)
    (hl' : l'.Nodup) (hab : P a b) :
    Paired P (· ∈ l.erase a) (· ∈ l'.erase b) := by
  have hne : ∀ v w, P v w → (v ≠ a ↔ w ≠ b) := fun v w hvw =>
    not_congr ⟨fun he => hP.2 (he ▸ hvw) hab, fun he => hP.1 (he ▸ hvw) hab⟩
  refine (h.sep hne).congr (fun v => ?_) fun w => ?_
  · rw [hl.mem_erase_iff, and_comm]
  · rw [hl'.mem_erase_iff, and_comm]

/-- **Paired lists without repeats have the same length.** -/
theorem length_eq (hP : BiUnique P) :
    ∀ {l l' : List Int}, Paired P (· ∈ l) (· ∈ l') → l.Nodup →
    l'.Nodup → l'.length = l.length := by
  intro l
  induction l with
  | nil =>
      intro l' h _ _
      cases l' with
      | nil => rfl
      | cons b l' =>
          obtain ⟨a, ha, _⟩ := h.back b List.mem_cons_self
          cases ha
  | cons a l ih =>
      intro l' h hl hl'
      obtain ⟨b, hb, hab⟩ := h.forth a List.mem_cons_self
      have hrest : Paired P (· ∈ l) (· ∈ l'.erase b) := by
        simpa using h.erase hP hl hl' hab
      have := ih hrest (List.nodup_cons.mp hl).2 (hl'.erase b)
      rw [List.length_cons, ← this, List.length_erase_of_mem hb]
      have := List.length_pos_of_mem hb
      omega

/-- A list in an order that no two go both ways has no repetitions. -/
theorem nodup_of_pairwise {R : Int → Int → Prop}
    (hR : ∀ a a', R a a' → ¬ R a' a) (h : l.Pairwise R) : l.Nodup :=
  h.imp fun hab heq => by
    subst heq
    exact hR _ _ hab hab

/-- **Paired lists are paired member by member** if each is ordered and the
pairing carries one order over to the other. -/
theorem forall₂ {R R' : Int → Int → Prop} (hP : BiUnique P)
    (hR : ∀ a a', R a a' → ¬ R a' a) (hR' : ∀ b b', R' b b' → ¬ R' b' b)
    (hRR' : ∀ a b a' b', P a b → P a' b' → (R a a' ↔ R' b b')) :
    ∀ {l l' : List Int}, Paired P (· ∈ l) (· ∈ l') → l.Pairwise R →
      l'.Pairwise R' →
      List.Forall₂ P l l' := by
  intro l
  induction l with
  | nil =>
      intro l' h _ _
      cases l' with
      | nil => exact .nil
      | cons b l' =>
          obtain ⟨a, ha, _⟩ := h.back b List.mem_cons_self
          cases ha
  | cons a l ih =>
      intro l' h hl hl'
      cases l' with
      | nil =>
          obtain ⟨b, hb, _⟩ := h.forth a List.mem_cons_self
          cases hb
      | cons b l' =>
          obtain ⟨ha, hrest⟩ := List.pairwise_cons.mp hl
          obtain ⟨hb, hrest'⟩ := List.pairwise_cons.mp hl'
          -- The partner of `b` comes no later than `a`, and that of `a` no
          -- later than `b`.
          have hab : P a b := by
            obtain ⟨a', ha', hab'⟩ := h.back b List.mem_cons_self
            obtain ⟨b', hb', ha'b'⟩ := h.forth a List.mem_cons_self
            rcases List.mem_cons.mp ha' with rfl | ha'
            · exact hab'
            · rcases List.mem_cons.mp hb' with rfl | hb'
              · exact ha'b'
              · have hearlier := (hRR' a' b a b' hab' ha'b').mpr (hb b' hb')
                exact absurd hearlier (hR a a' (ha a' ha'))
          have hpaired : Paired P (· ∈ l) (· ∈ l') := by
            simpa using h.erase hP (nodup_of_pairwise hR hl)
              (nodup_of_pairwise hR' hl') hab
          exact .cons hab (ih hpaired hrest hrest')

end Paired

/-! ## Optional values and lists -/

/-- Two optional values that are related are both missing or both there. -/
theorem cases_of_rel {α β : Type} {R : α → β → Prop} {x : Option α}
    {y : Option β} (h : Option.Rel R x y) :
    (x = none ∧ y = none) ∨ ∃ a b, x = some a ∧ y = some b ∧ R a b := by
  cases h with
  | none => exact .inl ⟨rfl, rfl⟩
  | some hab => exact .inr ⟨_, _, rfl, rfl, hab⟩

/-- First choices are related, or else second choices are. -/
theorem rel_or {α β : Type} {R : α → β → Prop} {x x' : Option α}
    {y y' : Option β} (h : Option.Rel R x y) (h' : Option.Rel R x' y') :
    Option.Rel R (x <|> x') (y <|> y') := by
  cases h with
  | none => exact h'
  | some hab => exact .some hab

/-- Related lists have related first members, or none. -/
theorem rel_head? {α β : Type} {R : α → β → Prop} {l : List α} {m : List β}
    (h : List.Forall₂ R l m) : Option.Rel R l.head? m.head? := by
  cases h with
  | nil => exact .none
  | cons hab _ => exact .some hab

/-- They have related last members, or none. -/
theorem rel_getLast? {α β : Type} {R : α → β → Prop} {l : List α} {m : List β}
    (h : List.Forall₂ R l m) : Option.Rel R l.getLast? m.getLast? := by
  rw [List.getLast?_eq_head?_reverse, List.getLast?_eq_head?_reverse]
  exact rel_head? (List.rel_reverse h)

/-- Without their last members they are still related. -/
theorem forall₂_dropLast {α β : Type} {R : α → β → Prop} {l : List α}
    {m : List β} (h : List.Forall₂ R l m) :
    List.Forall₂ R l.dropLast m.dropLast := by
  rw [List.dropLast_eq_take, List.dropLast_eq_take, ← h.length_eq]
  exact List.forall₂_take _ h

/-- Functions that agree on related members give equal lists. -/
theorem map_eq_of_forall₂ {α β γ : Type} {R : α → β → Prop} {l : List α}
    {m : List β} (h : List.Forall₂ R l m) {f : α → γ} {g : β → γ}
    (hfg : ∀ a b, R a b → g b = f a) : m.map g = l.map f := by
  induction h with
  | nil => rfl
  | cons hab _ ih => rw [List.map_cons, List.map_cons, hfg _ _ hab, ih]

/-- The first members that pass tests which agree. -/
theorem rel_find? {α β : Type} {R : α → β → Prop} {l : List α} {m : List β}
    {p : α → Bool} {q : β → Bool} (hpq : ∀ a b, R a b → q b = p a)
    (h : List.Forall₂ R l m) : Option.Rel R (l.find? p) (m.find? q) := by
  induction h with
  | nil => exact .none
  | @cons a b l m hab _ ih =>
      rw [List.find?_cons, List.find?_cons, hpq a b hab]
      cases p a with
      | true => exact .some hab
      | false => exact ih

/-! ## Orders -/

/-- What comes first under one order goes with what comes first under the
other. -/
def ValueOrder.Carries (P : Int → Int → Prop) (o o' : ValueOrder) : Prop :=
  ∀ a b a' b', P a b → P a' b' → (o.Before a a' ↔ o'.Before b b')

namespace ValueOrder

variable {P : Int → Int → Prop} {o o' : ValueOrder} {a b : Int}

/-- No two values come before each other. -/
theorem Before.asymm (h : o.Before a b) : ¬ o.Before b a := by
  cases o <;> exact Int.lt_asymm h

/-- Of two different values one comes before the other. -/
theorem before_or_before (o : ValueOrder) (h : a ≠ b) :
    o.Before a b ∨ o.Before b a := by
  rcases Int.lt_or_gt_of_ne h with h | h
  · cases o
    · exact .inl h
    · exact .inr h
  · cases o
    · exact .inr h
    · exact .inl h

/-- A pairing that carries an order over gives each value one partner. -/
theorem Carries.biUnique (h : o.Carries P o') : BiUnique P := by
  have hirrefl : ∀ {o : ValueOrder} {v}, ¬ o.Before v v := fun hv => hv.asymm hv
  constructor
  · intro a a' b hab hab'
    apply Classical.byContradiction
    intro hne
    rcases o.before_or_before hne with hlt | hlt
    · exact hirrefl ((h a b a' b hab hab').mp hlt)
    · exact hirrefl ((h a' b a b hab' hab).mp hlt)
  · intro a b b' hab hab'
    apply Classical.byContradiction
    intro hne
    rcases o'.before_or_before hne with hlt | hlt
    · exact hirrefl ((h a b a b' hab hab').mpr hlt)
    · exact hirrefl ((h a b' a b hab' hab).mpr hlt)

end ValueOrder

end ConstraintNet
