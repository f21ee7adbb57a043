import Mathlib.Algebra.GroupWithZero.Nat
import Mathlib.Data.List.Nodup
import ConstraintNet.Proofs.Exclusions

/-!
# Batches that come and go

What is asked of a stack is to push a batch or to pop one.  A push fails at the
first value that is excluded already, be it by the stack or by the values before
it in the batch, and nothing else fails.

In a course of operations pushes and pops stand like brackets.  Between a push
and the pop that belongs to it every batch that is pushed is popped.  So a pop
meets the batch of the last push that was not answered yet, and leaves the stack
as it was before that push.
-/

namespace ConstraintNet.Exclusion.Stack

/-! ## Operations -/

/-- What may be asked of a stack. -/
inductive Operation
  | push (batch : List Int)
  | pop

/-- The stack after an operation.  A pop of an empty stack changes nothing. -/
def perform (t : Stack) : Operation → Except Fault Stack
  | .push batch => (t.push batch).map Prod.snd
  | .pop => .ok (t.pop?.elim t Prod.snd)

/-- The stack after operations, one after the other. -/
def performAll (t : Stack) (l : List Operation) : Except Fault Stack :=
  l.foldlM perform t

variable {t u w : Stack} {batch : List Int} {l m : List Operation}
  {o : Operation} {e : Fault}

/-- Operations are performed from the first on. -/
theorem performAll_cons_eq_ok :
    t.performAll (o :: l) = .ok w ↔
    ∃ u, t.perform o = .ok u ∧ u.performAll l = .ok w := by
  rw [performAll, List.foldlM_cons]
  refine ⟨of_bind_eq_ok, ?_⟩
  rintro ⟨u, hu, hw⟩
  rw [hu]
  exact hw

/-- A sequence is performed in two parts, one on what the other left. -/
theorem performAll_append_eq_ok :
    t.performAll (l ++ m) = .ok w ↔
    ∃ u, t.performAll l = .ok u ∧ u.performAll m = .ok w := by
  rw [performAll, List.foldlM_append]
  refine ⟨of_bind_eq_ok, ?_⟩
  rintro ⟨u, hu, hw⟩
  rw [← performAll, hu]
  exact hw

/-! ## When a push fails -/

/-- **A batch is refused for its first value that is excluded already**, by the
set or by the values before it. -/
theorem exclude_eq_error_iff {kind : Kind} {s : Std.ExtTreeSet Int} :
    exclude kind s batch = .error e ↔
      ∃ front v rest, batch = front ++ v :: rest ∧ front.Nodup ∧
        (∀ x ∈ front, x ∉ s) ∧
        (v ∈ front ∨ v ∈ s) ∧ e = .excludedTwice kind v := by
  induction batch generalizing s with
  | nil => simp [exclude]
  | cons a batch ih =>
      rw [exclude_cons]
      split
      · rename_i ha
        constructor
        · rintro ⟨⟩
          exact ⟨[], a, batch, rfl, List.nodup_nil, by simp, .inr ha, rfl⟩
        · rintro ⟨front, v, rest, heq, -, hfront, hv, rfl⟩
          cases front with
          | nil =>
              cases heq
              rfl
          | cons b front =>
              cases heq
              exact absurd ha (hfront a List.mem_cons_self)
      · rename_i ha
        rw [ih]
        constructor
        · rintro ⟨front, v, rest, rfl, hnodup, hfront, hv, rfl⟩
          have hout : ∀ x ∈ front, x ≠ a ∧ x ∉ s := fun x hx =>
            not_or.mp (mt mem_insert.mpr (hfront x hx))
          refine ⟨a :: front, v, rest, rfl, ?_, ?_, ?_, rfl⟩
          · exact List.nodup_cons.mpr ⟨fun hmem => (hout a hmem).1 rfl, hnodup⟩
          · exact List.forall_mem_cons.mpr ⟨ha, fun x hx => (hout x hx).2⟩
          · rw [List.mem_cons, or_comm (a := v = a), or_assoc, ← mem_insert]
            exact hv
        · rintro ⟨front, v, rest, heq, hnodup, hfront, hv, rfl⟩
          cases front with
          | nil =>
              cases heq
              exact absurd (hv.resolve_left List.not_mem_nil) ha
          | cons b front =>
              cases heq
              obtain ⟨hnot, hnodup⟩ := List.nodup_cons.mp hnodup
              refine ⟨front, v, rest, rfl, hnodup, fun x hx => ?_, ?_, rfl⟩
              · rw [mem_insert, not_or]
                exact ⟨fun h => hnot (h ▸ hx),
                  hfront x (List.mem_cons_of_mem a hx)⟩
              · rw [mem_insert, ← or_assoc,
                  or_comm (a := v ∈ front), ← List.mem_cons]
                exact hv

/-- A push fails just where its batch cannot be excluded. -/
theorem push_eq_error_iff :
    t.push batch = .error e ↔ exclude t.kind t.excluded batch = .error e := by
  rw [push]
  split
  · rename_i hempty
    rw [List.isEmpty_iff.mp hempty, exclude]
    simp only [reduceCtorEq]
  · cases exclude t.kind t.excluded batch <;> simp

/-- A batch that is excluded has no repetitions. -/
theorem nodup_of_exclude {kind : Kind} {s r : Std.ExtTreeSet Int}
    (h : exclude kind s batch = .ok r) : batch.Nodup := by
  induction batch generalizing s with
  | nil => exact List.nodup_nil
  | cons a batch ih =>
      rw [exclude_cons] at h
      split at h
      · cases h
      · refine List.nodup_cons.mpr ⟨fun ha => ?_, ih h⟩
        exact not_mem_of_exclude h ha (mem_insert.mpr (.inl rfl))

/-- What is pushed repeats no value and holds none that is excluded. -/
theorem fits_of_push_eq_ok {b : Bool} (h : t.push batch = .ok (b, u)) :
    batch.Nodup ∧ ∀ v ∈ batch, v ∉ t.excluded := by
  rw [push] at h
  split at h
  · rename_i hempty
    rw [List.isEmpty_iff.mp hempty]
    exact ⟨List.nodup_nil, by simp⟩
  · split at h
    · rename_i hs
      exact ⟨nodup_of_exclude hs, fun v hv => not_mem_of_exclude hs hv⟩
    · cases h

/-- **A push fails just when its batch repeats a value or holds one that is
excluded.** -/
theorem exists_push_eq_error_iff :
    (∃ e, t.push batch = .error e) ↔
      ¬ batch.Nodup ∨ ∃ v ∈ batch, v ∈ t.excluded := by
  cases hpush : t.push batch with
  | error e =>
      refine ⟨fun _ => ?_, fun _ => ⟨e, rfl⟩⟩
      by_cases hnodup : batch.Nodup
      · by_contra hnone
        obtain ⟨-, hout⟩ := not_or.mp hnone
        obtain ⟨s, hs, -⟩ :=
          exclude_eq_ok t.kind hnodup fun v hv hmem => hout ⟨v, hv, hmem⟩
        rw [push_eq_error_iff, hs] at hpush
        cases hpush
      · exact .inl hnodup
  | ok r =>
      obtain ⟨b, u⟩ := r
      obtain ⟨hnodup, hout⟩ := fits_of_push_eq_ok hpush
      refine ⟨fun ⟨_, he⟩ => (nomatch he), ?_⟩
      rintro (h | ⟨v, hv, hmem⟩)
      · exact absurd hnodup h
      · exact absurd hmem (hout v hv)

/-! ## What no operation breaks -/

/-- Pushing a batch that is not empty puts it on the stack. -/
theorem of_perform_push (hne : batch ≠ [])
    (h : t.perform (.push batch) = .ok u) : t.push batch = .ok (true, u) := by
  obtain ⟨⟨b, _⟩, hpush, rfl⟩ := of_map_eq_ok h
  obtain ⟨hb, -⟩ := of_push_eq_ok hpush
  rw [hpush, hb]
  simp [hne]

/-- Popping takes the latest batch off, and does nothing to an empty stack. -/
theorem perform_pop_eq_ok :
    t.perform .pop = .ok u ↔ t.pop? = none ∧ u = t ∨
    ∃ batch, t.pop? = some (batch, u) := by
  rw [perform]
  cases t.pop? <;> simp [Prod.ext_iff, eq_comm]

/-- A stack keeps its promise through each operation. -/
theorem Lawful.perform (ht : t.Lawful) (h : t.perform o = .ok u) :
    u.Lawful ∧ u.kind = t.kind := by
  cases o with
  | push batch =>
      by_cases hne : batch = []
      · subst hne
        cases h
        exact ⟨ht, rfl⟩
      · have hpush := of_perform_push hne h
        obtain ⟨hnodup, hout⟩ := fits_of_push_eq_ok hpush
        obtain ⟨u', hpush', hkind, hbatches, -⟩ := push_eq_ok hne hnodup hout
        rw [hpush] at hpush'
        cases hpush'
        exact ⟨ht.of_push hpush hbatches hne hnodup hout, hkind⟩
  | pop =>
      rcases perform_pop_eq_ok.mp h with ⟨-, rfl⟩ | ⟨batch, hpop⟩
      · exact ⟨ht, rfl⟩
      · cases hbatches : t.batches with
        | nil =>
            rw [pop?, hbatches] at hpop
            cases hpop
        | cons latest rest =>
            obtain ⟨u', hpop', hlawful, hkind, -⟩ := ht.pop hbatches
            rw [hpop] at hpop'
            cases hpop'
            exact ⟨hlawful, hkind⟩

/-- So it does through all of them. -/
theorem Lawful.performAll (ht : t.Lawful) (h : t.performAll l = .ok u) :
    u.Lawful ∧ u.kind = t.kind := by
  induction l generalizing t with
  | nil =>
      cases h
      exact ⟨ht, rfl⟩
  | cons o l ih =>
      obtain ⟨w, hw, hu⟩ := performAll_cons_eq_ok.mp h
      obtain ⟨hlawful, hkind⟩ := ht.perform hw
      obtain ⟨hlawful', hkind'⟩ := ih hlawful hu
      exact ⟨hlawful', hkind'.trans hkind⟩

theorem Lawful.size_eq (ht : t.Lawful) :
    t.size = (t.batches.map List.length).sum := by
  have hnodup : t.excluded.toList.Nodup :=
    Std.ExtTreeSet.distinct_toList.imp fun h he => h (by simp [he])
  have hperm : t.excluded.toList.Perm t.batches.flatten := by
    rw [List.perm_ext_iff_of_nodup hnodup ht.nodup]
    exact fun v => Std.ExtTreeSet.mem_toList.trans (ht.mem_excluded v)
  have hlength := hperm.length_eq
  rwa [Std.ExtTreeSet.length_toList, List.length_flatten] at hlength

/-! ## Pushes and the pops that belong to them -/

/-- Every batch that the operations push they pop again, and they pop no
other. -/
inductive Balanced : List Operation → Prop
  | nil : Balanced []
  /-- An empty batch is not there to be popped. -/
  | idle {l : List Operation} : Balanced l → Balanced (.push [] :: l)
  | paired {batch : List Int} {l m : List Operation} (hne : batch ≠ []) :
      Balanced l → Balanced m → Balanced (.push batch :: (l ++ .pop :: m))

/-- Balanced sequences are balanced one after the other. -/
theorem Balanced.append (hl : Balanced l) (hm : Balanced m) :
    Balanced (l ++ m) := by
  induction hl with
  | nil => exact hm
  | idle _ ih => exact .idle ih
  | paired hne hfront _ _ ih =>
      rw [List.cons_append, List.append_assoc, List.cons_append]
      exact .paired hne hfront ih

/-- Operations that are balanced leave the stack as it was. -/
theorem Balanced.performAll_eq (hl : Balanced l) (h : t.performAll l = .ok u) :
    u = t := by
  induction hl generalizing t u with
  | nil =>
      cases h
      rfl
  | idle _ ih =>
      obtain ⟨w, hw, hu⟩ := performAll_cons_eq_ok.mp h
      cases hw
      exact ih hu
  | paired hne _ _ ihl ihm =>
      obtain ⟨w, hw, h⟩ := performAll_cons_eq_ok.mp h
      obtain ⟨w', hw', h⟩ := performAll_append_eq_ok.mp h
      obtain ⟨x, hx, hu⟩ := performAll_cons_eq_ok.mp h
      have hsame : w' = w := ihl hw'
      subst hsame
      rcases perform_pop_eq_ok.mp hx with ⟨hnone, -⟩ | ⟨_, hpop⟩
      · rw [pop?_push (of_perform_push hne hw)] at hnone
        cases hnone
      · rw [pop?_push (of_perform_push hne hw)] at hpop
        cases hpop
        exact ihm hu

/-- The last push that was not answered put the latest batch there. -/
theorem pop?_of_balanced (hne : batch ≠ []) (hm : Balanced m)
    (h : t.performAll (l ++ .push batch :: m) = .ok w) :
    ∃ u, t.performAll l = .ok u ∧ w.pop? = some (batch, u) := by
  obtain ⟨u, hu, h⟩ := performAll_append_eq_ok.mp h
  obtain ⟨v, hv, hw⟩ := performAll_cons_eq_ok.mp h
  have hsame : w = v := hm.performAll_eq hw
  subst hsame
  exact ⟨u, hu, pop?_push (of_perform_push hne hv)⟩

/-- Where there is a batch, some push was not answered yet. -/
theorem exists_push_of_pop? (hstart : t.batches = [])
    (h : t.performAll l = .ok w) (hpop : w.pop? = some (batch, u)) :
    ∃ before between, l = before ++ .push batch :: between ∧ batch ≠ [] ∧
      Balanced between ∧
      t.performAll before = .ok u := by
  -- A pop is followed back to the push it answers, and from there to what stood
  -- below.
  induction hn : l.length using Nat.strongRecOn generalizing l w batch u with
  | ind n ih =>
      rcases List.eq_nil_or_concat l with rfl | ⟨l, o, rfl⟩
      · cases h
        rw [pop?, hstart] at hpop
        cases hpop
      · rw [List.concat_eq_append] at h hn ⊢
        obtain ⟨v, hv, h⟩ := performAll_append_eq_ok.mp h
        obtain ⟨_, ho, hend⟩ := performAll_cons_eq_ok.mp h
        cases hend
        rw [List.length_append, List.length_singleton] at hn
        cases o with
        | push pushed =>
            by_cases hempty : pushed = []
            · subst hempty
              cases ho
              obtain ⟨before, between, rfl, hne, hbetween, hbefore⟩ :=
                ih l.length (by omega) hv hpop rfl
              exact ⟨before, between ++ [.push []], by simp, hne,
                hbetween.append (.idle .nil), hbefore⟩
            · rw [pop?_push (of_perform_push hempty ho)] at hpop
              cases hpop
              exact ⟨l, [], rfl, hempty, .nil, hv⟩
        | pop =>
            rcases perform_pop_eq_ok.mp ho with ⟨hnone, rfl⟩ | ⟨answered, hpop'⟩
            · rw [hnone] at hpop
              cases hpop
            · obtain ⟨front, inner, rfl, hne', hinner, hfront⟩ :=
                ih l.length (by omega) hv hpop' rfl
              rw [List.length_append] at hn
              obtain ⟨before, between, rfl, hne, hbetween, hbefore⟩ :=
                ih front.length (by omega) hfront hpop rfl
              exact ⟨before,
                between ++ .push answered :: (inner ++ [.pop]), by simp, hne,
                hbetween.append (.paired hne' hinner .nil), hbefore⟩

/-- **A stack is one of disjoint batches, and its set is exact.**  Whatever was
pushed and popped, the batches are not empty, repeat no value and share none,
and the set is that of their values.  A pop gives the batch of the last push
that was not answered yet, and the stack as it was before that push; there is
none to give where every push was answered.  A push fails just when its batch
repeats a value or holds one that is excluded, and then for the first such
value. -/
theorem performAll_keeps_batches (kind : Kind) (l : List Operation) (t : Stack)
    (h : (empty kind).performAll l = .ok t) :
    (∀ batch ∈ t.batches, batch ≠ [] ∧ batch.Nodup) ∧
    t.batches.Pairwise List.Disjoint ∧
    (∀ v, t.contains v ↔ ∃ batch ∈ t.batches, v ∈ batch) ∧
    t.size = (t.batches.map List.length).sum ∧
    (∀ batch u, t.pop? = some (batch, u) ↔
      ∃ before between, l = before ++ .push batch :: between ∧ batch ≠ [] ∧
        Balanced between ∧
        (empty kind).performAll before = .ok u) ∧
    (t.pop? = none ↔ t.batches = []) ∧
    (∀ batch, (∃ e, t.push batch = .error e) ↔
      ¬ batch.Nodup ∨ ∃ v ∈ batch, t.contains v) ∧
    (∀ batch e, t.push batch = .error e ↔
      ∃ front v rest, batch = front ++ v :: rest ∧ front.Nodup ∧
        (∀ x ∈ front, ¬ t.contains x) ∧
        (v ∈ front ∨ t.contains v) ∧ e = .excludedTwice kind v) := by
  obtain ⟨hlawful, hkind⟩ := (lawful_empty kind).performAll h
  have hcontains : ∀ v, t.contains v ↔ v ∈ t.excluded := fun v =>
    decide_eq_true_iff
  obtain ⟨hnodup, hdisjoint⟩ := List.nodup_flatten.mp hlawful.nodup
  refine ⟨fun batch hb => ⟨hlawful.not_empty batch hb, hnodup batch hb⟩,
    hdisjoint, ?_, hlawful.size_eq, ?_, ?_, ?_, ?_⟩
  · intro v
    rw [hcontains, hlawful.mem_excluded v, List.mem_flatten]
  · intro batch u
    refine ⟨exists_push_of_pop? rfl h, ?_⟩
    rintro ⟨before, between, rfl, hne, hbetween, hbefore⟩
    obtain ⟨u', hu', hpop⟩ := pop?_of_balanced hne hbetween h
    rw [hbefore] at hu'
    cases hu'
    exact hpop
  · rw [pop?]
    cases t.batches <;> simp
  · intro batch
    simp only [hcontains]
    exact exists_push_eq_error_iff
  · intro batch e
    simp only [hcontains]
    rw [push_eq_error_iff, exclude_eq_error_iff, hkind]
    rfl

/-- A batch was pushed and popped above `[1, 2]`, and an empty one pushed. -/
theorem performAll_keeps_batches_of_four :
    ∃ t, (empty .soft).performAll [.push [1, 2], .push [], .push [5], .pop] =
        .ok t ∧
      t.pop? = some ([1, 2], empty .soft) ∧
      t.push [3, 2, 1] = .error (.excludedTwice .soft 2) := by
  obtain ⟨t, ht, hbatches⟩ : ∃ t,
      (empty .soft).performAll [.push [1, 2], .push [], .push [5], .pop] =
          .ok t ∧
        t.batches = [[1, 2]] := ⟨_, rfl, rfl⟩
  obtain ⟨-, -, hcontains, -, hpop, -, -, hpush⟩ :=
    performAll_keeps_batches .soft _ t ht
  rw [hbatches] at hcontains
  refine ⟨t, ht, (hpop _ _).mpr ?_, (hpush _ _).mpr ?_⟩
  · exact ⟨[], _, rfl, by simp, .idle (.paired (by simp) .nil .nil), rfl⟩
  · refine ⟨[3], 2, [1], rfl, by simp, ?_,
      .inr ((hcontains 2).mpr (by simp)), rfl⟩
    simp [hcontains]

end ConstraintNet.Exclusion.Stack
