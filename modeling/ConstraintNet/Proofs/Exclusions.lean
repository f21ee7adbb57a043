import ConstraintNet.Exclusion.Stack

/-!
# Stacks of exclusions that keep their promise

A stack keeps the set of excluded values beside its batches.  The two belong
together as long as batches come and go by pushing and popping: no batch is
empty, no value stands in the stack twice, and the set is that of all values
in the batches.  Such a stack is determined by its batches, so that popping a
batch restores whatever was there before it was pushed.
-/

namespace ConstraintNet.Exclusion.Stack

/-- The batches are disjoint and not empty, and the set is their union. -/
structure Lawful (t : Stack) : Prop where
  mem_excluded : ∀ v, v ∈ t.excluded ↔ v ∈ t.batches.flatten
  not_empty : ∀ batch ∈ t.batches, batch ≠ []
  nodup : t.batches.flatten.Nodup

theorem lawful_empty (kind : Kind) : (empty kind).Lawful where
  mem_excluded v := by simp [empty]
  not_empty := by simp [empty]
  nodup := by simp [empty]

/-- Batches decide a lawful stack. -/
theorem Lawful.ext {t u : Stack} (ht : t.Lawful) (hu : u.Lawful)
    (hkind : t.kind = u.kind) (hbatches : t.batches = u.batches) : t = u := by
  have hexcluded : t.excluded = u.excluded := Std.ExtTreeSet.ext_mem fun v => by
    rw [ht.mem_excluded v, hu.mem_excluded v, hbatches]
  cases t
  cases u
  simp_all

/-- A batch without repetitions, none of which is excluded, can be excluded, and
then there are that many more. -/
theorem exclude_eq_ok (kind : Kind) {batch : List Int} :
    ∀ {s : Std.ExtTreeSet Int}, batch.Nodup → (∀ v ∈ batch, v ∉ s) →
      ∃ r, exclude kind s batch = .ok r ∧ r.size = s.size + batch.length := by
  induction batch with
  | nil =>
      intro s _ _
      exact ⟨s, rfl, rfl⟩
  | cons v batch ih =>
      intro s hnodup hnot
      obtain ⟨hv, hrest⟩ := List.nodup_cons.mp hnodup
      have hvs : v ∉ s := hnot v List.mem_cons_self
      obtain ⟨r, hr, hsize⟩ := ih (s := s.insert v) hrest (by
        intro w hw hmem
        rcases mem_insert.mp hmem with rfl | hmem
        · exact hv hw
        · exact hnot w (List.mem_cons_of_mem _ hw) hmem)
      refine ⟨r, ?_, ?_⟩
      · rw [exclude_cons, if_neg hvs, hr]
      · have hcontains : ¬ s.contains v = true :=
          fun hc => hvs (Std.ExtTreeSet.mem_iff_contains.mpr hc)
        rw [hsize, Std.ExtTreeSet.size_insert, if_neg hcontains,
          List.length_cons]
        omega

/-- **Pushing succeeds** on values that differ and are not excluded yet. -/
theorem push_eq_ok {t : Stack} {batch : List Int} (hne : batch ≠ [])
    (hnodup : batch.Nodup) (hnot : ∀ v ∈ batch, v ∉ t.excluded) :
    ∃ u, t.push batch = .ok (true, u) ∧ u.kind = t.kind ∧
      u.batches = batch :: t.batches ∧
      u.size = t.size + batch.length := by
  obtain ⟨r, hr, hsize⟩ := exclude_eq_ok t.kind hnodup hnot
  refine ⟨{ t with batches := batch :: t.batches, excluded := r }, ?_, rfl,
    rfl, hsize⟩
  rw [push, if_neg (by simpa using hne), hr]

theorem push_nil (t : Stack) : t.push [] = .ok (false, t) := rfl

/-- What a push that succeeds does to the batches. -/
theorem of_push_eq_ok {t u : Stack} {batch : List Int} {b : Bool}
    (h : t.push batch = .ok (b, u)) :
    b = !batch.isEmpty ∧
      u.batches = if batch.isEmpty then t.batches else batch :: t.batches := by
  rw [push] at h
  split at h
  · rename_i hl
    cases h
    simp [hl]
  · rename_i hl
    split at h
    · cases h
      simp [hl]
    · cases h

/-- What a push has to be given, it found. -/
theorem Lawful.of_push {t u : Stack} {batch : List Int} (ht : t.Lawful)
    (hpush : t.push batch = .ok (true, u))
    (hbatches : u.batches = batch :: t.batches) (hne : batch ≠ [])
    (hnodup : batch.Nodup) (hnot : ∀ v ∈ batch, v ∉ t.excluded) : u.Lawful where
  mem_excluded v := by
    rw [mem_excluded_push hpush, ht.mem_excluded v, hbatches, List.flatten_cons,
      List.mem_append]
  not_empty b hb := by
    rw [hbatches] at hb
    rcases List.mem_cons.mp hb with rfl | hb
    · exact hne
    · exact ht.not_empty b hb
  nodup := by
    rw [hbatches, List.flatten_cons]
    refine List.nodup_append.mpr ⟨hnodup, ht.nodup, ?_⟩
    intro v hv w hw heq
    subst heq
    exact hnot v hv ((ht.mem_excluded v).mpr hw)

/-- **Popping a lawful stack** gives its latest batch and frees just that. -/
theorem Lawful.pop {t : Stack} (ht : t.Lawful) {batch : List Int}
    {rest : List (List Int)} (hbatches : t.batches = batch :: rest) :
    ∃ u, t.pop? = some (batch, u) ∧ u.Lawful ∧ u.kind = t.kind ∧
      u.batches = rest ∧
      ∀ v, v ∈ u.excluded ↔ v ∈ t.excluded ∧ v ∉ batch := by
  have hnodup := ht.nodup
  rw [hbatches, List.flatten_cons] at hnodup
  obtain ⟨_, hrest, hdisjoint⟩ := List.nodup_append.mp hnodup
  let u : Stack :=
    { t with batches := rest, excluded := release t.excluded batch }
  have hfreed : ∀ v, v ∈ u.excluded ↔ v ∈ t.excluded ∧ v ∉ batch := fun v =>
    mem_release
  refine ⟨u, ?_, ⟨?_, ?_, hrest⟩, rfl, rfl, hfreed⟩
  · simp only [pop?, hbatches]
    rfl
  · intro v
    rw [hfreed, ht.mem_excluded v, hbatches, List.flatten_cons, List.mem_append]
    constructor
    · rintro ⟨hv | hv, hnot⟩
      · exact absurd hv hnot
      · exact hv
    · intro hv
      exact ⟨Or.inr hv, fun hb => hdisjoint v hb v hv rfl⟩
  · intro b hb
    exact ht.not_empty b (by rw [hbatches]; exact List.mem_cons_of_mem _ hb)

end ConstraintNet.Exclusion.Stack
