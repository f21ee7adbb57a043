import ConstraintNet.Proofs.ArenaLaws
import ConstraintNet.Workspace

/-!
# Rewinding

A workspace that only excluded values has a longer trail: each entry stands for
one more batch on a stack of its variable.  Rewinding takes marks back before
prunes, which is not the order they came in.  It restores the variables all the
same, since a settled variable is decided by its batches, and each entry takes
back one batch of its own variable wherever it stands.

What comes back is alike: as a set the domain is what it was, while the search
tree that holds it may have another shape.

* `Workspace.Later` — a workspace that only excluded values;
* `Workspace.rewind_later` — rewinding it restores trail and variables.
-/

namespace ConstraintNet

/-- Two variables that differ at most in the shape of the search tree of their
domain. -/
structure Variable.Alike (x y : Variable) : Prop where
  id : y.id = x.id
  initial : y.initial = x.initial
  domain : ∀ v, v ∈ y.domain ↔ v ∈ x.domain
  value : y.value = x.value
  tried : y.tried = x.tried
  pruned : y.pruned = x.pruned
  marked : y.marked = x.marked
  pending : y.pending = x.pending

/-- Arenas of alike variables. -/
structure Arena.Alike (a b : Arena) : Prop where
  size : b.size = a.size
  read : ∀ i x, a.read i = .ok x → ∃ y, b.read i = .ok y ∧ x.Alike y

namespace Variable

variable {x y z : Variable}

theorem Alike.refl (x : Variable) : x.Alike x :=
  ⟨rfl, rfl, fun _ => Iff.rfl, rfl, rfl, rfl, rfl, rfl⟩

/-- Being alike does not depend on which of the two is looked at first. -/
theorem Alike.symm (h : x.Alike y) : y.Alike x where
  id := h.id.symm
  initial := h.initial.symm
  domain v := (h.domain v).symm
  value := h.value.symm
  tried := h.tried.symm
  pruned := h.pruned.symm
  marked := h.marked.symm
  pending := h.pending.symm

/-- Two variables that are alike a third are alike each other. -/
theorem Alike.trans (hxy : x.Alike y) (hyz : y.Alike z) : x.Alike z where
  id := hyz.id.trans hxy.id
  initial := hyz.initial.trans hxy.initial
  domain v := (hyz.domain v).trans (hxy.domain v)
  value := hyz.value.trans hxy.value
  tried := hyz.tried.trans hxy.tried
  pruned := hyz.pruned.trans hxy.pruned
  marked := hyz.marked.trans hxy.marked
  pending := hyz.pending.trans hxy.pending

/-- Alike variables have the same unmarked values, as sets: the two domains may
be trees of different shapes. -/
theorem Alike.live (h : x.Alike y) : y.live = x.live :=
  ValueSet.ext_mem fun v => by
    rw [mem_live, mem_live, h.domain v, h.marked]

/-- They have the same effective domain as well. -/
theorem Alike.effective (h : x.Alike y) : y.effective = x.effective :=
  ValueSet.ext_mem fun v => by
    rw [mem_effective, mem_effective, h.live, h.value]

/-- Being settled is a matter of which values are where, and is shared by alike
variables. -/
theorem Alike.settled (h : x.Alike y) (hx : x.Settled) : y.Settled where
  pending := h.pending.trans hx.pending
  pruned_lawful := h.pruned ▸ hx.pruned_lawful
  marked_lawful := h.marked ▸ hx.marked_lawful
  mem_domain v := by rw [h.domain v, h.initial, h.pruned, hx.mem_domain v]
  pruned_initial v hv := by
    rw [h.pruned] at hv
    rw [h.initial]
    exact hx.pruned_initial v hv
  marked_domain v hv := by
    rw [h.marked] at hv
    exact (h.domain v).mpr (hx.marked_domain v hv)

/-! ## Taking exclusions back -/

/-- `y` is what is left of `x` when some prunes and some batches of marks are
undone. -/
structure Undone (x y : Variable) (prunes marks : Nat) : Prop where
  id : y.id = x.id
  initial : y.initial = x.initial
  value : y.value = x.value
  tried : y.tried = x.tried
  pruned : y.pruned.batches = x.pruned.batches.drop prunes
  marked : y.marked.batches = x.marked.batches.drop marks
  pruned_kind : y.pruned.kind = x.pruned.kind
  marked_kind : y.marked.kind = x.marked.kind
  settled : x.Settled → y.Settled

theorem Undone.refl (x : Variable) : x.Undone x 0 0 :=
  ⟨rfl, rfl, rfl, rfl, rfl, rfl, rfl, rfl, fun hx => hx⟩

theorem Undone.trans {p m p' m' : Nat} (hxy : x.Undone y p m)
    (hyz : y.Undone z p' m') : x.Undone z (p + p') (m + m') where
  id := hyz.id.trans hxy.id
  initial := hyz.initial.trans hxy.initial
  value := hyz.value.trans hxy.value
  tried := hyz.tried.trans hxy.tried
  pruned := by rw [hyz.pruned, hxy.pruned, List.drop_drop]
  marked := by rw [hyz.marked, hxy.marked, List.drop_drop]
  pruned_kind := hyz.pruned_kind.trans hxy.pruned_kind
  marked_kind := hyz.marked_kind.trans hxy.marked_kind
  settled hx := hyz.settled (hxy.settled hx)

/-- **A settled variable with a mark can undo it.** -/
theorem Settled.undoMark (hx : x.Settled) (hpos : 0 < x.marked.batches.length) :
    ∃ r y, x.undoMark = .ok (r, y) ∧ x.Undone y 0 1 := by
  cases hbatches : x.marked.batches with
  | nil => simp [hbatches] at hpos
  | cons batch rest =>
      obtain ⟨marked, hpop, hlawful, hkind, hrest, hexcluded⟩ :=
        hx.marked_lawful.pop hbatches
      refine ⟨batch, { x with marked }, by rw [Variable.undoMark, hpop], ?_⟩
      refine { Undone.refl x with
        marked := by rw [hbatches]; exact hrest
        marked_kind := hkind
        settled := fun _ => { hx with
          marked_lawful := hlawful
          marked_domain := fun v hv =>
            hx.marked_domain v ((hexcluded v).mp hv).1 } }

/-- **A settled variable with a prune can undo it.** -/
theorem Settled.undoPrune (hx : x.Settled)
    (hpos : 0 < x.pruned.batches.length) :
    ∃ r y, x.undoPrune = .ok (r, y) ∧ x.Undone y 1 0 := by
  cases hbatches : x.pruned.batches with
  | nil => simp [hbatches] at hpos
  | cons batch rest =>
      obtain ⟨pruned, hpop, hlawful, hkind, hrest, hexcluded⟩ :=
        hx.pruned_lawful.pop hbatches
      have hmem : batch ∈ x.pruned.batches := by simp [hbatches]
      have hsub : ∀ v ∈ batch, v ∈ x.pruned.excluded := fun v hv =>
        (hx.pruned_lawful.mem_excluded v).mpr
          (List.mem_flatten.mpr ⟨batch, hmem, hv⟩)
      have hback : ∀ w, w ∈ x.domain.insertAll batch ↔
          w ∈ batch ∨ w ∈ x.domain :=
        fun w => Domain.mem_insertAll
      cases batch with
      | nil => exact absurd rfl (hx.pruned_lawful.not_empty [] hmem)
      | cons v l =>
          refine ⟨v, { x with domain := x.domain.insertAll (v :: l), pruned },
            ?_, ?_⟩
          · rw [Variable.undoPrune, hpop]
          · refine { Undone.refl x with
              pruned := by rw [hbatches]; exact hrest
              pruned_kind := hkind
              settled := fun _ => { hx with
                pruned_lawful := hlawful
                mem_domain := ?_
                pruned_initial := fun w hw =>
                  hx.pruned_initial w ((hexcluded w).mp hw).1
                marked_domain := fun w hw =>
                  (hback w).mpr (Or.inr (hx.marked_domain w hw)) } }
            intro w
            rw [hback, hx.mem_domain w, hexcluded w]
            by_cases hw : w ∈ v :: l
            · simp only [hw, not_true_eq_false, and_false, not_false_eq_true,
                and_true, true_or, true_iff]
              exact hx.pruned_initial w (hsub w hw)
            · simp [hw]

/-- Undoing what came later leaves the variable as it was. -/
theorem Later.alike_of_undone {p m : Nat} (hx : x.Settled) (hxy : x.Later y p m)
    (hyz : y.Undone z p m) : x.Alike z := by
  have hz : z.Settled := hyz.settled (hxy.settled hx)
  have hpruned : z.pruned = x.pruned := by
    obtain ⟨l, hl, hbatches⟩ := hxy.pruned
    refine hz.pruned_lawful.ext hx.pruned_lawful
      (hyz.pruned_kind.trans hxy.pruned_kind) ?_
    rw [hyz.pruned, hbatches, ← hl, List.drop_left]
  have hmarked : z.marked = x.marked := by
    obtain ⟨l, hl, hbatches⟩ := hxy.marked
    refine hz.marked_lawful.ext hx.marked_lawful
      (hyz.marked_kind.trans hxy.marked_kind) ?_
    rw [hyz.marked, hbatches, ← hl, List.drop_left]
  have hinitial : z.initial = x.initial := hyz.initial.trans hxy.initial
  refine ⟨hyz.id.trans hxy.id, hinitial, ?_, hyz.value.trans hxy.value,
    hyz.tried.trans hxy.tried, hpruned, hmarked,
    hz.pending.trans hx.pending.symm⟩
  intro v
  rw [hz.mem_domain v, hx.mem_domain v, hinitial, hpruned]

end Variable

namespace Arena

variable {a b c : Arena}

theorem Alike.refl (a : Arena) : a.Alike a :=
  ⟨rfl, fun _ x hx => ⟨x, hx, Variable.Alike.refl x⟩⟩

/-- Arenas alike a third are alike each other, so that restorations can be put
one after another. -/
theorem Alike.trans (hab : a.Alike b) (hbc : b.Alike c) : a.Alike c where
  size := hbc.size.trans hab.size
  read i x hx := by
    obtain ⟨y, hy, hxy⟩ := hab.read i x hx
    obtain ⟨z, hz, hyz⟩ := hbc.read i y hy
    exact ⟨z, hz, hxy.trans hyz⟩

/-- Being alike does not depend on which of the two arenas is looked at
first. -/
theorem Alike.symm (h : a.Alike b) : b.Alike a where
  size := h.size.symm
  read i y hy := by
    obtain ⟨x, hx⟩ := exists_read (h.size ▸ lt_of_read hy)
    obtain ⟨y', hy', hxy⟩ := h.read i x hx
    exact ⟨x, hx, read_unique hy' hy ▸ hxy.symm⟩

/-- An operation that can be made as often as a list names a position, made for
each entry of the list in turn. -/
theorem foldlM_adjust {α : Type} {f : Variable → Except Fault (α × Variable)}
    (Can : Nat → Variable → Prop) (Did : Nat → Variable → Variable → Prop)
    (zero : ∀ x, Did 0 x x)
    (succ : ∀ n x, Can (n + 1) x →
      ∃ r y, f x = .ok (r, y) ∧ Can n y ∧ ∀ z, Did n y z → Did (n + 1) x z)
    (l : List Nat) :
    ∀ a : Arena, (∀ i ∈ l, i < a.size) →
      (∀ i x, a.read i = .ok x → Can (l.count i) x) →
      ∃ b, l.foldlM (fun a i => (a.adjust i f).map (·.2)) a = .ok b ∧
        b.size = a.size ∧
        ∀ i x, a.read i = .ok x → ∃ y,
          b.read i = .ok y ∧ Did (l.count i) x y := by
  induction l with
  | nil =>
      intro a _ _
      exact ⟨a, rfl, rfl, fun i x hx => ⟨x, hx, zero x⟩⟩
  | cons j l ih =>
      intro a hlt hcan
      obtain ⟨x, hx⟩ := exists_read (hlt j List.mem_cons_self)
      have hj := hcan j x hx
      rw [List.count_cons_self] at hj
      obtain ⟨r, y, hf, hy, hdid⟩ := succ _ x hj
      have hja : j < a.size := lt_of_read hx
      obtain ⟨b, hb, hsize, hread⟩ := ih (a.write j y)
        (fun i hi =>
          (size_write a j y).symm ▸ hlt i (List.mem_cons_of_mem _ hi))
        (by
          intro i z hz
          rcases (read_write hja).mp hz with ⟨rfl, rfl⟩ | ⟨hne, hz⟩
          · exact hy
          · have := hcan i z hz
            rwa [List.count_cons_of_ne (Ne.symm hne)] at this)
      refine ⟨b, ?_, hsize.trans (size_write a j y), ?_⟩
      · rw [List.foldlM_cons, adjust_eq hx hf]
        exact hb
      · intro i z hz
        by_cases hi : i = j
        · subst hi
          obtain ⟨z', hz', hd⟩ := hread i y (read_write_self hja y)
          refine ⟨z', hz', ?_⟩
          rw [List.count_cons_self, read_unique hz hx]
          exact hdid z' hd
        · obtain ⟨z', hz', hd⟩ :=
            hread i z ((read_write hja).mpr (Or.inr ⟨hi, hz⟩))
          exact ⟨z', hz', by rwa [List.count_cons_of_ne (Ne.symm hi)]⟩

end Arena

/-- Tracks with the same entries are the same. -/
theorem Track.ext_entries {t u : Track} (h : t.entries = u.entries) :
    t = u := by
  obtain ⟨entries, size, hsize⟩ := t
  obtain ⟨entries', size', hsize'⟩ := u
  simp only at h
  subst h
  subst hsize
  subst hsize'
  rfl

/-- The latest entries of a track that some were added to are those, and without
them it is the old one. -/
theorem Track.of_append {t u : Track} {l : List Nat}
    (h : t.entries = l ++ u.entries) :
    u.size ≤ t.size ∧ t.size - u.size = l.length ∧ t.latest l.length = l ∧
      t.drop l.length = u := by
  have hsize : t.size = l.length + u.size := by
    rw [t.size_eq, u.size_eq, h, List.length_append]
  refine ⟨by omega, by omega, ?_, ext_entries ?_⟩
  · rw [latest, h, List.take_left]
  · show t.entries.drop l.length = u.entries
    rw [h, List.drop_left]

namespace Trail

variable {a : Arena}

/-- Undoing the marks that a trail names succeeds if each variable has as many
batches as the trail has entries for it, and takes back just so many of each. -/
theorem undoMarks_eq_ok (l : List Nat) (hlt : ∀ i ∈ l, i < a.size)
    (hcan : ∀ i x, a.read i = .ok x →
      x.Settled ∧ l.count i ≤ x.marked.batches.length) :
    ∃ b, undoMarks l a = .ok b ∧ b.size = a.size ∧
      ∀ i x, a.read i = .ok x → ∃ y,
        b.read i = .ok y ∧ x.Undone y 0 (l.count i) := by
  refine Arena.foldlM_adjust (fun n x =>
    x.Settled ∧ n ≤ x.marked.batches.length)
    (fun n x y => x.Undone y 0 n) (fun x => Variable.Undone.refl x) ?_ l
    a hlt hcan
  rintro n x ⟨hx, hn⟩
  obtain ⟨r, y, hundo, hxy⟩ := hx.undoMark (by omega)
  refine ⟨r, y, hundo, ⟨hxy.settled hx, ?_⟩, ?_⟩
  · rw [hxy.marked, List.length_drop]
    omega
  · intro z hyz
    have hxz := hxy.trans hyz
    rwa [Nat.add_zero, Nat.add_comm 1 n] at hxz

/-- The same for prunes. Each entry of the trail stands for one value that goes
back into the domain. -/
theorem undoPrunes_eq_ok (l : List Nat) (hlt : ∀ i ∈ l, i < a.size)
    (hcan : ∀ i x, a.read i = .ok x →
      x.Settled ∧ l.count i ≤ x.pruned.batches.length) :
    ∃ b, undoPrunes l a = .ok b ∧ b.size = a.size ∧
      ∀ i x, a.read i = .ok x → ∃ y,
        b.read i = .ok y ∧ x.Undone y (l.count i) 0 := by
  refine Arena.foldlM_adjust (fun n x =>
    x.Settled ∧ n ≤ x.pruned.batches.length)
    (fun n x y => x.Undone y n 0) (fun x => Variable.Undone.refl x) ?_ l
    a hlt hcan
  rintro n x ⟨hx, hn⟩
  obtain ⟨r, y, hundo, hxy⟩ := hx.undoPrune (by omega)
  refine ⟨r, y, hundo, ⟨hxy.settled hx, ?_⟩, ?_⟩
  · rw [hxy.pruned, List.length_drop]
    omega
  · intro z hyz
    have hxz := hxy.trans hyz
    rwa [Nat.add_zero, Nat.add_comm 1 n] at hxz

end Trail

namespace Workspace

/-- `u` is what `w` became by excluding values: each new entry of the trail
stands for one batch more on a stack of its variable. -/
structure Later (w u : Workspace) : Prop where
  size : u.arena.size = w.arena.size
  trail : ∃ prunes marks : List Nat,
    u.trail.pruned.entries = prunes ++ w.trail.pruned.entries ∧
    u.trail.marked.entries = marks ++ w.trail.marked.entries ∧
    (∀ i ∈ prunes ++ marks, i < w.arena.size) ∧
    ∀ i x, w.arena.read i = .ok x →
      ∃ y, u.arena.read i = .ok y ∧ x.Later y (prunes.count i) (marks.count i)

variable {w u t : Workspace}

/-- A workspace follows itself, with nothing excluded and nothing on the
trail. -/
theorem Later.refl (w : Workspace) : w.Later w where
  size := rfl
  trail :=
    ⟨[], [], rfl, rfl, by simp, fun _ x hx => ⟨x, hx, Variable.Later.refl x⟩⟩

/-- What was excluded in two stages was excluded: the new entries of the trail
and the new batches of each variable are put in front of each other alike. -/
theorem Later.trans (hwu : w.Later u) (hut : u.Later t) : w.Later t where
  size := hut.size.trans hwu.size
  trail := by
    obtain ⟨ps, ms, hps, hms, hlt, hread⟩ := hwu.trail
    obtain ⟨ps', ms', hps', hms', hlt', hread'⟩ := hut.trail
    refine ⟨ps' ++ ps, ms' ++ ms, by rw [hps', hps, List.append_assoc],
      by rw [hms', hms, List.append_assoc], ?_, ?_⟩
    · intro i hi
      have hi' : i ∈ ps' ++ ms' ∨ i ∈ ps ++ ms := by grind
      rcases hi' with hi | hi
      · rw [← hwu.size]
        exact hlt' i hi
      · exact hlt i hi
    · intro i x hx
      obtain ⟨y, hy, hxy⟩ := hread i x hx
      obtain ⟨z, hz, hyz⟩ := hread' i y hy
      exact ⟨z, hz, by simpa only [List.count_append] using hxy.trans hyz⟩

/-- What became of the variable at a position. -/
theorem Later.read (h : w.Later u) {i : Nat} {x : Variable}
    (hx : w.arena.read i = .ok x) :
    ∃ y p m, u.arena.read i = .ok y ∧ x.Later y p m := by
  obtain ⟨ps, ms, _, _, _, hread⟩ := h.trail
  obtain ⟨y, hy, hxy⟩ := hread i x hx
  exact ⟨y, _, _, hy, hxy⟩

/-- Where the variable at a position came from. -/
theorem Later.read_back (h : w.Later u) {i : Nat} {y : Variable}
    (hy : u.arena.read i = .ok y) :
    ∃ x p m, w.arena.read i = .ok x ∧ x.Later y p m := by
  obtain ⟨x, hx⟩ := Arena.exists_read (h.size ▸ Arena.lt_of_read hy)
  obtain ⟨y', p, m, hy', hxy⟩ := h.read hx
  exact ⟨x, p, m, hx, Arena.read_unique hy' hy ▸ hxy⟩

/-- Nothing comes into sight. -/
theorem Later.effective (h : w.Later u) {i : Nat} {v : Int}
    (hv : v ∈ u.arena.effective i) : v ∈ w.arena.effective i := by
  obtain ⟨y, hy, hv⟩ := Arena.read_of_mem_effective hv
  obtain ⟨x, p, m, hx, hxy⟩ := h.read_back hy
  rw [Arena.effective_of_read hx]
  exact hxy.effective hv

/-- An assignment that the later arena admits is one that the earlier admitted,
since values are only taken away. -/
theorem Later.admits (h : w.Later u) {τ : Nat → Int} (hτ : u.arena.Admits τ) :
    w.arena.Admits τ :=
  fun i hi => h.effective (hτ i (h.size.symm ▸ hi))

/-- Exclusions from one variable, with their entries on the trail. -/
theorem later_write {i p m : Nat} {x y : Variable} {trail : Trail}
    {tally : Tally} (hx : w.arena.read i = .ok x) (hxy : x.Later y p m)
    (hpruned : trail.pruned.entries =
      List.replicate p i ++ w.trail.pruned.entries)
    (hmarked : trail.marked.entries =
      List.replicate m i ++ w.trail.marked.entries) :
    w.Later ⟨w.arena.write i y, trail, tally⟩ where
  size := Arena.size_write _ _ _
  trail := by
    have hi : i < w.arena.size := Arena.lt_of_read hx
    refine ⟨List.replicate p i, List.replicate m i, hpruned, hmarked, ?_, ?_⟩
    · intro j hj
      have hj : j = i := by
        rcases List.mem_append.mp hj with hj | hj
        · exact List.eq_of_mem_replicate hj
        · exact List.eq_of_mem_replicate hj
      exact hj ▸ hi
    · intro j z hz
      by_cases hji : j = i
      · subst hji
        have hzx : z = x := Arena.read_unique hz hx
        subst hzx
        refine ⟨y, Arena.read_write_self hi y, ?_⟩
        simpa only [List.count_replicate_self] using hxy
      · refine ⟨z, (Arena.read_write_of_ne (Ne.symm hji) y).trans hz, ?_⟩
        simp only [List.count_replicate, beq_iff_eq, Ne.symm hji, if_false]
        exact Variable.Later.refl z

/-- **Rewinding succeeds** if every stack is as deep as the entries to undo name
its variable, and undoes of each variable what they name it for. -/
theorem exists_rewind {c : Checkpoint} {ps ms : List Nat}
    (hc : c.pruned ≤ w.trail.pruned.size ∧ c.marked ≤ w.trail.marked.size)
    (hps : w.trail.pruned.latest (w.trail.pruned.size - c.pruned) = ps)
    (hms : w.trail.marked.latest (w.trail.marked.size - c.marked) = ms)
    (hknown : ∀ i ∈ ps ++ ms, i < w.arena.size)
    (hdeep : ∀ i x, w.arena.read i = .ok x →
      x.Settled ∧ ps.count i ≤ x.pruned.batches.length ∧
      ms.count i ≤ x.marked.batches.length) :
    ∃ a, w.rewind c =
      .ok ⟨a, ⟨w.trail.pruned.drop (w.trail.pruned.size - c.pruned),
        w.trail.marked.drop (w.trail.marked.size - c.marked)⟩, w.tally⟩ ∧
      a.size = w.arena.size ∧
      ∀ i z, a.read i = .ok z → ∃ x, w.arena.read i = .ok x ∧
        x.Undone z (ps.count i) (ms.count i) := by
  -- The marks come back first, each to its own variable.
  obtain ⟨b, hb, hbsize, hbread⟩ := Trail.undoMarks_eq_ok (a := w.arena) ms
    (fun i hi => hknown i (List.mem_append_right ps hi))
    fun i x hx => ⟨(hdeep i x hx).1, (hdeep i x hx).2.2⟩
  have hback : ∀ i y, b.read i = .ok y → ∃ x, w.arena.read i = .ok x ∧
      x.Undone y 0 (ms.count i) := by
    intro i y hy
    obtain ⟨x, hx⟩ := Arena.exists_read (hbsize ▸ Arena.lt_of_read hy)
    obtain ⟨y', hy', hxy⟩ := hbread i x hx
    exact ⟨x, hx, Arena.read_unique hy' hy ▸ hxy⟩
  obtain ⟨a, ha, hasize, haread⟩ := Trail.undoPrunes_eq_ok (a := b) ps
    (fun i hi => hbsize.symm ▸ hknown i (List.mem_append_left ms hi))
    (by
      intro i y hy
      obtain ⟨x, hx, hxy⟩ := hback i y hy
      obtain ⟨hsettled, hprunes, _⟩ := hdeep i x hx
      exact ⟨hxy.settled hsettled, hxy.pruned ▸ hprunes⟩)
  refine ⟨a, ?_, hasize.trans hbsize, fun i z hz => ?_⟩
  · simp only [rewind, Trail.rewind, if_pos hc, hps, hms, hb, ha, bind,
      Except.bind, pure, Except.pure, Except.map]
  · obtain ⟨y, hy⟩ := Arena.exists_read (hasize ▸ Arena.lt_of_read hz)
    obtain ⟨z', hz', hyz⟩ := haread i y hy
    obtain ⟨x, hx, hxy⟩ := hback i y hy
    have hxz := hxy.trans (Arena.read_unique hz' hz ▸ hyz)
    rw [Nat.zero_add, Nat.add_zero] at hxz
    exact ⟨x, hx, hxz⟩

/-- **Rewinding restores.**  Whatever was excluded since, and in whatever order,
the trail is the old one again and the variables are alike to the old ones. -/
theorem rewind_later (h : w.Later u)
    (hsettled : ∀ i x, w.arena.read i = .ok x → x.Settled) :
    ∃ a, u.rewind w.trail.checkpoint = .ok ⟨a, w.trail, u.tally⟩ ∧
      w.arena.Alike a := by
  obtain ⟨ps, ms, hps, hms, hlt, hread⟩ := h.trail
  obtain ⟨hple, hpsize, hplatest, hpdrop⟩ := Track.of_append hps
  obtain ⟨hmle, hmsize, hmlatest, hmdrop⟩ := Track.of_append hms
  have hlater : ∀ i y, u.arena.read i = .ok y →
      ∃ x, w.arena.read i = .ok x ∧ x.Settled ∧
      x.Later y (ps.count i) (ms.count i) := by
    intro i y hy
    obtain ⟨x, hx⟩ := Arena.exists_read (h.size ▸ Arena.lt_of_read hy)
    obtain ⟨y', hy', hxy⟩ := hread i x hx
    exact ⟨x, hx, hsettled i x hx, Arena.read_unique hy' hy ▸ hxy⟩
  obtain ⟨a, ha, hsize, hback⟩ :=
    exists_rewind (w := u) (c := w.trail.checkpoint) ⟨hple, hmle⟩
      (by simpa only [Trail.checkpoint, hpsize] using hplatest)
      (by simpa only [Trail.checkpoint, hmsize] using hmlatest)
      (fun i hi => h.size.symm ▸ hlt i hi)
      (by
        intro i y hy
        obtain ⟨x, _, hs, hxy⟩ := hlater i y hy
        obtain ⟨l, hl, hprunes⟩ := hxy.pruned
        obtain ⟨k, hk, hmarks⟩ := hxy.marked
        refine ⟨hxy.settled hs, ?_, ?_⟩
        · rw [hprunes, List.length_append]
          omega
        · rw [hmarks, List.length_append]
          omega)
  refine ⟨a, ?_, hsize.trans h.size, fun i x hx => ?_⟩
  · simpa only [Trail.checkpoint, hpsize, hmsize, hpdrop, hmdrop] using ha
  · obtain ⟨z, hz⟩ :=
      Arena.exists_read ((hsize.trans h.size).symm ▸ Arena.lt_of_read hx)
    obtain ⟨y, hy, hyz⟩ := hback i z hz
    obtain ⟨x', hx', hs, hxy⟩ := hlater i y hy
    obtain rfl := Arena.read_unique hx' hx
    exact ⟨z, hz, hxy.alike_of_undone hs hyz⟩

end Workspace

end ConstraintNet
