import ConstraintNet.Proofs.Rewinding
import ConstraintNet.Revision

/-!
# What a revision leaves

A revision keeps the values of the tail that have a support at the head, and the
values of the head that one of these supports.  On an arc from a variable to
itself the second cut falls on what the first one left.

Either cut takes a list of values: the tail loses those that it shows without a
support at the head, one prune for each, and then the head loses, as one batch
of marks, those live values that go with nothing that is left at the tail.

* `Network.revise_eq_ok` — the two cuts, on any arc;
* `Revised` — what they come to for the effective domains, together with all
  that later arguments need: nothing but the two ends changes, the changes are
  on the trail, and the counts tell whether an end has lost anything.
-/

namespace ConstraintNet

namespace Workspace

variable {w : Workspace} {i : Nat} {x : Variable} {l : List Int}

/-- Pruning a value changes one variable, and the trail if the value was
live. -/
theorem exclude_eq_map (w : Workspace) (i : Nat) (v : Int) :
    w.exclude i v = (w.arena.adjust i (·.prune v)).map fun p =>
      (p.1, ⟨p.2, if p.1 then w.trail.recordPrune i else w.trail,
        w.tally⟩) := by
  rw [exclude]
  rcases w.arena.adjust i (·.prune v) with e | ⟨_ | _, m⟩ <;> rfl

/-- Pruning a list of values changes one variable, and adds one entry to the
trail for each that was live. -/
theorem excludeAll_eq_map (w : Workspace) (i : Nat) (l : List Int) :
    w.excludeAll i l = (w.arena.adjust i (·.pruneAll 0 l)).map fun p =>
      (p.1, ⟨p.2, w.trail.recordPrunes i p.1, w.tally⟩) := by
  rw [excludeAll]
  rcases w.arena.adjust i (·.pruneAll 0 l) with e | ⟨n, m⟩ <;> rfl

/-- Hiding changes one variable, and adds one entry to the trail if anything was
marked at all. -/
theorem hide_eq_map (w : Workspace) (i : Nat) (supported : Int → Bool) :
    w.hide i supported =
      (w.arena.adjust i fun x => (x.hideUnsupported supported).map fun p =>
        (if p.1 then some (p.2.marked.size - x.marked.size) else none,
          p.2)).map fun p =>
      (p.1.getD 0, ⟨p.2, if p.1.isSome then w.trail.recordMark i else w.trail,
        w.tally⟩) := by
  rw [hide]
  rcases w.arena.adjust i _ with e | ⟨_ | n, m⟩ <;> rfl

/-- Excluding a live value of a calm variable. -/
theorem exclude_of_mem_live (hx : w.arena.read i = .ok x) (hcalm : x.Calm)
    {v : Int} (hv : v ∈ x.live) :
    ∃ y, w.exclude i v =
        .ok (true, ⟨w.arena.write i y, w.trail.recordPrune i, w.tally⟩) ∧
      x.Pruned [v] y := by
  obtain ⟨y, hprune, hpruned⟩ := Variable.prune_of_mem_live hcalm hv
  refine ⟨y, ?_, hpruned⟩
  rw [exclude_eq_map, Arena.adjust_eq hx hprune]
  rfl

/-- Excluding live values of a calm variable, one by one. -/
theorem excludeAll_of_live (hx : w.arena.read i = .ok x) (hcalm : x.Calm)
    (hnodup : l.Nodup) (hlive : ∀ v ∈ l, v ∈ x.live) :
    ∃ y, w.excludeAll i l =
        .ok (l.length,
          ⟨w.arena.write i y, w.trail.recordPrunes i l.length, w.tally⟩) ∧
      x.Pruned l y := by
  obtain ⟨y, hprune, hpruned⟩ := Variable.pruneAll_of_live 0 hcalm hnodup hlive
  rw [Nat.zero_add] at hprune
  refine ⟨y, ?_, hpruned⟩
  rw [excludeAll_eq_map, Arena.adjust_eq hx hprune]
  rfl

/-- Hiding the unsupported values of a calm variable, as one batch. -/
theorem hide_of_calm (hx : w.arena.read i = .ok x) (hcalm : x.Calm)
    (supported : Int → Bool) (hl : (x.unsupported supported).toList = l) :
    ∃ y, w.hide i supported =
        .ok (l.length, ⟨w.arena.write i y,
          if l = [] then w.trail else w.trail.recordMark i, w.tally⟩) ∧
      x.Hidden l y := by
  obtain ⟨y, hhide, hhidden, hsize⟩ :=
    Variable.hideUnsupported_of_calm hcalm supported hl
  have hadjust : (x.hideUnsupported supported).map (fun p =>
      (if p.1 then some (p.2.marked.size - x.marked.size) else none, p.2)) =
      .ok (if l = [] then none else some l.length, y) := by
    rw [hhide]
    cases l with
    | nil => rfl
    | cons u l => simp [Except.map, hsize]
  refine ⟨y, ?_, hhidden⟩
  rw [hide_eq_map, Arena.adjust_eq hx hadjust]
  cases l with
  | nil => rfl
  | cons u l => rfl

/-- A batch of one variable, with its entry on the trail. -/
theorem later_hidden {y : Variable} {tally : Tally}
    (hx : w.arena.read i = .ok x) (hxy : x.Hidden l y) :
    w.Later ⟨w.arena.write i y,
      if l = [] then w.trail else w.trail.recordMark i, tally⟩ := by
  have hlater := hxy.later
  by_cases hl : l = []
  · rw [if_pos hl] at hlater ⊢
    exact later_write hx hlater rfl rfl
  · rw [if_neg hl] at hlater ⊢
    exact later_write hx hlater rfl rfl

/-- Whatever came of excluding a value of a calm variable, it excluded at most
that. -/
theorem later_of_exclude {u : Workspace} {v : Int} {b : Bool}
    (hcalm : ∀ x, w.arena.read i = .ok x → x.Calm)
    (h : w.exclude i v = .ok (b, u)) : w.Later u := by
  cases hx : w.arena.read i with
  | error e =>
      simp only [exclude_eq_map, Arena.adjust, hx] at h
      cases h
  | ok x =>
      by_cases hv : v ∈ x.live
      · obtain ⟨y, hy, hxy⟩ := exclude_of_mem_live hx (hcalm x hx) hv
        rw [h] at hy
        cases hy
        exact later_write hx hxy.later rfl rfl
      · have hsame :=
          Arena.adjust_eq (f := fun x => x.prune v) hx
            (Variable.prune_of_not_mem_live hv)
        rw [exclude_eq_map, hsame, Arena.write_self hx] at h
        cases h
        exact Later.refl w

/-- Whatever came of hiding values of a calm variable, it excluded at most
those. -/
theorem later_of_hide {u : Workspace} {n : Nat} {supported : Int → Bool}
    (hcalm : ∀ x, w.arena.read i = .ok x → x.Calm)
    (h : w.hide i supported = .ok (n, u)) : w.Later u := by
  cases hx : w.arena.read i with
  | error e =>
      simp only [hide_eq_map, Arena.adjust, hx] at h
      cases h
  | ok x =>
      obtain ⟨y, hy, hxy⟩ := hide_of_calm hx (hcalm x hx) supported rfl
      rw [h] at hy
      cases hy
      exact later_hidden hx hxy

end Workspace

/-- A value of the tail of an arc is supported when the head shows a value that
may go with it. -/
def Arena.Supports (m : Arena) (c : Constraint) (a : Arc) (v : Int) : Prop :=
  v ∈ m.effective a.tail ∧ ∃ z ∈ m.effective a.head, (v, z) ∈ c.pairs

/-- What the revision of an arc with constraint `c` makes of a workspace. -/
structure Revised (c : Constraint) (a : Arc) (w : Workspace) (r : Revision)
    (u : Workspace) : Prop where
  later : w.Later u
  frame : ∀ i, i ≠ a.tail → i ≠ a.head → u.arena.read i = w.arena.read i
  tail : ∀ v, v ∈ u.arena.effective a.tail ↔ w.arena.Supports c a v ∧
    (a.tail = a.head → ∃ z, w.arena.Supports c a z ∧ (z, v) ∈ c.pairs)
  head : ∀ v, v ∈ u.arena.effective a.head ↔ v ∈ w.arena.effective a.head ∧
    (∃ z, w.arena.Supports c a z ∧ (z, v) ∈ c.pairs) ∧
    (a.tail = a.head → w.arena.Supports c a v)
  pruned : r.pruned = 0 → ∀ v ∈ w.arena.effective a.tail, w.arena.Supports c a v
  marked : r.marked = 0 → ∀ v ∈ w.arena.effective a.head,
    (a.tail = a.head → w.arena.Supports c a v) → v ∈ u.arena.effective a.head

/-- A revision without exclusions leaves everything in sight. -/
theorem Revised.effective_of_isUnchanged {c : Constraint} {a : Arc}
    {w u : Workspace} {r : Revision} (h : Revised c a w r u)
    (hr : r.isUnchanged) {i : Nat} {v : Int} (hv : v ∈ w.arena.effective i) :
    v ∈ u.arena.effective i := by
  simp only [Revision.isUnchanged, Bool.and_eq_true, beq_iff_eq] at hr
  have htail : ∀ v ∈ w.arena.effective a.tail, w.arena.Supports c a v :=
    h.pruned hr.1
  have hhead : ∀ v ∈ w.arena.effective a.head, v ∈ u.arena.effective a.head :=
    fun v hv => h.marked hr.2 v hv fun heq => htail v (heq ▸ hv)
  by_cases hih : i = a.head
  · subst hih
    exact hhead v hv
  · by_cases hit : i = a.tail
    · subst hit
      exact (h.tail v).mpr ⟨htail v hv, fun heq => absurd heq hih⟩
    · rwa [Arena.effective, h.frame i hit hih]

namespace Constraint

/-- The values that a variable `x` at the tail shows and that have a support at
`y`. -/
def keeps (c : Constraint) (x y : Variable) : List Int :=
  x.effective.toList.filter fun v => y.hasSupport (c.supports v).toList

/-- The values that `x` shows without a support at `y`. -/
def drops (c : Constraint) (x y : Variable) : List Int :=
  x.effective.toList.filter fun v => !y.hasSupport (c.supports v).toList

end Constraint

section

variable {m : Arena} {c : Constraint} {a : Arc} {x y x' y' : Variable} {v : Int}

/-- A supported value, seen from the variables at both ends. -/
theorem Arena.supports_iff (hx : m.read a.tail = .ok x)
    (hy : m.read a.head = .ok y) :
    m.Supports c a v ↔ v ∈ x.effective ∧
    y.hasSupport (c.supports v).toList := by
  rw [Arena.Supports, effective_of_read hx, effective_of_read hy,
    Variable.hasSupport_iff]
  apply and_congr_right
  intro _
  simp only [← ValueSet.mem_def, Constraint.mem_supports]
  exact exists_congr fun z => and_comm

/-- What a revision keeps are the values that have a support. -/
theorem Constraint.mem_keeps (hx : m.read a.tail = .ok x)
    (hy : m.read a.head = .ok y) : v ∈ c.keeps x y ↔ m.Supports c a v := by
  rw [keeps, List.mem_filter, ← ValueSet.mem_def, Arena.supports_iff hx hy]

/-- What it drops are the others that showed. -/
theorem Constraint.mem_drops (hx : m.read a.tail = .ok x)
    (hy : m.read a.head = .ok y) :
    v ∈ c.drops x y ↔ v ∈ x.effective ∧ ¬ m.Supports c a v := by
  rw [drops, List.mem_filter, ← ValueSet.mem_def, Arena.supports_iff hx hy]
  apply and_congr_right
  intro hv
  simp [hv]

/-- Nothing is dropped twice. -/
theorem Constraint.nodup_drops : (c.drops x y).Nodup :=
  x.effective.nodup.filter _

/-- The head shows less after the cut at the tail only if the two are one
variable. -/
theorem Arena.mem_effective_head (htail : a.tail < m.size)
    (hx' : ∀ v, v ∈ x'.effective ↔ m.Supports c a v) :
    v ∈ (m.write a.tail x').effective a.head ↔
      v ∈ m.effective a.head ∧ (a.tail = a.head → m.Supports c a v) := by
  by_cases heq : a.tail = a.head
  · rw [← heq, effective_write_self htail, hx']
    exact ⟨fun hs => ⟨hs.1, fun _ => hs⟩, fun h => h.2 rfl⟩
  · rw [effective_write_of_ne heq]
    exact (and_iff_left fun h => absurd h heq).symm

/-- The tail shows less after the cut at the head only if the two are one
variable. -/
theorem Arena.mem_effective_tail {P : Int → Prop} (htail : a.tail < m.size)
    (hhead : a.head < m.size) (hx' : ∀ v, v ∈ x'.effective ↔ m.Supports c a v)
    (hy' : ∀ v, v ∈ y'.effective ↔
      v ∈ (m.write a.tail x').effective a.head ∧ P v) :
    v ∈ ((m.write a.tail x').write a.head y').effective a.tail ↔
      m.Supports c a v ∧ (a.tail = a.head → P v) := by
  have hhead' : a.head < (m.write a.tail x').size :=
    (size_write _ _ _).symm ▸ hhead
  by_cases heq : a.tail = a.head
  · have hself : ((m.write a.tail x').write a.head y').effective a.tail =
        y'.effective := by
      rw [heq] at hhead' ⊢
      exact effective_write_self hhead'
    rw [hself, hy', mem_effective_head htail hx']
    constructor
    · intro h
      exact ⟨h.1.2 heq, fun _ => h.2⟩
    · intro h
      exact ⟨⟨heq ▸ h.1.1, fun _ => h.1⟩, h.2 heq⟩
  · rw [effective_write_of_ne (Ne.symm heq), effective_write_self htail, hx']
    exact (and_iff_left fun h => absurd h heq).symm

end

/-- One pass over the effective domain of the tail tells what is kept and what
is dropped. -/
theorem Constraint.partition_eq (c : Constraint) (x y : Variable) :
    (x.effective.toList.partition fun v => y.hasSupport (c.supports v).toList) =
      (c.keeps x y, c.drops x y) := by
  rw [List.partition_eq_filter_filter]
  rfl

/-- A revision is a cut at the tail and then one at the head. -/
theorem Network.revise_eq_bind {n : Network} {a : Arc} {c : Constraint}
    {w : Workspace} {x y : Variable} (hc : n.find? a = some c)
    (hx : w.arena.read a.tail = .ok x) (hy : w.arena.read a.head = .ok y) :
    n.revise a w = w.excludeAll a.tail (c.drops x y) >>= fun p =>
      p.2.hide a.head (c.supported (c.keeps x y)).contains >>= fun q =>
        .ok (⟨p.1, q.1⟩,
          { q.2 with tally := q.2.tally.revision a p.1 q.1 }) := by
  simp only [revise, hc, hx, hy, c.partition_eq, bind, Except.bind, pure,
    Except.pure]

/-- **A revision is two cuts.**  The second one falls on what the first left, if
the two ends are one variable. -/
theorem Network.revise_eq_ok {net : Network} {a : Arc} {c : Constraint}
    {w : Workspace} {x y : Variable} (hc : net.find? a = some c)
    (hx : w.arena.read a.tail = .ok x) (hy : w.arena.read a.head = .ok y)
    (hcx : x.Calm) (hcy : y.Calm) :
    ∃ x' z gone y', x.Pruned (c.drops x y) x' ∧
      (w.arena.write a.tail x').read a.head = .ok z ∧ z.Hidden gone y' ∧
      (∀ v, v ∈ gone ↔ v ∈ z.live ∧ ∀ u ∈ c.keeps x y, (u, v) ∉ c.pairs) ∧
      gone.Nodup ∧
      net.revise a w = .ok (⟨(c.drops x y).length, gone.length⟩,
        ⟨(w.arena.write a.tail x').write a.head y',
          if gone = [] then w.trail.recordPrunes a.tail (c.drops x y).length
            else
              (w.trail.recordPrunes a.tail (c.drops x y).length).recordMark
                a.head,
          w.tally.revision a (c.drops x y).length gone.length⟩) := by
  have hhead : a.head < w.arena.size := Arena.lt_of_read hy
  obtain ⟨x', hprune, hpruned⟩ :=
    Workspace.excludeAll_of_live hx hcx (c.nodup_drops (y := y))
      fun v hv => (Variable.mem_effective.mp
        ((Constraint.mem_drops hx hy).mp hv).1).1
  obtain ⟨z, hz⟩ :=
    Arena.exists_read ((Arena.size_write w.arena a.tail x').symm ▸ hhead)
  have hcz : z.Calm := by
    rcases (Arena.read_write (Arena.lt_of_read hx)).mp hz with
      ⟨_, rfl⟩ | ⟨_, hz⟩
    · exact hpruned.later.calm hcx
    · exact Arena.read_unique hz hy ▸ hcy
  let w' : Workspace :=
    ⟨w.arena.write a.tail x', w.trail.recordPrunes a.tail (c.drops x y).length,
      w.tally⟩
  obtain ⟨y', hhide, hhidden⟩ := Workspace.hide_of_calm (w := w') hz hcz
    (c.supported (c.keeps x y)).contains rfl
  refine ⟨x', z, _, y', hpruned, hz, hhidden, ?_, ValueSet.nodup _, ?_⟩
  · intro v
    rw [← ValueSet.mem_def, Variable.unsupported, ValueSet.mem_filter,
      Bool.not_eq_true', ← Bool.not_eq_true, ← Std.ExtTreeSet.mem_iff_contains,
      Constraint.mem_supported]
    simp only [not_exists, not_and]
  · rw [revise_eq_bind hc hx hy, hprune]
    show (w'.hide a.head _ >>= _) = _
    rw [hhide]
    rfl

/-- **A revision succeeds** at two calm ends, and leaves what `Revised` says. -/
theorem Network.revise_of_calm {n : Network} {a : Arc} {c : Constraint}
    {w : Workspace} {x y : Variable} (hc : n.find? a = some c)
    (hx : w.arena.read a.tail = .ok x) (hy : w.arena.read a.head = .ok y)
    (hcx : x.Calm) (hcy : y.Calm) :
    ∃ r u, n.revise a w = .ok (r, u) ∧ Revised c a w r u := by
  have htail : a.tail < w.arena.size := Arena.lt_of_read hx
  obtain ⟨x', z, gone, y', hpruned, hz, hhidden, hgone, _, hrevise⟩ :=
    revise_eq_ok hc hx hy hcx hcy
  have hx' : ∀ v, v ∈ x'.effective ↔ w.arena.Supports c a v := by
    intro v
    rw [hpruned.mem_effective, Constraint.mem_drops hx hy, not_and,
      Classical.not_not]
    exact ⟨fun h => h.2 h.1, fun hs =>
      ⟨Arena.effective_of_read hx ▸ hs.1, fun _ => hs⟩⟩
  have hy' : ∀ v, v ∈ y'.effective ↔
      v ∈ (w.arena.write a.tail x').effective a.head ∧
      ∃ z, w.arena.Supports c a z ∧ (z, v) ∈ c.pairs := by
    intro v
    rw [hhidden.mem_effective, Arena.effective_of_read hz, hgone,
      and_congr_right_iff]
    intro hv
    simp only [(Variable.mem_effective.mp hv).1, true_and, Classical.not_forall,
      Classical.not_not, exists_prop, Constraint.mem_keeps hx hy]
  refine ⟨_, _, hrevise, ?_⟩
  have hhead' : a.head < (w.arena.write a.tail x').size := Arena.lt_of_read hz
  have hhead : a.head < w.arena.size := Arena.size_write w.arena _ _ ▸ hhead'
  have hself : ((w.arena.write a.tail x').write a.head y').effective a.head =
      y'.effective :=
    Arena.effective_write_self hhead'
  constructor
  · let w' : Workspace :=
      ⟨w.arena.write a.tail x',
        w.trail.recordPrunes a.tail (c.drops x y).length, w.tally⟩
    have hww' : w.Later w' := Workspace.later_write hx hpruned.later rfl rfl
    exact hww'.trans (Workspace.later_hidden (w := w') hz hhidden)
  · intro i hit hih
    exact (Arena.read_write_of_ne (Ne.symm hih) y').trans
      (Arena.read_write_of_ne (Ne.symm hit) x')
  · exact fun v => Arena.mem_effective_tail htail hhead hx' hy'
  · intro v
    simp only [hself, hy', Arena.mem_effective_head htail hx']
    rw [and_assoc, and_comm (a := a.tail = a.head → _)]
  · intro h0 v hv
    apply Classical.byContradiction
    intro hs
    have hmem : v ∈ c.drops x y :=
      (Constraint.mem_drops hx hy).mpr ⟨Arena.effective_of_read hx ▸ hv, hs⟩
    rw [List.eq_nil_of_length_eq_zero h0] at hmem
    cases hmem
  · intro h0 v hv hs
    have hshown : v ∈ (w.arena.write a.tail x').effective a.head :=
      (Arena.mem_effective_head htail hx').mpr ⟨hv, hs⟩
    rw [Arena.effective_of_read hz, ← hhidden.same
      (List.eq_nil_of_length_eq_zero h0), ← hself] at hshown
    exact hshown

/-- A revision that succeeds found both ends. -/
theorem Network.exists_ends {n : Network} {a : Arc} {c : Constraint}
    {w u : Workspace} {r : Revision} (hc : n.find? a = some c)
    (h : n.revise a w = .ok (r, u)) :
    ∃ x y, w.arena.read a.tail = .ok x ∧ w.arena.read a.head = .ok y := by
  simp only [revise, hc] at h
  obtain ⟨x, hx, h⟩ := of_bind_eq_ok h
  obtain ⟨y, hy, _⟩ := of_bind_eq_ok h
  exact ⟨x, y, hx, hy⟩

/-- Whatever came of revising an arc between calm variables, it only excluded
values. -/
theorem Network.later_of_revise {n : Network} {a : Arc} {w u : Workspace}
    {r : Revision} (hcalm : ∀ i x, w.arena.read i = .ok x → x.Calm)
    (h : n.revise a w = .ok (r, u)) : w.Later u := by
  cases hc : n.find? a with
  | none =>
      rw [revise_eq_of_find?_eq_none hc] at h
      cases h
      exact Workspace.Later.refl w
  | some c =>
      obtain ⟨x, y, hx, hy⟩ := exists_ends hc h
      obtain ⟨r', u', h', hrevised⟩ :=
        revise_of_calm hc hx hy (hcalm _ x hx) (hcalm _ y hy)
      rw [h] at h'
      cases h'
      exact hrevised.later

end ConstraintNet
