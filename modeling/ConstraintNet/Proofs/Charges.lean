import ConstraintNet.Proofs.Semijoins
import ConstraintNet.Proofs.Tallies

/-!
# How often an arc is revised

An arc comes back on the agenda only after its head has lost a live value, and
no value is lost twice.  So each revision of an arc, but for the first one, is
charged to a value that its head lost since the one before.

`Serves` lists the arcs that a propagation revises.  What an arc can still be
revised for is what it is owed: one revision if it waits, and one for each live
value left at its head.  Every step pays for the revision that it makes,
whatever the closure and whichever variables are assigned.

* `Network.live_revise` — a revision takes from the live values just what it
  counts;
* `Serves.charged` — the revisions of a run are paid for by what the arc was
  owed.
-/

namespace ConstraintNet

/-! ## Live values -/

namespace Arena

variable {m k : Arena} {i j : Nat} {x y : Variable}

/-- The live values of the variable at a position; none if there is none. -/
def live (m : Arena) (i : Nat) : ValueSet :=
  match m.read i with
  | .ok x => x.live
  | .error _ => ∅

/-- The number of live values that the variable at a position lost from one
arena to another. -/
def losses (m k : Arena) (i : Nat) : Nat :=
  ((m.live i).filter (· ∉ k.live i)).size

/-- The live values of an id are those of the variable there. -/
theorem live_of_read (h : m.read i = .ok x) : m.live i = x.live := by
  rw [live, h]

/-- A live value is one of some variable; ids beyond the arena have none. -/
theorem read_of_mem_live {v : Int} (h : v ∈ m.live i) :
    ∃ x, m.read i = .ok x ∧ v ∈ x.live := by
  unfold live at h
  split at h
  · rename_i x hx
    exact ⟨x, hx, h⟩
  · exact absurd h (ValueSet.not_mem_empty v)

/-- What is lost and what is left is what there was. -/
theorem losses_add_size (h : ∀ v, v ∈ k.live i → v ∈ m.live i) :
    m.losses k i + (k.live i).size = (m.live i).size := by
  rw [Nat.add_comm]
  refine ValueSet.size_add_length (ValueSet.nodup _) (fun v hv => ?_) fun v =>
    ?_
  · exact (ValueSet.mem_filter.mp hv).1
  · rw [← ValueSet.mem_def, ValueSet.mem_filter, decide_eq_true_eq]
    constructor
    · exact fun hv => ⟨h v hv, fun hnot => hnot.2 hv⟩
    · intro hparts
      obtain ⟨hm, hnot⟩ := hparts
      by_contra hk
      exact hnot ⟨hm, hk⟩

/-- A variable that loses so many live values takes them from its own position
only. -/
theorem size_live_write {n : Nat} (hx : m.read j = .ok x)
    (hxy : y.live.size + n = x.live.size) (i : Nat) :
    ((m.write j y).live i).size + (if i = j then n else 0) =
      (m.live i).size := by
  by_cases h : i = j
  · subst h
    rw [live_of_read (read_write_self (lt_of_read hx) y), live_of_read hx,
      if_pos rfl, hxy]
  · rw [live, live, read_write_of_ne (Ne.symm h), if_neg h, Nat.add_zero]

end Arena

/-- Excluding values makes no value live that was not. -/
theorem Workspace.Later.live {w u : Workspace} (h : w.Later u) {i : Nat}
    {v : Int} (hv : v ∈ u.arena.live i) : v ∈ w.arena.live i := by
  obtain ⟨y, hy, hv⟩ := Arena.read_of_mem_live hv
  obtain ⟨x, p, m, hx, hxy⟩ := h.read_back hy
  rw [Arena.live_of_read hx]
  exact hxy.live hv

namespace Network

variable {net : Network} {a : Arc} {c : Constraint} {w u : Workspace}
  {r : Revision}

/-- A revision of calm variables leaves calm ones. -/
theorem calm_revise (hcalm : w.arena.Calm) (h : net.revise a w = .ok (r, u)) :
    u.arena.Calm :=
  (later_of_revise hcalm h).calm hcalm

/-- **A revision takes from the live values just what it counts**, prunes from
the tail and marks from the head. -/
theorem live_revise (hcalm : w.arena.Calm) (h : net.revise a w = .ok (r, u))
    (i : Nat) :
    (u.arena.live i).size + (if i = a.tail then r.pruned else 0) +
      (if i = a.head then r.marked else 0) = (w.arena.live i).size := by
  cases hc : net.find? a with
  | none =>
      rw [revise_eq_of_find?_eq_none hc] at h
      cases h
      simp
  | some c =>
      obtain ⟨x, y, hx, hy⟩ := exists_ends hc h
      obtain ⟨x', z, gone, y', hpruned, hz, hhidden, hgone, hnodup, hrevise⟩ :=
        revise_eq_ok hc hx hy (hcalm _ x hx) (hcalm _ y hy)
      rw [h] at hrevise
      cases hrevise
      have htail : x'.live.size + (c.drops x y).length = x.live.size :=
        ValueSet.size_add_length c.nodup_drops (fun v hv =>
          (Variable.mem_effective.mp ((Constraint.mem_drops hx hy).mp hv).1).1)
            hpruned.mem_live
      have hhead : y'.live.size + gone.length = z.live.size :=
        ValueSet.size_add_length hnodup (fun v hv => ((hgone v).mp hv).1)
          hhidden.mem_live
      have hfirst := Arena.size_live_write hx htail i
      have hsecond := Arena.size_live_write hz hhead i
      simp only
      omega

end Network

/-! ## The arcs that a propagation revises -/

namespace Propagator

variable {p : Propagator} {q q' rest : Agenda} {w u t : Workspace} {a b : Arc}
  {l : List Arc} {ok : Bool} {changed : Option Arc}

/-- Propagation from an agenda at `w` revises the arcs of a list, in this order,
and ends at `u` with a flag. -/
inductive Serves (p : Propagator) : Agenda → Workspace → List Arc → Bool →
    Workspace → Prop
  /-- No arc waits. -/
  | settled {q : Agenda} {w : Workspace} (hstep : p.step q w = .ok .settled) :
      Serves p q w [] true w
  /-- The first waiting arc has a tail with nothing left, and is not revised. -/
  | barren {q : Agenda} {w u : Workspace}
      (hstep : p.step q w = .ok (.failed u none)) : Serves p q w [] false u
  /-- The revision of the first waiting arc leaves nothing at its head. -/
  | emptied {q : Agenda} {w u : Workspace} {a : Arc}
      (hstep : p.step q w = .ok (.failed u (some a))) : Serves p q w [a] false u
  /-- The first waiting arc is revised, and propagation goes on. -/
  | going {q rest q' : Agenda} {w w' u : Workspace} {a : Arc}
      {changed : Option Arc}
      {l : List Arc} {ok : Bool} (hpop : q.pop? = some (a, rest))
      (hstep : p.step q w = .ok (.going q' w' changed))
      (hserves : Serves p q' w' l ok u) :
      Serves p q w (a :: l) ok u

/-- A step that goes on has revised the first waiting arc. -/
theorem of_step_eq_going (h : p.step q w = .ok (.going q' u changed)) :
    ∃ a rest r, q.pop? = some (a, rest) ∧ p.network.revise a w = .ok (r, u) ∧
      (q' = rest ∨ q' = rest.pushAll (p.awakened a r)) := by
  unfold step at h
  split at h
  · cases h
  · rename_i a rest hpop
    split at h
    · cases h
    · obtain ⟨x, _, h⟩ := of_bind_eq_ok h
      split at h
      · cases h
      · obtain ⟨⟨r, t⟩, hrevise, h⟩ := of_bind_eq_ok h
        simp only at h
        split at h
        · cases h
          exact ⟨a, _, r, hpop, hrevise, .inl rfl⟩
        · obtain ⟨y, _, h⟩ := of_bind_eq_ok h
          split at h
          · cases h
          · cases h
            exact ⟨a, rest, r, hpop, hrevise, .inr rfl⟩

/-- A step that fails has counted a wipeout, and has revised the first waiting
arc if it names one. -/
theorem of_step_eq_failed (h : p.step q w = .ok (.failed u changed)) :
    ∃ a rest, q.pop? = some (a, rest) ∧ (changed = none ∧ u = w.wipeout ∨
      changed = some a ∧ ∃ r t, p.network.revise a w = .ok (r, t) ∧
      u = t.wipeout) := by
  unfold step at h
  split at h
  · cases h
  · rename_i a rest hpop
    refine ⟨a, rest, hpop, ?_⟩
    split at h
    · cases h
    · obtain ⟨x, _, h⟩ := of_bind_eq_ok h
      split at h
      · cases h
        exact .inl ⟨rfl, rfl⟩
      · obtain ⟨⟨r, t⟩, hrevise, h⟩ := of_bind_eq_ok h
        simp only at h
        split at h
        · cases h
        · obtain ⟨y, _, h⟩ := of_bind_eq_ok h
          split at h
          · cases h
            exact .inr ⟨rfl, r, t, hrevise, rfl⟩
          · cases h

/-- **Every run has its list.** -/
theorem exists_serves_of_run {β : Type} {observe : Arc → Arena → β → β}
    {seen seen' : β} (h : p.run observe q w seen = .ok (ok, u, seen')) :
    ∃ l, p.Serves q w l ok u := by
  induction q, w, seen using run.induct p observe with
  | case1 q w seen e he =>
      rw [run, he] at h
      cases h
  | case2 q w seen hs =>
      rw [run, hs] at h
      cases h
      exact ⟨[], .settled hs⟩
  | case3 q w seen u' changed hs =>
      rw [run, hs] at h
      cases h
      cases changed with
      | none => exact ⟨[], .barren hs⟩
      | some a => exact ⟨[a], .emptied hs⟩
  | case4 q w seen q' w' changed hs ih =>
      rw [run, hs] at h
      obtain ⟨l, hl⟩ := ih h
      obtain ⟨a, rest, _, hpop, _⟩ := of_step_eq_going hs
      exact ⟨a :: l, .going hpop hs hl⟩

/-- **Every list has its run.** -/
theorem Serves.run_eq {β : Type} (h : p.Serves q w l ok u)
    (observe : Arc → Arena → β → β) (seen : β) :
    ∃ seen', p.run observe q w seen = .ok (ok, u, seen') := by
  induction h generalizing seen with
  | settled hstep => exact ⟨seen, by rw [run, hstep]⟩
  | barren hstep => exact ⟨_, by rw [run, hstep]⟩
  | emptied hstep => exact ⟨_, by rw [run, hstep]⟩
  | @going q rest q' w w' u a changed l ok _ hstep _ ih =>
      obtain ⟨seen', hrun⟩ := ih (notice observe w' seen changed)
      refine ⟨seen', ?_⟩
      rw [run, hstep]
      exact hrun

/-- What a propagation served can be listed: the arcs in the order in which they
were taken from the agenda. -/
theorem exists_serves {seed : List Arc} (h : p.propagate seed w = .ok (ok, u)) :
    ∃ l, p.Serves (.ofList seed) w l ok u := by
  obtain ⟨⟨ok', u', seen⟩, hrun, heq⟩ := of_map_eq_ok h
  cases heq
  exact exists_serves_of_run hrun

/-- The list settles the propagation, its answer as well as what it leaves. -/
theorem Serves.propagate_eq {seed : List Arc}
    (h : p.Serves (.ofList seed) w l ok u) :
    p.propagate seed w = .ok (ok, u) := by
  obtain ⟨seen, hrun⟩ := h.run_eq (fun _ _ _ => ()) ()
  rw [propagate, hrun]
  rfl

/-! ## What the revisions are charged to -/

/-- The revisions that an arc is owed: one if it waits, and one for each live
value of its head. -/
def owed (q : Agenda) (w : Workspace) (a : Arc) : Nat :=
  (if a ∈ q.toList then 1 else 0) + (w.arena.live a.head).size

/-- The head of an arc that is put back on the agenda has lost a live value. -/
theorem size_live_lt_of_mem_awakened {r : Revision} (hcalm : w.arena.Calm)
    (h : p.network.revise a w = .ok (r, u)) (hb : b ∈ p.awakened a r) :
    (u.arena.live b.head).size < (w.arena.live b.head).size := by
  have hlive := Network.live_revise hcalm h b.head
  rw [awakened, List.mem_append] at hb
  rcases hb with hb | hb
  · split at hb
    · have htail : b.head = a.tail :=
        (Network.mem_arcsInto.mp (List.mem_filter.mp hb).1).2
      rw [if_pos htail] at hlive
      omega
    · cases hb
  · split at hb
    · rename_i hmarked
      have hhead : b.head = a.head :=
        (Network.mem_arcsInto.mp (List.mem_filter.mp hb).1).2
      rw [if_pos hhead] at hlive
      simp only [Bool.and_eq_true, decide_eq_true_eq] at hmarked
      omega
    · cases hb

/-- **Serving an arc is paid for by what it was owed**, and no other arc is owed
more. -/
theorem owed_serve {r : Revision} (hcalm : w.arena.Calm)
    (hpop : q.pop? = some (a, rest)) (h : p.network.revise a w = .ok (r, u))
    (hq' : ∀ b ∈ q'.toList, b ∈ rest.toList ∨ b ∈ p.awakened a r) (b : Arc) :
    (if a = b then 1 else 0) + owed q' u b ≤ owed q w b := by
  have hle : (u.arena.live b.head).size ≤ (w.arena.live b.head).size := by
    have hlive := Network.live_revise hcalm h b.head
    omega
  have hnodup := q.nodup_toList
  rw [Agenda.toList_pop? hpop] at hnodup
  have hwaits : b ∈ q.toList ↔ b = a ∨ b ∈ rest.toList :=
    Agenda.mem_of_pop? hpop
  unfold owed
  by_cases hb : b ∈ q'.toList
  · rw [if_pos hb]
    rcases hq' b hb with hrest | hback
    · have hab : a ≠ b := by
        rintro rfl
        exact (List.nodup_cons.mp hnodup).1 hrest
      rw [if_neg hab, if_pos (hwaits.mpr (.inr hrest))]
      omega
    · have hlt := size_live_lt_of_mem_awakened hcalm h hback
      by_cases hab : a = b
      · rw [if_pos hab, if_pos (hwaits.mpr (.inl hab.symm))]
        omega
      · rw [if_neg hab]
        omega
  · rw [if_neg hb]
    by_cases hab : a = b
    · rw [if_pos hab, if_pos (hwaits.mpr (.inl hab.symm))]
      omega
    · rw [if_neg hab]
      omega

/-- **All revisions of an arc are paid for**, and so are the live values that
its head has left. -/
theorem Serves.charged (h : p.Serves q w l ok u) (hcalm : w.arena.Calm)
    (b : Arc) : l.count b + (u.arena.live b.head).size ≤ owed q w b := by
  induction h with
  | settled => exact Nat.add_le_add_right (Nat.zero_le _) _
  | barren hstep =>
      obtain ⟨a, rest, _, ⟨_, rfl⟩ | ⟨hnone, _⟩⟩ := of_step_eq_failed hstep
      · exact Nat.add_le_add_right (Nat.zero_le _) _
      · cases hnone
  | emptied hstep =>
      obtain ⟨a, rest, hpop, ⟨hnone, _⟩ | ⟨hsome, r, t, hrevise, rfl⟩⟩ :=
        of_step_eq_failed hstep
      · cases hnone
      · cases hsome
        have hpaid := owed_serve hcalm hpop hrevise (fun b hb => .inl hb) b
        have hleft : (t.wipeout.arena.live b.head).size ≤ owed rest t b :=
          Nat.le_add_left _ _
        simp only [List.count_cons, List.count_nil, beq_iff_eq]
        exact Nat.le_trans (by omega) hpaid
  | going hpop hstep _ ih =>
      obtain ⟨a, rest, r, hpop', hrevise, hq'⟩ := of_step_eq_going hstep
      rw [hpop] at hpop'
      cases hpop'
      have hpaid := owed_serve hcalm hpop hrevise (by
        rcases hq' with rfl | rfl
        · exact fun b hb => .inl hb
        · exact fun b hb => Agenda.mem_pushAll.mp hb) b
      have hrest := ih (Network.calm_revise hcalm hrevise)
      simp only [List.count_cons, beq_iff_eq]
      omega

/-! ## What is counted -/

/-- What revisions of the arcs of a list add to the counts of revisions: one for
each arc that has a constraint. -/
structure Counted (net : Network) (l : List Arc) (w u : Workspace) : Prop where
  ofArc : ∀ a, (u.tally.ofArc a).revisions =
    (w.tally.ofArc a).revisions + if a ∈ net.arcs then l.count a else 0
  revisions : u.tally.revisions = w.tally.revisions + l.countP (· ∈ net.arcs)

theorem counted_nil (net : Network) (w : Workspace) : Counted net [] w w where
  ofArc a := by simp
  revisions := rfl

/-- A wipeout is not among the revisions. -/
theorem Counted.wipeout {net : Network} (h : Counted net l w u) :
    Counted net l w u.wipeout :=
  ⟨h.ofArc, h.revisions⟩

/-- The counts of two lists of revisions are those of the lists together. -/
theorem Counted.trans {net : Network} {l' : List Arc} (h : Counted net l w u)
    (h' : Counted net l' u t) : Counted net (l ++ l') w t where
  ofArc a := by
    rw [h'.ofArc, h.ofArc, List.count_append]
    split <;> omega
  revisions := by
    rw [h'.revisions, h.revisions, List.countP_append, Nat.add_assoc]

/-- A revision counts one for its arc if there is a constraint, and none
otherwise. -/
theorem counted_revise {net : Network} {r : Revision}
    (h : net.revise a w = .ok (r, u)) : Counted net [a] w u := by
  have htally := Network.tally_revise h
  split at htally
  · rename_i ha
    refine ⟨fun b => ?_, ?_⟩
    · rw [htally, Tally.ofArc_revision]
      by_cases hab : a = b
      · subst hab
        simp [ha]
      · simp [hab]
    · rw [htally]
      simp [ha, Tally.revision]
  · rename_i ha
    refine ⟨fun b => ?_, ?_⟩
    · rw [htally]
      by_cases hab : a = b
      · subst hab
        simp [ha]
      · simp [hab]
    · rw [htally]
      simp [ha]

/-- **The revisions are counted**, those of each arc and all of them
together. -/
theorem Serves.counted (h : p.Serves q w l ok u) : Counted p.network l w u := by
  induction h with
  | settled => exact counted_nil _ _
  | barren hstep =>
      obtain ⟨a, rest, _, ⟨_, rfl⟩ | ⟨hnone, _⟩⟩ := of_step_eq_failed hstep
      · exact (counted_nil _ _).wipeout
      · cases hnone
  | emptied hstep =>
      obtain ⟨a, rest, hpop, ⟨hnone, _⟩ | ⟨hsome, r, t, hrevise, rfl⟩⟩ :=
        of_step_eq_failed hstep
      · cases hnone
      · cases hsome
        exact (counted_revise hrevise).wipeout
  | going hpop hstep _ ih =>
      obtain ⟨a, rest, r, hpop', hrevise, _⟩ := of_step_eq_going hstep
      rw [hpop] at hpop'
      cases hpop'
      exact (counted_revise hrevise).trans ih

/-- **An arc is revised at most once more than its head loses values.**  On any
network, under both closures and from any arcs, propagation of variables to
which anything was done before, if no marks wait, comes to an end without a
fault; and it revises each arc at most once, and once more for each live value
that the head of the arc loses meanwhile, which is also how far the count of the
arc grows. -/
theorem propagate_revises_within (p : Propagator) (seed : List Arc)
    (w : Workspace) (hnet : p.network.Within w.arena.size)
    (hseed : ∀ a ∈ seed, a.Within w.arena.size)
    (hvars : ∀ i x, w.arena.read i = .ok x → x.IsDerived ∧ x.pending = ∅) :
    ∃ ok u l, p.propagate seed w = .ok (ok, u) ∧
      p.Serves (.ofList seed) w l ok u ∧
      ∀ a, l.count a ≤ 1 + w.arena.losses u.arena a.head ∧
        (u.tally.ofArc a).revisions =
          (w.tally.ofArc a).revisions +
            (if a ∈ p.network.arcs then l.count a else 0) ∧
        (u.tally.ofArc a).revisions ≤
          (w.tally.ofArc a).revisions +
            (1 + w.arena.losses u.arena a.head) := by
  have hcalm : w.arena.Calm := fun i x hx =>
    (hvars i x hx).1.calm (hvars i x hx).2
  obtain ⟨ok, u, hrun, hpropagated⟩ := propagate_of_calm hcalm hnet hseed
  obtain ⟨l, hserves⟩ := exists_serves hrun
  refine ⟨ok, u, l, hrun, hserves, fun a => ?_⟩
  have hcount : l.count a ≤ 1 + w.arena.losses u.arena a.head := by
    have hcharged := hserves.charged hcalm a
    have hlost : w.arena.losses u.arena a.head + (u.arena.live a.head).size =
        (w.arena.live a.head).size :=
      Arena.losses_add_size fun v hv => hpropagated.later.live hv
    rw [owed] at hcharged
    split at hcharged <;> omega
  have hcounted := hserves.counted.ofArc a
  refine ⟨hcount, hcounted, ?_⟩
  rw [hcounted]
  split <;> omega

/-- A chain of three variables.  The last one has a value, so that the middle
one loses the other value after the arc that leads to it was revised. -/
theorem propagate_revises_within_of_three :
    let net := Network.ofConstraints [
      { first := 0, second := 1, pairs := [(0, 0), (1, 1)] },
      { first := 1, second := 2, pairs := [(0, 0), (1, 1)] }]
    let p : Propagator := ⟨net, .frontier⟩
    let seed : List Arc := [⟨0, 1⟩, ⟨1, 2⟩]
    let w : Workspace :=
      { arena := .ofList [.fresh 0 (.ofList [0, 1]), .fresh 1 (.ofList [0, 1]),
      (Variable.fresh 2 (.ofList [0, 1])).assign 1] }
    ∃ ok u l, p.propagate seed w = .ok (ok, u) ∧
      p.Serves (.ofList seed) w l ok u ∧
      ∀ a, l.count a ≤ 1 + w.arena.losses u.arena a.head ∧
        (u.tally.ofArc a).revisions =
          (w.tally.ofArc a).revisions +
            (if a ∈ p.network.arcs then l.count a else 0) ∧
        (u.tally.ofArc a).revisions ≤
          (w.tally.ofArc a).revisions +
            (1 + w.arena.losses u.arena a.head) := by
  intro net p seed w
  have hsize : w.arena.size = 3 := rfl
  have harcs : net.arcs = [⟨0, 1⟩, ⟨1, 2⟩] := by decide +kernel
  have hnet : p.network.Within w.arena.size := by
    intro a ha
    rw [show p.network = net from rfl, harcs] at ha
    rw [hsize]
    revert a
    decide
  have hseed : ∀ a ∈ seed, a.Within w.arena.size := by
    rw [hsize]
    decide
  have hvars : ∀ i x, w.arena.read i = .ok x → x.IsDerived ∧ x.pending = ∅ := by
    intro i x hx
    match i, hx with
    | 0, hx =>
      cases hx
      exact ⟨⟨0, _, [], rfl⟩, rfl⟩
    | 1, hx =>
      cases hx
      exact ⟨⟨1, _, [], rfl⟩, rfl⟩
    | 2, hx =>
      cases hx
      exact ⟨⟨2, _, [.assign 1], rfl⟩, rfl⟩
  exact propagate_revises_within p seed w hnet hseed hvars

end Propagator

end ConstraintNet
