import ConstraintNet.Proofs.Accounting
import ConstraintNet.Proofs.Barren
import ConstraintNet.Proofs.Maintaining

/-!
# The books of a search

Trail and variables keep the same books twice.  The trail has an entry for each
prune and for each batch of marks, and so has the stack of the variable
concerned; what was pruned of a variable and what was not make up what it
started with; and the values that it counts as tried are those of the open
choice points.

The books are right after every step that changes them, whatever the variable
order names, and so they are right at both ends of every call, and after every
revision of a propagation, also of one that fails later.
-/

namespace ConstraintNet

/-! ## What is booked -/

namespace Decision

/-- The value that the decision is about. -/
def value : Decision → Int
  | accept _ v => v
  | refute _ v => v

/-- The values of the choice points on a variable, of which decisions were made
on the way to a call, the latest first. -/
def choices (ds : List Decision) (i : Nat) : List Int :=
  (ds.filter (·.index == i)).map value

/-- A decision opens a choice of its own variable, before those that were
open. -/
theorem choices_cons_self (d : Decision) (ds : List Decision) :
    choices (d :: ds) d.index = d.value :: choices ds d.index := by
  simp [choices]

/-- It opens none of another variable. -/
theorem choices_cons_of_ne {d : Decision} {i : Nat} (h : i ≠ d.index)
    (ds : List Decision) : choices (d :: ds) i = choices ds i := by
  simp [choices, Ne.symm h]

/-- A choice point stays open while its other branch is searched. -/
theorem choices_refute (i : Nat) (v : Int) (ds : List Decision) :
    choices (refute i v :: ds) = choices (accept i v :: ds) := by
  funext j
  by_cases h : j = i
  · subst h
    exact (choices_cons_self (refute j v) ds).trans
      (choices_cons_self (accept j v) ds).symm
  · exact (choices_cons_of_ne (d := refute i v) h ds).trans
      (choices_cons_of_ne (d := accept i v) h ds).symm

end Decision

/-- The books of a workspace that began with the variables `m` and came to the
open choice points of `ds`: the stacks of each variable are as deep as the trail
says, its domain and its pruned values are the two parts of what it started
with, its marks lie in its domain and none is pending, and it counts as tried
just the values of its open choice points, the latest first. -/
structure Workspace.Booked (m : Arena) (ds : List Decision) (w : Workspace) :
    Prop where
  size : w.arena.size = m.size
  initials : m.KeepsInitials w.arena
  settled : ∀ i x, w.arena.read i = .ok x → x.Settled
  pruned : ∀ i x, w.arena.read i = .ok x →
    x.pruned.depth = w.trail.pruned.entries.count i
  marked : ∀ i x, w.arena.read i = .ok x →
    x.marked.depth = w.trail.marked.entries.count i
  tried : ∀ i x, w.arena.read i = .ok x → x.tried.values = Decision.choices ds i
  known : ∀ i ∈ w.trail.pruned.entries ++ w.trail.marked.entries,
    i < w.arena.size

/-- What a change of one variable that succeeded made of a workspace. -/
theorem Workspace.of_modify_eq_ok {w u : Workspace} {i : Nat}
    {f : Variable → Except Fault Variable} (h : w.modify i f = .ok u) :
    ∃ x y, w.arena.read i = .ok x ∧ f x = .ok y ∧
      u = ⟨w.arena.write i y, w.trail, w.tally⟩ := by
  obtain ⟨a, ha, rfl⟩ := of_map_eq_ok h
  unfold Arena.modify at ha
  split at ha
  · cases ha
  · rename_i x hx
    split at ha
    · cases ha
    · rename_i y hy
      cases ha
      exact ⟨x, y, hx, hy, rfl⟩

namespace Workspace.Booked

variable {m : Arena} {ds ds' : List Decision} {w u : Workspace} {i : Nat}
  {x y : Variable} {v : Int}

/-- Fresh variables have nothing in their books. -/
theorem of_isFresh (hm : m.IsFresh) :
    Booked m [] (Search.begin m).toWorkspace where
  size := rfl
  initials := (Arena.Alike.refl m).keepsInitials
  settled i x hx := (hm i x hx).settled
  pruned i x hx := by
    rw [(hm i x hx).pruned]
    rfl
  marked i x hx := by
    rw [(hm i x hx).marked]
    rfl
  tried i x hx := by
    rw [(hm i x hx).tried]
    rfl
  known i hi := nomatch hi

/-- At books that are right each variable can be asked for exclusions. -/
theorem calm (h : w.Booked m ds) : w.arena.Calm :=
  fun i x hx => (h.settled i x hx).calm

/-- What is counted does not matter. -/
theorem of_tally (h : w.Booked m ds) (tally : Tally) :
    Booked m ds ⟨w.arena, w.trail, tally⟩ :=
  ⟨h.size, h.initials, h.settled, h.pruned, h.marked, h.tried, h.known⟩

/-- The decisions matter only for the choices that they leave open. -/
theorem of_choices (h : w.Booked m ds)
    (hds : Decision.choices ds = Decision.choices ds') : w.Booked m ds' :=
  { h with tried := fun i x hx => hds ▸ h.tried i x hx }

/-- **Exclusions are booked on both sides.** -/
theorem later (h : w.Booked m ds) (hlater : w.Later u) : u.Booked m ds := by
  obtain ⟨prunes, marks, hprunes, hmarks, hlt, hread⟩ := hlater.trail
  -- Where the variable at a position came from, and how often the trail names
  -- it since.
  have hback : ∀ i y, u.arena.read i = .ok y → ∃ x, w.arena.read i = .ok x ∧
      x.Later y (prunes.count i) (marks.count i) := by
    intro i y hy
    obtain ⟨x, hx⟩ := Arena.exists_read (hlater.size ▸ Arena.lt_of_read hy)
    obtain ⟨y', hy', hxy⟩ := hread i x hx
    exact ⟨x, hx, Arena.read_unique hy' hy ▸ hxy⟩
  constructor
  · exact hlater.size.trans h.size
  · exact h.initials.trans hlater.keepsInitials
  · intro i y hy
    obtain ⟨x, hx, hxy⟩ := hback i y hy
    exact hxy.settled (h.settled i x hx)
  · intro i y hy
    obtain ⟨x, hx, hxy⟩ := hback i y hy
    obtain ⟨l, hl, hbatches⟩ := hxy.pruned
    have hdepth := h.pruned i x hx
    rw [Exclusion.Stack.depth] at hdepth ⊢
    rw [hprunes, hbatches, List.length_append, List.count_append, hl, hdepth]
  · intro i y hy
    obtain ⟨x, hx, hxy⟩ := hback i y hy
    obtain ⟨l, hl, hbatches⟩ := hxy.marked
    have hdepth := h.marked i x hx
    rw [Exclusion.Stack.depth] at hdepth ⊢
    rw [hmarks, hbatches, List.length_append, List.count_append, hl, hdepth]
  · intro i y hy
    obtain ⟨x, hx, hxy⟩ := hback i y hy
    rw [hxy.tried, h.tried i x hx]
  · intro i hi
    rw [hlater.size]
    rw [hprunes, hmarks] at hi
    have hi : i ∈ prunes ++ marks ∨
        i ∈ w.trail.pruned.entries ++ w.trail.marked.entries := by
      grind
    exact hi.elim (hlt i) (h.known i)

/-- A variable may change in what it has tried, if the open choice points change
with it. -/
theorem write (h : w.Booked m ds) (hx : w.arena.read i = .ok x)
    (hinitial : y.initial = x.initial) (hsettled : y.Settled)
    (hpruned : y.pruned = x.pruned) (hmarked : y.marked = x.marked)
    (htried : y.tried.values = Decision.choices ds' i)
    (hother : ∀ j, j ≠ i → Decision.choices ds' j = Decision.choices ds j) :
    Booked m ds' ⟨w.arena.write i y, w.trail, w.tally⟩ := by
  have hi := Arena.lt_of_read hx
  constructor
  · exact (Arena.size_write _ _ _).trans h.size
  · exact h.initials.trans (Arena.keepsInitials_write hx hinitial)
  · intro j z hz
    rcases (Arena.read_write hi).mp hz with ⟨_, rfl⟩ | ⟨_, hz⟩
    · exact hsettled
    · exact h.settled j z hz
  · intro j z hz
    rcases (Arena.read_write hi).mp hz with ⟨rfl, rfl⟩ | ⟨_, hz⟩
    · rw [hpruned]
      exact h.pruned j x hx
    · exact h.pruned j z hz
  · intro j z hz
    rcases (Arena.read_write hi).mp hz with ⟨rfl, rfl⟩ | ⟨_, hz⟩
    · rw [hmarked]
      exact h.marked j x hx
    · exact h.marked j z hz
  · intro j z hz
    rcases (Arena.read_write hi).mp hz with ⟨rfl, rfl⟩ | ⟨hne, hz⟩
    · exact htried
    · rw [hother j hne]
      exact h.tried j z hz
  · exact fun j hj => (Arena.size_write _ _ _).symm ▸ h.known j hj

theorem assign (h : w.Booked m ds)
    (hu : w.modify i (.ok <| ·.assign v) = .ok u) :
    u.Booked m (.accept i v :: ds) := by
  obtain ⟨x, y, hx, hy, rfl⟩ := of_modify_eq_ok hu
  cases hy
  refine h.write hx rfl { h.settled i x hx with } rfl rfl ?_ fun j hj => ?_
  · refine Eq.trans ?_ (Decision.choices_cons_self (.accept i v) ds).symm
    exact congrArg (v :: ·) (h.tried i x hx)
  · exact Decision.choices_cons_of_ne (d := .accept i v) hj ds

theorem unassign (h : w.Booked m ds)
    (hu : w.modify i (.ok ·.unassign) = .ok u) : u.Booked m ds := by
  obtain ⟨x, y, hx, hy, rfl⟩ := of_modify_eq_ok hu
  cases hy
  exact h.write hx rfl { h.settled i x hx with } rfl rfl (h.tried i x hx)
    fun j _ => rfl

/-- Without its latest entries a track names a variable less often by what they
name it. -/
theorem count_drop (t : Track) (n i : Nat) :
    (t.drop n).entries.count i = t.entries.count i - (t.latest n).count i := by
  have hsplit := congrArg (List.count i) (List.take_append_drop n t.entries)
  rw [List.count_append] at hsplit
  show (t.entries.drop n).count i =
    t.entries.count i - (t.entries.take n).count i
  omega

/-- What was tracked last is part of what was tracked. -/
theorem count_latest_le (t : Track) (n i : Nat) :
    (t.latest n).count i ≤ t.entries.count i :=
  (List.take_sublist n t.entries).count_le i

/-- **The books allow every checkpoint before them.** -/
theorem exists_rewind {c : Checkpoint} (h : w.Booked m ds)
    (hc : c.pruned ≤ w.trail.pruned.size ∧ c.marked ≤ w.trail.marked.size) :
    let prunes := w.trail.pruned.size - c.pruned
    let marks := w.trail.marked.size - c.marked
    ∃ a, w.rewind c =
        .ok ⟨a, ⟨w.trail.pruned.drop prunes, w.trail.marked.drop marks⟩,
          w.tally⟩ ∧
      a.size = w.arena.size ∧
      ∀ i z, a.read i = .ok z → ∃ x, w.arena.read i = .ok x ∧
        x.Undone z ((w.trail.pruned.latest prunes).count i)
          ((w.trail.marked.latest marks).count i) := by
  refine Workspace.exists_rewind hc rfl rfl (fun i hi => h.known i ?_)
      fun i x hx =>
    ⟨h.settled i x hx, ?_, ?_⟩
  · rcases List.mem_append.mp hi with hi | hi
    · exact List.mem_append_left _ (List.mem_of_mem_take hi)
    · exact List.mem_append_right _ (List.mem_of_mem_take hi)
  · exact Nat.le_trans (count_latest_le _ _ i)
      (Nat.le_of_eq (h.pruned i x hx).symm)
  · exact Nat.le_trans (count_latest_le _ _ i)
      (Nat.le_of_eq (h.marked i x hx).symm)

/-- No checkpoint ahead of the trail is rewound to. -/
theorem le_of_rewind {c : Checkpoint} (hu : w.rewind c = .ok u) :
    c.pruned ≤ w.trail.pruned.size ∧ c.marked ≤ w.trail.marked.size := by
  obtain ⟨r, hrewind, _⟩ := of_map_eq_ok hu
  unfold Trail.rewind at hrewind
  split at hrewind
  · assumption
  · cases hrewind

/-- What rewinding made of a workspace. -/
theorem undone {c : Checkpoint} (h : w.Booked m ds) (hu : w.rewind c = .ok u) :
    let prunes := w.trail.pruned.size - c.pruned
    let marks := w.trail.marked.size - c.marked
    u.trail = ⟨w.trail.pruned.drop prunes, w.trail.marked.drop marks⟩ ∧
      u.arena.size = w.arena.size ∧
      ∀ i z, u.arena.read i = .ok z → ∃ x, w.arena.read i = .ok x ∧
        x.Undone z ((w.trail.pruned.latest prunes).count i)
          ((w.trail.marked.latest marks).count i) := by
  obtain ⟨a, ha, hsize, hback⟩ := h.exists_rewind (le_of_rewind hu)
  rw [hu] at ha
  cases ha
  exact ⟨rfl, hsize, hback⟩

/-- **Taking exclusions back takes them off both sides.** -/
theorem rewind {c : Checkpoint} (h : w.Booked m ds) (hu : w.rewind c = .ok u) :
    u.Booked m ds := by
  obtain ⟨htrail, hsize, hback⟩ := h.undone hu
  constructor
  · exact hsize.trans h.size
  · intro i z hz
    obtain ⟨x, hx, hxz⟩ := hback i z hz
    obtain ⟨y, hy, hyx⟩ := h.initials i x hx
    exact ⟨y, hy, hxz.initial.trans hyx⟩
  · intro i z hz
    obtain ⟨x, hx, hxz⟩ := hback i z hz
    exact hxz.settled (h.settled i x hx)
  · intro i z hz
    obtain ⟨x, hx, hxz⟩ := hback i z hz
    have hdepth : x.pruned.batches.length = w.trail.pruned.entries.count i :=
      h.pruned i x hx
    rw [Exclusion.Stack.depth, hxz.pruned, List.length_drop, hdepth, htrail,
      count_drop]
  · intro i z hz
    obtain ⟨x, hx, hxz⟩ := hback i z hz
    have hdepth : x.marked.batches.length = w.trail.marked.entries.count i :=
      h.marked i x hx
    rw [Exclusion.Stack.depth, hxz.marked, List.length_drop, hdepth, htrail,
      count_drop]
  · intro i z hz
    obtain ⟨x, hx, hxz⟩ := hback i z hz
    rw [hxz.tried, h.tried i x hx]
  · intro i hi
    rw [htrail] at hi
    rw [hsize]
    apply h.known i
    rcases List.mem_append.mp hi with hi | hi
    · exact List.mem_append_left _ (List.mem_of_mem_drop hi)
    · exact List.mem_append_right _ (List.mem_of_mem_drop hi)

end Workspace.Booked

/-! ## Propagation -/

namespace Propagator

variable {p : Propagator} {seed : List Arc} {w u t : Workspace} {q : Agenda}

/-- The workspaces right after each revision of a propagation from an agenda. -/
inductive Revises (p : Propagator) : Agenda → Workspace → Workspace → Prop
  /-- The first waiting arc is revised. -/
  | now {q rest : Agenda} {w u : Workspace} {a : Arc} {x : Variable}
      {r : Revision}
      (hpop : q.pop? = some (a, rest)) (hx : w.arena.read a.tail = .ok x)
      (hleft : x.isWipedOut = false)
      (hrevise : p.network.revise a w = .ok (r, u)) : Revises p q w u
  /-- A later one is. -/
  | later {q q' : Agenda} {w w' u : Workspace} {changed : Option Arc}
      (hstep : p.step q w = .ok (.going q' w' changed))
      (hrevises : Revises p q' w' u) :
      Revises p q w u

/-- **Up to each revision nothing has happened but exclusions.** -/
theorem Underway.later_of_revises (h : Underway p seed w q u)
    (hcalm : w.arena.Calm) (hnet : p.network.Within w.arena.size)
    (hrevises : p.Revises q u t) : w.Later t := by
  induction hrevises with
  | now _ _ _ hrevise =>
      exact h.later.trans (Network.later_of_revise (h.later.calm hcalm) hrevise)
  | later hstep _ ih =>
      obtain ⟨s, hs, hstepped⟩ := step_of_calm (p := p) (h.later.calm hcalm)
        (fun a ha => h.later.size.symm ▸ h.waiting a ha)
      rw [hstep] at hs
      cases hs
      exact ih (h.leads hnet hstepped)

end Propagator

namespace Workspace.Booked

variable {m : Arena} {ds : List Decision} {p : Propagator} {seed : List Arc}
  {w u : Workspace}

/-- **After every revision the books are right.** -/
theorem revises (h : w.Booked m ds) (hnet : p.network.Within m.size)
    (hseed : ∀ a ∈ seed, a.Within m.size)
    (hrevises : p.Revises (.ofList seed) w u) : u.Booked m ds :=
  h.later (((Propagator.Underway.start (h.size.symm ▸ hseed)).later_of_revises
    h.calm (h.size.symm ▸ hnet)) hrevises)

/-- And so they are when the propagation ends, however it does. -/
theorem propagate {ok : Bool} (h : w.Booked m ds)
    (hnet : p.network.Within m.size) (hseed : ∀ a ∈ seed, a.Within m.size)
    (hrun : p.propagate seed w = .ok (ok, u)) : u.Booked m ds := by
  obtain ⟨ok', u', hrun', hp⟩ :=
    Propagator.propagate_of_calm (p := p) h.calm (h.size.symm ▸ hnet)
      (h.size.symm ▸ hseed)
  rw [hrun] at hrun'
  cases hrun'
  exact h.later hp.later

end Workspace.Booked

/-! ## Operations of a search -/

namespace Search

variable {m : Arena} {ds : List Decision} {s t : Search} {i : Nat} {v : Int}

/-- Counting a node writes nothing into the books. -/
theorem booked_node (h : s.toWorkspace.Booked m ds) :
    s.node.toWorkspace.Booked m ds := h.of_tally _

/-- Assigning opens a choice. -/
theorem booked_assign (h : s.toWorkspace.Booked m ds)
    (ht : s.assign i v = .ok t) : t.toWorkspace.Booked m (.accept i v :: ds) :=
  h.assign (of_modify_eq_ok (f := fun w => w.modify i (.ok <| ·.assign v)) ht).1

/-- Taking the value away does not close it: the right branch is still to
come. -/
theorem booked_unassign (h : s.toWorkspace.Booked m ds)
    (ht : s.unassign i = .ok t) : t.toWorkspace.Booked m ds :=
  h.unassign (of_modify_eq_ok (f := fun w => w.modify i (.ok ·.unassign)) ht).1

/-- Retiring closes the latest choice point. -/
theorem booked_retire {d : Decision} (h : s.toWorkspace.Booked m (d :: ds))
    (ht : s.retire d.index = .ok t) : t.toWorkspace.Booked m ds := by
  obtain ⟨u, solutions⟩ := t
  obtain ⟨x, y, hx, hy, rfl⟩ := Workspace.of_modify_eq_ok
    (of_modify_eq_ok (f := fun w => w.modify d.index Variable.retire) ht).1
  have htried := h.tried _ x hx
  rw [Decision.choices_cons_self] at htried
  unfold Variable.retire at hy
  split at hy
  · cases hy
  · rename_i v tried hpop
    cases hy
    have hvalues := Choices.values_of_pop? hpop
    rw [htried] at hvalues
    refine h.write hx rfl { h.settled _ x hx with } rfl rfl
      (List.cons.inj hvalues).2.symm
      fun j hj => ?_
    exact (Decision.choices_cons_of_ne hj ds).symm

/-- Pruning a value is booked, if it was live. -/
theorem booked_exclude {pruned : Bool} (h : s.toWorkspace.Booked m ds)
    (ht : s.exclude i v = .ok (pruned, t)) : t.toWorkspace.Booked m ds :=
  h.later (Workspace.later_of_exclude (fun x hx => (h.settled i x hx).calm)
    (of_adjust_eq_ok (f := fun w => w.exclude i v) ht).1)

/-- Propagating the arcs that leave a variable books what is excluded. -/
theorem booked_propagateFrom {p : Propagator} {ok : Bool}
    (hnet : p.network.Within m.size) (h : s.toWorkspace.Booked m ds)
    (ht : s.propagateFrom p i = .ok (ok, t)) : t.toWorkspace.Booked m ds :=
  h.propagate hnet (fun a ha => hnet a (Network.mem_arcsFrom.mp ha).1)
    (of_propagate_eq_ok ht).1

/-- Rewinding takes from trail and variables alike. -/
theorem booked_rewind {c : Checkpoint} (h : s.toWorkspace.Booked m ds)
    (ht : s.rewind c = .ok t) : t.toWorkspace.Booked m ds :=
  h.rewind (of_modify_eq_ok (f := fun w => w.rewind c) ht).1

end Search

/-! ## Calls -/

namespace Branching

variable {σ : Type} {b : Branching σ}
  {below : σ → Search → Except Fault (Flow × σ × Search)} {m : Arena}
  {ds : List Decision} {g g' : σ} {s r t : Search} {i : Nat} {v : Int}
  {entry : Checkpoint} {flow : Flow} {ok : Bool}

/-- Accepting a value leaves the books right, with one choice more, whether or
not propagation fails. -/
theorem booked_accept (hnet : b.propagator.network.Within m.size)
    (h : s.toWorkspace.Booked m ds) (ht : b.accept i v s = .ok (ok, t)) :
    t.toWorkspace.Booked m (.accept i v :: ds) := by
  obtain ⟨s', hassign, hpropagate⟩ := of_bind_eq_ok ht
  exact Search.booked_propagateFrom hnet (Search.booked_assign h hassign)
    hpropagate

/-- The refuted value's choice point is the one on which the value was
accepted. -/
theorem booked_refute (hnet : b.propagator.network.Within m.size)
    (h : r.toWorkspace.Booked m (.accept i v :: ds))
    (ht : b.refute i v r = .ok (ok, t)) :
    t.toWorkspace.Booked m (.refute i v :: ds) := by
  obtain ⟨⟨pruned, r'⟩, hexclude, hrest⟩ := of_bind_eq_ok ht
  have hr' :=
    (Search.booked_exclude h hexclude).of_choices
      (Decision.choices_refute i v ds).symm
  obtain ⟨x, hx, hrest⟩ := of_bind_eq_ok hrest
  split at hrest
  · exact Search.booked_propagateFrom hnet hr' hrest
  · cases hrest
    exact hr'

/-- What is called keeps the books of the state that it is called with. -/
def KeepsBooks (m : Arena)
    (below : σ → Search → Except Fault (Flow × σ × Search)) : Prop :=
  ∀ ds g s flow g' t, s.toWorkspace.Booked m ds →
    below g s = .ok (flow, g', t) →
    t.toWorkspace.Booked m ds

/-- Below a branch the books are left right by the search there, or nothing is
written into them. -/
theorem booked_descend (hbelow : KeepsBooks m below)
    (h : s.toWorkspace.Booked m ds)
    (ht : descend below g ok s = .ok (flow, g', t)) :
    t.toWorkspace.Booked m ds := by
  cases ok with
  | true => exact hbelow ds g s flow g' t h ht
  | false =>
      cases ht
      exact h.of_tally _

/-- The left branch leaves its choice open. -/
theorem booked_left (hnet : b.propagator.network.Within m.size)
    (hbelow : KeepsBooks m below) (h : s.toWorkspace.Booked m ds)
    (ht : b.left below i v g entry s = .ok (flow, g', t)) :
    t.toWorkspace.Booked m (.accept i v :: ds) := by
  rw [left_eq] at ht
  obtain ⟨⟨ok, s₁⟩, haccept, hrest⟩ := of_bind_eq_ok ht
  obtain ⟨⟨flow₁, g₁, s₂⟩, hdescend, hrest⟩ := of_bind_eq_ok hrest
  obtain ⟨s₃, hrewind, hrest⟩ := of_bind_eq_ok hrest
  obtain ⟨s₄, hunassign, hrest⟩ := of_bind_eq_ok hrest
  cases hrest
  have haccepted := booked_accept hnet h haccept
  have hreturned := booked_descend hbelow haccepted hdescend
  exact Search.booked_unassign
    (Search.booked_rewind hreturned hrewind) hunassign

/-- The right branch finds it open and leaves it so. -/
theorem booked_right (hnet : b.propagator.network.Within m.size)
    (hbelow : KeepsBooks m below)
    (h : s.toWorkspace.Booked m (.accept i v :: ds))
    (ht : b.right below i v g entry s = .ok (flow, g', t)) :
    t.toWorkspace.Booked m (.accept i v :: ds) := by
  obtain ⟨⟨ok, s₁⟩, hrefute, hrest⟩ := of_bind_eq_ok ht
  obtain ⟨⟨flow₁, g₁, s₂⟩, hdescend, hrest⟩ := of_bind_eq_ok hrest
  obtain ⟨s₃, hrewind, hrest⟩ := of_bind_eq_ok hrest
  cases hrest
  have hreturned :=
    booked_descend hbelow (booked_refute hnet h hrefute) hdescend
  exact (Search.booked_rewind hreturned hrewind).of_choices
    (Decision.choices_refute i v ds)

/-- **A node closes the choice point that it opens.** -/
theorem booked_branch (hnet : b.propagator.network.Within m.size)
    (hbelow : KeepsBooks m below) (h : s.toWorkspace.Booked m ds)
    (ht : b.branch below i v g entry s = .ok (flow, g', t)) :
    t.toWorkspace.Booked m ds := by
  have hclose : ∀ {r : Search} {flow₁ : Flow} {g₁ : σ},
      r.toWorkspace.Booked m (.accept i v :: ds) → (do
        let u ← r.retire i
        if u.trail.checkpoint = entry then return (flow₁, g₁, u)
        else throw (.unbalanced i entry u.trail.checkpoint)) =
          Except.ok (flow, g', t) →
      t.toWorkspace.Booked m ds := by
    intro r flow₁ g₁ hr hrest
    obtain ⟨u, hretire, hrest⟩ := of_bind_eq_ok hrest
    have hu := Search.booked_retire (d := .accept i v) hr hretire
    split at hrest
    · cases hrest
      exact hu
    · cases hrest
  obtain ⟨⟨flow₁, g₁, r⟩, hleft, hrest⟩ := of_bind_eq_ok ht
  have hr := booked_left hnet hbelow h hleft
  cases flow₁ with
  | stop => exact hclose hr hrest
  | goOn =>
      obtain ⟨⟨flow₂, g₂, r'⟩, hright, hrest⟩ := of_bind_eq_ok hrest
      exact hclose (booked_right hnet hbelow hr hright) hrest

/-- **Every call that ends leaves the books right.** -/
theorem booked_search (hnet : b.propagator.network.Within m.size) :
    ∀ d, KeepsBooks m (b.search d) := by
  intro d
  induction d with
  | zero => exact fun _ _ _ _ _ _ _ ht => nomatch ht
  | succ d ih =>
      intro ds g s flow g' t h ht
      have hnode := Search.booked_node h
      cases ends_of_search ht with
      | recorded _ hrecord =>
          rw [(Search.of_record_eq_ok hrecord).1]
          exact hnode
      | unnamed => exact hnode
      | exhausted => exact hnode.of_tally _
      | branched _ hbranch => exact booked_branch hnet ih hnode hbranch

variable {c c' : Call σ} {d : Decision} {w : Workspace}

/-- A branch of a call begins with its choice point open, whether or not it
stands. -/
theorem Explores.booked (h : b.Explores c d ok c')
    (hnet : b.propagator.network.Within m.size)
    (hc : c.search.toWorkspace.Booked m ds) :
    c'.search.toWorkspace.Booked m (d :: ds) := by
  cases h with
  | left hpicks haccept =>
      exact booked_accept hnet (Search.booked_node hc) haccept
  | right hpicks hleft hrefute =>
      have hleft :=
        booked_left hnet (booked_search hnet _) (Search.booked_node hc) hleft
      exact booked_refute hnet hleft hrefute

/-- **At every call the open choice points are those of the decisions on its
path.** -/
theorem Path.booked {c₀ : Call σ} (h : b.Path c₀ ds c)
    (hnet : b.propagator.network.Within m.size)
    (hr : c₀.search.toWorkspace.Booked m []) :
    c.search.toWorkspace.Booked m ds := by
  induction h with
  | nil => exact hr
  | cons _ hexplores ih => exact hexplores.booked hnet ih

/-- The decisions that a call makes, each with the workspace from which it is
propagated. -/
inductive Decides (b : Branching σ) : Call σ → Decision → Workspace → Prop
  | accept {d : Nat} {g g' : σ} {s t : Search} {i : Nat} {v : Int}
      (hpicks : b.Picks ⟨d + 1, g, s⟩ i v g')
      (hassign : s.node.assign i v = .ok t) :
      Decides b ⟨d + 1, g, s⟩ (.accept i v) t.toWorkspace
  | refute {d : Nat} {g g' g'' : σ} {s r t : Search} {i : Nat} {v : Int}
      {x : Variable} (hpicks : b.Picks ⟨d + 1, g, s⟩ i v g')
      (hleft : b.left (b.search d) i v g' s.node.trail.checkpoint s.node =
        .ok (.goOn, g'', r))
      (hexclude : r.exclude i v = .ok (true, t)) (hx : t.arena.read i = .ok x)
      (hshows : x.isWipedOut = false) :
        Decides b ⟨d + 1, g, s⟩ (.refute i v) t.toWorkspace

/-- Where a decision is propagated from, the books are right already. -/
theorem Decides.booked (h : b.Decides c d w)
    (hnet : b.propagator.network.Within m.size)
    (hc : c.search.toWorkspace.Booked m ds) : w.Booked m (d :: ds) := by
  cases h with
  | accept hpicks hassign =>
      exact Search.booked_assign (Search.booked_node hc) hassign
  | refute hpicks hleft hexclude =>
      have hr :=
        booked_left hnet (booked_search hnet _) (Search.booked_node hc) hleft
      exact (Search.booked_exclude hr hexclude).of_choices
        (Decision.choices_refute _ _ ds).symm

end Branching

/-! ## From the root -/

namespace Algorithm

variable {σ : Type} {algorithm : Algorithm} {b : Branching σ} {m : Arena}
  {g : σ} {ds : List Decision} {c : Call σ} {seed : List Arc} {w u : Workspace}

/-- At the first call no choice is open. -/
theorem Begins.booked (h : Begins b m g algorithm c) (hm : m.IsFresh)
    (hnet : b.propagator.network.Within m.size) :
    c.search.toWorkspace.Booked m [] := by
  cases h with
  | forwardChecking => exact .of_isFresh hm
  | maintainArcConsistency hroot =>
      exact (Workspace.Booked.of_isFresh hm).propagate hnet hnet
        (Search.of_propagate_eq_ok hroot).1

/-- At a call below decisions the open choices are those of the decisions. -/
theorem MakesAfter.booked (h : algorithm.MakesAfter b m g ds c) (hm : m.IsFresh)
    (hnet : b.propagator.network.Within m.size) :
    c.search.toWorkspace.Booked m ds := by
  obtain ⟨r, hbegins, hpath⟩ := h
  exact hpath.booked hnet (hbegins.booked hm hnet)

/-- Where there is a variable and a solution, and no value is overlooked, some
call is made below a decision: the first call can neither record a solution nor
give up. -/
theorem Begins.exists_makesAfter {τ : Nat → Int} (h : Begins b m g algorithm c)
    (hlegal : b.selector.IsLegal) (hposed : m.Posed b.propagator.network)
    (hfew : b.valueOrder = .ascending ∨
      ∀ i x, m.read i = .ok x → x.initial.size < 2047)
    (hτ : m.SolvedBy b.propagator.network τ) (hsome : 0 < m.size) :
    ∃ d c', algorithm.MakesAfter b m g [d] c' := by
  have hsafe : b.selector.IsSafe := hlegal.isSafe
  obtain ⟨hinitial, hholds⟩ := hposed.fresh.solvedBy_iff.mp hτ
  have hready : b.Ready m c :=
    h.ready hposed.fresh hposed.numbered hposed.within
  have hwhole : c.search.arena.Whole :=
    h.whole hposed.fresh hposed.numbered hposed.within
      (hposed.fresh.whole hposed.inhabited)
  have hattentive : b.Attentive c := fun _ hreaches =>
    (hreaches.ready hsafe hready).not_overlooks hfew
  have hadmits : c.search.arena.Admits τ := by
    cases h with
    | forwardChecking => exact hinitial
    | maintainArcConsistency hroot =>
        have hp :=
          propagated_of_propagateAll hroot hposed.fresh hposed.numbered
            hposed.within
        exact (hp.admits hposed.within hholds).mpr hinitial
  have hincomplete : c.search.arena.isComplete = false := by
    refine Bool.eq_false_iff.mpr fun hcomplete => ?_
    have hnone := Arena.vacant_of_isComplete hcomplete
    rw [h.vacant hposed.fresh hposed.numbered hposed.within] at hnone
    omega
  obtain ⟨flow, g', t, hsearch, _⟩ :=
    Branching.answers_of_sound hsafe c.depth c.state c.search hready.sound
      hready.deep
  obtain ⟨i, v, hforks⟩ :=
    (Branching.descends_of_search hsearch).forks hlegal hready hwhole
      hattentive hincomplete
  obtain ⟨d, c', hexplores⟩ :=
    hforks.exists_explores hsafe hready hholds hadmits
  exact ⟨d, c', c, h, .cons .nil hexplores⟩

/-- The propagations of a strategy: the open choice points, the arcs and the
workspace from which each sets out. -/
inductive Propagates (b : Branching σ) (m : Arena) (g : σ) :
    Algorithm → List Decision → List Arc → Workspace → Prop
  /-- Maintaining arc consistency makes the whole network consistent first. -/
  | root : Propagates b m g .maintainArcConsistency [] b.propagator.network.arcs
      (Search.begin m).toWorkspace
  /-- Each decision is propagated from the arcs that leave its variable. -/
  | decision {algorithm : Algorithm} {ds : List Decision} {c : Call σ}
      {d : Decision}
      {w : Workspace} (hmakes : algorithm.MakesAfter b m g ds c)
      (hdecides : b.Decides c d w) :
      Propagates b m g algorithm (d :: ds)
        (b.propagator.network.arcsFrom d.index) w

/-- **The books are right throughout a search**, whatever the variable order
names: at the beginning and at the end of every call, and after every revision
of every propagation.  Under a variable order that picks only variables without
a value, no call fails. -/
theorem keeps_books (algorithm : Algorithm) (selector : Selector σ)
    (valueOrder : ValueOrder) (limit : Limit) {net : Network} (g : σ)
    (hm : m.IsFresh) (hnet : net.Within m.size) :
    let b := algorithm.branching selector valueOrder limit net
    (∀ c, algorithm.Makes b m g c → ∃ ds, algorithm.MakesAfter b m g ds c) ∧
    (∀ ds c, algorithm.MakesAfter b m g ds c →
        c.search.toWorkspace.Booked m ds ∧
      ∀ flow g' t, b.search c.depth c.state c.search = .ok (flow, g', t) →
        t.toWorkspace.Booked m ds) ∧
    (∀ ds seed w, Propagates b m g algorithm ds seed w → ∀ u,
      b.propagator.Revises (.ofList seed) w u → u.Booked m ds) ∧
    (selector.IsSafe → m.IsNumbered → ∀ c, algorithm.Makes b m g c →
      ∃ flow g' t, b.search c.depth c.state c.search = .ok (flow, g', t)) := by
  intro b
  refine ⟨fun c hc => makes_iff.mp hc,
    fun ds c hc => ⟨hc.booked hm hnet, ?_⟩, ?_, ?_⟩
  · intro flow g' t ht
    exact Branching.booked_search (b := b) hnet
      _ _ _ _ _ _ _ (hc.booked hm hnet) ht
  · intro ds seed w hpropagates u hrevises
    cases hpropagates with
    | root => exact (Workspace.Booked.of_isFresh hm).revises hnet hnet hrevises
    | decision hmakes hdecides =>
        exact (hdecides.booked hnet (hmakes.booked hm hnet)).revises hnet
          (fun a ha => hnet a (Network.mem_arcsFrom.mp ha).1) hrevises
  · intro hsafe hnumbered c hc
    have hready := hc.ready hsafe hm hnumbered hnet
    obtain ⟨flow, g', t, hrun, _⟩ :=
      Branching.answers_of_sound hsafe c.depth c.state c.search hready.sound
        hready.deep
    exact ⟨flow, g', t, hrun⟩

/-- Two variables with one constraint between them, under the random and the
descending order, with a first revision, a first call and a call below a
decision of that one. -/
theorem keeps_books_of_two :
    let net := Instance.coupleNetwork
    let m := Instance.coupleArena
    let b :=
      maintainArcConsistency.branching VariableOrder.random.select
        .descending .all net
    (∃ u, b.propagator.Revises (.ofList net.arcs) (Search.begin m).toWorkspace
      u ∧ u.Booked m []) ∧
    (∃ c, maintainArcConsistency.MakesAfter b m (.ofSeed 7) [] c ∧
      c.search.toWorkspace.Booked m [] ∧ ∃ flow g' t,
        b.search c.depth c.state c.search = .ok (flow, g', t) ∧
        t.toWorkspace.Booked m []) ∧
    ∃ d c, maintainArcConsistency.MakesAfter b m (.ofSeed 7) [d] c ∧
      c.search.toWorkspace.Booked m [d] ∧ ∃ flow g' t,
        b.search c.depth c.state c.search = .ok (flow, g', t) ∧
        t.toWorkspace.Booked m [d] := by
  intro net m b
  have hposed : m.Posed net := Instance.posed_couple
  obtain ⟨_, hcalls, hrevisions, hreturns⟩ := keeps_books maintainArcConsistency
    VariableOrder.random.select .descending .all (.ofSeed 7) hposed.fresh
      hposed.within
  obtain ⟨r, hbegins⟩ :=
    exists_begins (b := b) maintainArcConsistency (.ofSeed 7) hposed.fresh
      hposed.numbered hposed.within Instance.solvedBy_couple
  have hbooked :
      ∀ ds c, maintainArcConsistency.MakesAfter b m (.ofSeed 7) ds c →
      c.search.toWorkspace.Booked m ds ∧ ∃ flow g' t,
        b.search c.depth c.state c.search = .ok (flow, g', t) ∧
        t.toWorkspace.Booked m ds := by
    intro ds c hmakes
    obtain ⟨flow, g', t, hsearch⟩ :=
      hreturns (VariableOrder.isLegal .random).isSafe
        hposed.numbered c (makes_iff.mpr ⟨ds, hmakes⟩)
    obtain ⟨hentry, hexit⟩ := hcalls ds c hmakes
    exact ⟨hentry, flow, g', t, hsearch, hexit flow g' t hsearch⟩
  refine ⟨?_, ⟨r, ⟨r, hbegins, .nil⟩, hbooked [] r ⟨r, hbegins, .nil⟩⟩, ?_⟩
  · have harcs : net.arcs = [⟨0, 1⟩, ⟨1, 0⟩] := Instance.arcs_couple
    obtain ⟨rest, hpop⟩ : ∃ rest,
        (Agenda.ofList net.arcs).pop? = some (⟨0, 1⟩, rest) := by
      rw [harcs]
      exact ⟨_, rfl⟩
    obtain ⟨c, hc⟩ : ∃ c, net.find? ⟨0, 1⟩ = some c :=
      Option.isSome_iff_exists.mp
        (Network.mem_arcs.mp (harcs ▸ List.mem_cons_self))
    have hfirst : m.read 0 = .ok (.ofBounds 0 0 1) := rfl
    have hsecond : m.read 1 = .ok (.ofBounds 1 0 2) := rfl
    obtain ⟨_, u, hrevise, _⟩ :=
      Network.revise_of_calm (w := (Search.begin m).toWorkspace) hc
        hfirst hsecond (hposed.fresh 0 _ hfirst).settled.calm
          (hposed.fresh 1 _ hsecond).settled.calm
    have hrevises :
        b.propagator.Revises (.ofList net.arcs)
          (Search.begin m).toWorkspace u :=
      .now hpop hfirst (by decide +kernel) hrevise
    exact ⟨u, hrevises, hrevisions [] _ _ .root u hrevises⟩
  · obtain ⟨d, c, hmakes⟩ :=
      hbegins.exists_makesAfter (VariableOrder.isLegal .random) hposed
        (.inr Instance.size_initial_couple) Instance.solvedBy_couple (by decide)
    exact ⟨d, c, hmakes, hbooked [d] c hmakes⟩

end Algorithm

end ConstraintNet
