import ConstraintNet.Proofs.Bookkeeping

/-!
# Checkpoints

A checkpoint is a pair of numbers and keeps no copy of anything.  It is enough
all the same: while no rewinding goes below it, the trail of the time when it
was taken stays at the bottom of the trail, and on either stack of each variable
the batches of that time stay at the bottom too, whatever comes on top of them
and in whatever order.

Rewinding takes off just what lies above.  All marks come back before all
prunes, which is not the order in which they were made; but a settled variable
is decided by its batches, and no value is in a batch of both stacks.

* `Beneath.make`, `Beneath.makeAll` — what is at the bottom stays there;
* `Beneath.restored` — at the old checkpoint nothing lies above it.
-/

namespace ConstraintNet

/-! ## Tracks -/

/-- A suffix is still one after the front of the list was dropped, if this
leaves enough. -/
theorem isSuffix_drop {α : Type} {l l' : List α} {n : Nat} (h : l <:+ l')
    (hn : l.length + n ≤ l'.length) : l <:+ l'.drop n :=
  List.suffix_of_suffix_length_le h (List.drop_suffix n l')
    (by rw [List.length_drop]; omega)

/-- What is named below the latest entries and what they name is all named by
the track. -/
theorem Track.count_add_count_latest_le {l : List Nat} {t : Track} {n : Nat}
    (h : l <:+ (t.drop n).entries) (i : Nat) :
    l.count i + (t.latest n).count i ≤ t.entries.count i := by
  have hsplit := congrArg (List.count i) (List.take_append_drop n t.entries)
  have hle : l.count i ≤ (t.entries.drop n).count i := h.sublist.count_le i
  rw [List.count_append] at hsplit
  show l.count i + (t.entries.take n).count i ≤ t.entries.count i
  omega

namespace Variable

/-- The batches of `x` are at the bottom of those of `y`. -/
structure Beneath (x y : Variable) : Prop where
  initial : y.initial = x.initial
  pruned : x.pruned.batches <:+ y.pruned.batches
  marked : x.marked.batches <:+ y.marked.batches
  pruned_kind : y.pruned.kind = x.pruned.kind
  marked_kind : y.marked.kind = x.marked.kind

/-- `y` has the domain, the live values and both stacks of `x`. -/
structure Restored (x y : Variable) : Prop where
  domain : y.domain.values = x.domain.values
  live : y.live = x.live
  pruned : y.pruned = x.pruned
  marked : y.marked = x.marked

variable {x y z : Variable}

theorem Beneath.refl (x : Variable) : x.Beneath x :=
  ⟨rfl, List.suffix_rfl, List.suffix_rfl, rfl, rfl⟩

/-- What is beneath a variable beneath another is beneath that. -/
theorem Beneath.trans (hxy : x.Beneath y) (hyz : y.Beneath z) :
    x.Beneath z where
  initial := hyz.initial.trans hxy.initial
  pruned := hxy.pruned.trans hyz.pruned
  marked := hxy.marked.trans hyz.marked
  pruned_kind := hyz.pruned_kind.trans hxy.pruned_kind
  marked_kind := hyz.marked_kind.trans hxy.marked_kind

/-- Exclusions come on top. -/
theorem Later.beneath {p m : Nat} (h : x.Later y p m) : x.Beneath y where
  initial := h.initial
  pruned := by
    obtain ⟨l, _, hbatches⟩ := h.pruned
    exact ⟨l, hbatches.symm⟩
  marked := by
    obtain ⟨l, _, hbatches⟩ := h.marked
    exact ⟨l, hbatches.symm⟩
  pruned_kind := h.pruned_kind
  marked_kind := h.marked_kind

/-- Batches may be taken back down to those at the bottom. -/
theorem Beneath.undone {p m : Nat} (h : x.Beneath y) (hyz : y.Undone z p m)
    (hp : x.pruned.depth + p ≤ y.pruned.depth)
    (hm : x.marked.depth + m ≤ y.marked.depth) : x.Beneath z where
  initial := hyz.initial.trans h.initial
  pruned := hyz.pruned ▸ isSuffix_drop h.pruned hp
  marked := hyz.marked ▸ isSuffix_drop h.marked hm
  pruned_kind := hyz.pruned_kind.trans h.pruned_kind
  marked_kind := hyz.marked_kind.trans h.marked_kind

/-- **Settled variables with equally deep stacks, one beneath the other,
agree.** -/
theorem Beneath.restored (h : x.Beneath y) (hx : x.Settled) (hy : y.Settled)
    (hp : x.pruned.depth = y.pruned.depth)
    (hm : x.marked.depth = y.marked.depth) : x.Restored y := by
  have hpruned : y.pruned = x.pruned :=
    hy.pruned_lawful.ext hx.pruned_lawful h.pruned_kind
      (h.pruned.eq_of_length hp).symm
  have hmarked : y.marked = x.marked :=
    hy.marked_lawful.ext hx.marked_lawful h.marked_kind
      (h.marked.eq_of_length hm).symm
  have hdomain : ∀ v, v ∈ y.domain ↔ v ∈ x.domain := fun v => by
    rw [hy.mem_domain, hx.mem_domain, h.initial, hpruned]
  refine ⟨ValueSet.ext_mem hdomain, ValueSet.ext_mem fun v => ?_,
    hpruned, hmarked⟩
  rw [mem_live, mem_live, hdomain, hmarked]

end Variable

namespace Workspace

/-! ## Moves -/

/-- What may be done to the variables of a workspace.  Taking a checkpoint
changes nothing and is no move: one may be taken between any two. -/
inductive Move
  /-- Prunes a value of a variable. -/
  | prune (i : Nat) (v : Int)
  /-- Hides the unsupported values of a variable as one batch. -/
  | mark (i : Nat) (supported : Int → Bool)
  | assign (i : Nat) (v : Int)
  | unassign (i : Nat)
  | rewind (c : Checkpoint)

/-- The move does not rewind below a checkpoint. -/
def Move.StaysAbove (c : Checkpoint) : Move → Prop
  | .rewind d => c.pruned ≤ d.pruned ∧ c.marked ≤ d.marked
  | _ => True

/-- The workspace after a move. -/
def make (w : Workspace) : Move → Except Fault Workspace
  | .prune i v => (w.exclude i v).map Prod.snd
  | .mark i supported => (w.hide i supported).map Prod.snd
  | .assign i v => w.modify i (.ok <| ·.assign v)
  | .unassign i => w.modify i (.ok ·.unassign)
  | .rewind c => w.rewind c

/-- The workspace after moves, one after the other. -/
def makeAll (w : Workspace) (l : List Move) : Except Fault Workspace :=
  l.foldlM make w

variable {m : Arena} {ds ds' : List Decision} {s w u : Workspace} {o : Move}
  {l : List Move} {c : Checkpoint}

/-! ## What lies beneath -/

/-- The trail and the batches of `s` are at the bottom of those of `w`. -/
structure Beneath (s w : Workspace) : Prop where
  size : w.arena.size = s.arena.size
  pruned : s.trail.pruned.entries <:+ w.trail.pruned.entries
  marked : s.trail.marked.entries <:+ w.trail.marked.entries
  read : ∀ i x, s.arena.read i = .ok x →
    ∃ y, w.arena.read i = .ok y ∧ x.Beneath y

theorem Beneath.refl (s : Workspace) : s.Beneath s :=
  ⟨rfl, List.suffix_rfl, List.suffix_rfl, fun _ x hx => ⟨x, hx, .refl x⟩⟩

/-- Moves that stay above a checkpoint can be put one after another. -/
theorem Beneath.trans (hsw : s.Beneath w) (hwu : w.Beneath u) :
    s.Beneath u where
  size := hwu.size.trans hsw.size
  pruned := hsw.pruned.trans hwu.pruned
  marked := hsw.marked.trans hwu.marked
  read i x hx := by
    obtain ⟨y, hy, hxy⟩ := hsw.read i x hx
    obtain ⟨z, hz, hyz⟩ := hwu.read i y hy
    exact ⟨z, hz, hxy.trans hyz⟩

/-- Exclusions come on top. -/
theorem Later.beneath (h : w.Later u) : w.Beneath u := by
  obtain ⟨prunes, marks, hprunes, hmarks, _, hread⟩ := h.trail
  refine ⟨h.size, ⟨prunes, hprunes.symm⟩, ⟨marks, hmarks.symm⟩,
    fun i x hx => ?_⟩
  obtain ⟨y, hy, hxy⟩ := hread i x hx
  exact ⟨y, hy, hxy.beneath⟩

/-- A change of one variable adds nothing to the trail. -/
theorem beneath_modify {i : Nat} {f : Variable → Except Fault Variable}
    (hf : ∀ x y, f x = .ok y → x.Beneath y) (hu : w.modify i f = .ok u) :
    w.Beneath u := by
  obtain ⟨x, y, hx, hy, rfl⟩ := of_modify_eq_ok hu
  refine ⟨Arena.size_write _ _ _, List.suffix_rfl, List.suffix_rfl,
    fun j z hz => ?_⟩
  by_cases hji : j = i
  · subst hji
    obtain rfl := Arena.read_unique hz hx
    exact ⟨y, Arena.read_write_self (Arena.lt_of_read hx) y, hf z y hy⟩
  · exact ⟨z, (Arena.read_write_of_ne (Ne.symm hji) y).trans hz, .refl z⟩

/-- **What is at the bottom stays there while rewinding stays above it.** -/
theorem Beneath.rewind (h : s.Beneath w) (hs : s.Booked m ds)
    (hw : w.Booked m ds')
    (habove : Move.StaysAbove s.trail.checkpoint (.rewind c))
    (hu : w.rewind c = .ok u) : s.Beneath u := by
  obtain ⟨htrail, hsize, hback⟩ := hw.undone hu
  obtain ⟨hprunes, hmarks⟩ := Booked.le_of_rewind hu
  have hpruned : s.trail.pruned.entries <:+ u.trail.pruned.entries := by
    rw [htrail]
    refine isSuffix_drop h.pruned ?_
    have habove : s.trail.pruned.size ≤ c.pruned := habove.1
    rw [← Track.size_eq, ← Track.size_eq]
    omega
  have hmarked : s.trail.marked.entries <:+ u.trail.marked.entries := by
    rw [htrail]
    refine isSuffix_drop h.marked ?_
    have habove : s.trail.marked.size ≤ c.marked := habove.2
    rw [← Track.size_eq, ← Track.size_eq]
    omega
  refine ⟨hsize.trans h.size, hpruned, hmarked, fun i x hx => ?_⟩
  obtain ⟨y, hy, hxy⟩ := h.read i x hx
  obtain ⟨z, hz⟩ := Arena.exists_read (hsize.symm ▸ Arena.lt_of_read hy)
  obtain ⟨y', hy', hyz⟩ := hback i z hz
  obtain rfl := Arena.read_unique hy' hy
  rw [htrail] at hpruned hmarked
  refine ⟨z, hz, hxy.undone hyz ?_ ?_⟩
  · rw [hs.pruned i x hx, hw.pruned i y' hy]
    exact Track.count_add_count_latest_le hpruned i
  · rw [hs.marked i x hx, hw.marked i y' hy]
    exact Track.count_add_count_latest_le hmarked i

/-! ## Runs -/

/-- **A move either adds to what there is or rewinds**, and keeps the books
right. -/
theorem Booked.of_make (h : w.Booked m ds) (hu : w.make o = .ok u) :
    (∃ ds', u.Booked m ds') ∧
      (w.Beneath u ∨ ∃ c, o = .rewind c ∧ w.rewind c = .ok u) := by
  have hcalm : ∀ i x, w.arena.read i = .ok x → x.Calm := fun i x hx =>
    (h.settled i x hx).calm
  cases o with
  | prune i v =>
      obtain ⟨⟨b, t⟩, ht, rfl⟩ := of_map_eq_ok hu
      have hlater := later_of_exclude (hcalm i) ht
      exact ⟨⟨ds, h.later hlater⟩, .inl hlater.beneath⟩
  | mark i supported =>
      obtain ⟨⟨n, t⟩, ht, rfl⟩ := of_map_eq_ok hu
      have hlater := later_of_hide (hcalm i) ht
      exact ⟨⟨ds, h.later hlater⟩, .inl hlater.beneath⟩
  | assign i v =>
      refine ⟨⟨.accept i v :: ds, h.assign hu⟩,
        .inl (beneath_modify (fun x y hy => ?_) hu)⟩
      cases hy
      exact ⟨rfl, List.suffix_rfl, List.suffix_rfl, rfl, rfl⟩
  | unassign i =>
      refine ⟨⟨ds, h.unassign hu⟩, .inl (beneath_modify (fun x y hy => ?_) hu)⟩
      cases hy
      exact ⟨rfl, List.suffix_rfl, List.suffix_rfl, rfl, rfl⟩
  | rewind c => exact ⟨⟨ds, h.rewind hu⟩, .inr ⟨c, rfl, hu⟩⟩

/-- **The books stay right over a run of moves.** -/
theorem Booked.makeAll (h : w.Booked m ds) (hu : w.makeAll l = .ok u) :
    ∃ ds', u.Booked m ds' := by
  induction l generalizing w ds with
  | nil =>
      cases hu
      exact ⟨ds, h⟩
  | cons o l ih =>
      obtain ⟨t, ht, hu⟩ := of_bind_eq_ok hu
      obtain ⟨ds', hbooked⟩ := (h.of_make ht).1
      exact ih hbooked hu

/-- **What is at the bottom stays there over a move.** -/
theorem Beneath.make (h : s.Beneath w) (hs : s.Booked m ds)
    (hw : w.Booked m ds') (habove : o.StaysAbove s.trail.checkpoint)
    (hu : w.make o = .ok u) : s.Beneath u := by
  rcases (hw.of_make hu).2 with hadds | ⟨c, rfl, hrewind⟩
  · exact h.trans hadds
  · exact h.rewind hs hw habove hrewind

/-- **And so it does over a run of moves.** -/
theorem Beneath.makeAll (h : s.Beneath w) (hs : s.Booked m ds)
    (hw : w.Booked m ds') (habove : ∀ o ∈ l, o.StaysAbove s.trail.checkpoint)
    (hu : w.makeAll l = .ok u) : s.Beneath u := by
  induction l generalizing w ds' with
  | nil =>
      cases hu
      exact h
  | cons o l ih =>
      obtain ⟨ho, hl⟩ := List.forall_mem_cons.mp habove
      obtain ⟨t, ht, hu⟩ := of_bind_eq_ok hu
      obtain ⟨ds'', hbooked⟩ := (hw.of_make ht).1
      exact ih (h.make hs hw ho ht) hbooked hl hu

/-- **Where the trail stands at the same checkpoint, all is restored.** -/
theorem Beneath.restored (h : s.Beneath w) (hs : s.Booked m ds)
    (hw : w.Booked m ds') (hc : w.trail.checkpoint = s.trail.checkpoint) :
    w.trail = s.trail ∧
      ∀ i x, s.arena.read i = .ok x →
        ∃ y, w.arena.read i = .ok y ∧ x.Restored y := by
  obtain ⟨hprunes, hmarks⟩ := Checkpoint.mk.inj hc
  rw [Track.size_eq, Track.size_eq] at hprunes hmarks
  have hpruned := h.pruned.eq_of_length hprunes.symm
  have hmarked := h.marked.eq_of_length hmarks.symm
  refine ⟨congrArg₂ Trail.mk (Track.ext_entries hpruned.symm)
    (Track.ext_entries hmarked.symm), fun i x hx => ?_⟩
  obtain ⟨y, hy, hxy⟩ := h.read i x hx
  refine ⟨y, hy, hxy.restored (hs.settled i x hx) (hw.settled i y hy) ?_ ?_⟩
  · rw [hs.pruned i x hx, hw.pruned i y hy, hpruned]
  · rw [hs.marked i x hx, hw.marked i y hy, hmarked]

/-! ## Rewinding -/

/-- Rewinding brings the trail back to the checkpoint it was asked for. -/
theorem checkpoint_of_rewind (hu : w.rewind c = .ok u) :
    u.trail.checkpoint = c := by
  obtain ⟨⟨t, a⟩, hrewind, rfl⟩ := of_map_eq_ok hu
  exact Trail.checkpoint_rewind hrewind

/-- **Rewinding restores what a checkpoint saw.**  Say that moves were made from
fresh variables and an empty trail, that a checkpoint was taken then, and that
any moves came after it, none of which rewound below it.  Then rewinding to the
checkpoint succeeds, the trail is that of the checkpoint, and each variable has
the domain, the live values, and the batches of prunes and of marks that it
had. -/
theorem rewinds_to_checkpoint {front back : List Move}
    (hfresh : w.arena.IsFresh) (htrail : w.trail = ∅)
    (hfront : w.makeAll front = .ok s) (hback : s.makeAll back = .ok u)
    (habove : ∀ o ∈ back, o.StaysAbove s.trail.checkpoint) :
    ∃ t, u.rewind s.trail.checkpoint = .ok t ∧ t.trail = s.trail ∧
      t.arena.size = s.arena.size ∧
      ∀ i x, s.arena.read i = .ok x →
        ∃ y, t.arena.read i = .ok y ∧ x.Restored y := by
  obtain ⟨a, t, tally⟩ := w
  obtain rfl : t = ∅ := htrail
  obtain ⟨ds, hs⟩ := ((Booked.of_isFresh hfresh).of_tally tally).makeAll hfront
  obtain ⟨ds', hu⟩ := hs.makeAll hback
  have hbeneath : s.Beneath u := (Beneath.refl s).makeAll hs hs habove hback
  obtain ⟨b, hrewind, hsize, _⟩ :=
    hu.exists_rewind (c := s.trail.checkpoint) (by
      have hprunes := hbeneath.pruned.length_le
      have hmarks := hbeneath.marked.length_le
      rw [← Track.size_eq, ← Track.size_eq] at hprunes hmarks
      exact ⟨hprunes, hmarks⟩)
  have hend := hbeneath.rewind hs hu ⟨Nat.le_refl _, Nat.le_refl _⟩ hrewind
  obtain ⟨hsame, hrestored⟩ :=
    hend.restored hs (hu.rewind hrewind) (checkpoint_of_rewind hrewind)
  exact ⟨_, hrewind, hsame, hend.size, hrestored⟩

/-- Prunes and marks of two variables alternate on both sides of a checkpoint,
and after it there is a rewinding to another one that takes back the latest
prune but not the mark before it. -/
theorem rewinds_to_checkpoint_of_two :
    let w : Workspace :=
      { arena := .ofList
          [.fresh 0 (.ofList [0, 1, 2]), .fresh 1 (.ofList [0, 1, 2])] }
    let front : List Move := [.prune 0 0, .assign 1 1, .mark 1 (· == 1)]
    let back : List Move :=
      [.mark 0 (· != 1), .prune 0 2, .rewind ⟨1, 2⟩, .unassign 1,
      .prune 1 1, .mark 0 (· != 2)]
    ∃ s u t, w.makeAll front = .ok s ∧ s.makeAll back = .ok u ∧
      s.trail.checkpoint = ⟨1, 1⟩ ∧ u.trail.checkpoint = ⟨2, 3⟩ ∧
      u.rewind ⟨1, 1⟩ = .ok t ∧
      t.trail = s.trail ∧ t.arena.size = 2 ∧
      ∀ i x, s.arena.read i = .ok x →
        ∃ y, t.arena.read i = .ok y ∧ x.Restored y := by
  intro w front back
  obtain ⟨s, u, hfront, hback, hsize, hs, hu⟩ : ∃ s u, w.makeAll front = .ok s ∧
      s.makeAll back = .ok u ∧ s.arena.size = 2 ∧ s.trail.checkpoint = ⟨1, 1⟩ ∧
      u.trail.checkpoint = ⟨2, 3⟩ :=
    ⟨_, _, rfl, rfl, rfl, rfl, rfl⟩
  have hfresh : w.arena.IsFresh := by
    intro i x hx
    match i, hx with
    | 0, hx =>
      cases hx
      exact Variable.isFresh_fresh 0 _
    | 1, hx =>
      cases hx
      exact Variable.isFresh_fresh 1 _
  have habove : ∀ o ∈ back, o.StaysAbove s.trail.checkpoint := by
    rw [hs]
    simp [back, Move.StaysAbove]
  obtain ⟨t, ht, hrest⟩ := rewinds_to_checkpoint hfresh rfl hfront hback habove
  rw [hs] at ht
  rw [hsize] at hrest
  exact ⟨s, u, t, hfront, hback, hs, hu, ht, hrest⟩

end Workspace

end ConstraintNet
