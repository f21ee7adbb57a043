import ConstraintNet.Proofs.Nodes

/-!
# Operations at alike variables

Alike variables differ at most in the shape of the search trees of their
domains. An operation that does not look at the shape does the same at both: it
fails alike, or succeeds with the same answer and leaves alike variables.

`Both` relates two results in this way.  It is carried through binds, and so
from the operations on a variable to those on an arena and a workspace, and to
the steps and the run of a propagation.
-/

namespace ConstraintNet

/-- Two results that failed alike, or succeeded with related values. -/
inductive Both {α β : Type} (R : α → β → Prop) : Except Fault α →
    Except Fault β → Prop
  | ok {a : α} {b : β} (h : R a b) : Both R (.ok a) (.ok b)
  | error (e : Fault) : Both R (.error e) (.error e)

/-- The same answer, and related values. -/
def Same {α β γ : Type} (R : β → γ → Prop) (p : α × β) (q : α × γ) : Prop :=
  p.1 = q.1 ∧ R p.2 q.2

namespace Both

variable {α β γ δ ρ : Type} {R : α → β → Prop} {S : γ → δ → Prop}
  {x : Except Fault α} {y : Except Fault β}

/-- One step after another: if the first steps go alike and the second ones do
from what is related, so do both together. -/
theorem bind (h : Both R x y) {f : α → Except Fault γ} {f' : β → Except Fault δ}
    (hf : ∀ a b, x = .ok a → y = .ok b → R a b → Both S (f a) (f' b)) :
    Both S (x >>= f) (y >>= f') := by
  cases h with
  | ok hab => exact hf _ _ rfl rfl hab
  | error e => exact .error e

/-- What is related stays so when it is looked at in related ways. -/
theorem map (h : Both R x y) {f : α → γ} {f' : β → δ}
    (hf : ∀ a b, R a b → S (f a) (f' b)) : Both S (x.map f) (y.map f') := by
  cases h with
  | ok hab => exact .ok (hf _ _ hab)
  | error e => exact .error e

/-- If the one computation succeeded, so did the other. -/
theorem of_ok (h : Both R x y) {a : α} (hx : x = .ok a) :
    ∃ b, y = .ok b ∧ R a b := by
  subst hx
  cases h with
  | ok hab => exact ⟨_, rfl, hab⟩

/-- If the one failed, the other failed with the same fault. -/
theorem of_error (h : Both R x y) {e : Fault} (hx : x = .error e) :
    y = .error e := by
  subst hx
  cases h
  rfl

/-- An operation repeated along a list. -/
theorem foldlM {ι : Type} {R : α → β → Prop} {f : α → ι → Except Fault α}
    {f' : β → ι → Except Fault β}
    (hf : ∀ i a b, R a b → Both R (f a i) (f' b i)) (l : List ι) :
    ∀ {a : α} {b : β}, R a b → Both R (l.foldlM f a) (l.foldlM f' b) := by
  induction l with
  | nil => exact fun h => .ok h
  | cons i l ih =>
      intro a b h
      rw [List.foldlM_cons, List.foldlM_cons]
      exact (hf i a b h).bind fun _ _ _ _ h => ih h

end Both

/-! ## Variables -/

/-- Pruning many values prunes the first and goes on with the rest. -/
theorem Variable.pruneAll_cons (x : Variable) (n : Nat) (v : Int)
    (l : List Int) :
    x.pruneAll n (v :: l) = x.prune v >>= fun p =>
      p.2.pruneAll (n + p.1.toNat) l := by
  rw [pruneAll]
  cases x.prune v <;> rfl

namespace Variable.Alike

variable {x y : Variable} {v : Int}

/-- What is live of one is live of the other. -/
theorem isLive (h : x.Alike y) (v : Int) : y.isLive v = x.isLive v := by
  rw [Bool.eq_iff_iff, isLive_iff, isLive_iff, h.live]

/-- Variables that look alike are wiped out together. -/
theorem isWipedOut (h : x.Alike y) : y.isWipedOut = x.isWipedOut := by
  rw [Bool.eq_iff_iff, isWipedOut_iff, isWipedOut_iff, h.effective]

/-- They give the same support. -/
theorem hasSupport (h : x.Alike y) (l : List Int) :
    y.hasSupport l = x.hasSupport l := by
  rw [Bool.eq_iff_iff, hasSupport_iff, hasSupport_iff, h.effective]

/-- Equally many values of them show. -/
theorem effectiveSize (h : x.Alike y) : y.effectiveSize = x.effectiveSize := by
  simp only [Variable.effectiveSize, h.value, h.live, h.isLive]

/-- Pruning answers alike and leaves them alike.  The trees of their domains may
differ before and after. -/
theorem prune (h : x.Alike y) (v : Int) :
    Both (Same Variable.Alike) (x.prune v) (y.prune v) := by
  simp only [Variable.prune, h.isLive, h.pruned]
  split
  · cases x.pruned.push [v] with
    | error e => exact .error e
    | ok p =>
        refine .ok ⟨rfl, { h with domain := fun w => ?_, pruned := rfl }⟩
        rw [Domain.mem_erase, Domain.mem_erase, h.domain]
  · exact .ok ⟨rfl, h⟩

/-- So does pruning many values, one after another. -/
theorem pruneAll (l : List Int) : ∀ {x y : Variable} (n : Nat), x.Alike y →
    Both (Same Variable.Alike) (x.pruneAll n l) (y.pruneAll n l) := by
  induction l with
  | nil => exact fun n h => .ok ⟨rfl, h⟩
  | cons v l ih =>
      intro x y n h
      rw [pruneAll_cons, pruneAll_cons]
      refine (h.prune v).bind fun p q _ _ hpq => ?_
      rw [hpq.1]
      exact ih _ hpq.2

/-- Hiding what lacks support marks the same values of both. -/
theorem hideUnsupported (h : x.Alike y) (supported : Int → Bool) :
    Both (Same Variable.Alike) (x.hideUnsupported supported)
      (y.hideUnsupported supported) := by
  have hunsupported : y.unsupported supported = x.unsupported supported := by
    rw [unsupported, unsupported, h.live]
  simp only [hideUnsupported_eq, markUnsupported, commitMarks, h.marked,
    h.pending, hunsupported]
  cases x.marked.push
    (x.pending.insertMany (x.unsupported supported).toList).toList with
  | error e => exact .error e
  | ok p => exact .ok ⟨rfl, { h with marked := rfl, pending := rfl }⟩

/-- Undoing a prune puts the same values back. -/
theorem undoPrune (h : x.Alike y) :
    Both (Same Variable.Alike) x.undoPrune y.undoPrune := by
  simp only [Variable.undoPrune, h.pruned, h.id]
  split
  · refine .ok ⟨rfl, { h with id := rfl, domain := fun w => ?_, pruned := rfl }⟩
    rw [Domain.mem_insertAll, Domain.mem_insertAll, h.domain]
  · exact .error _

/-- Undoing a mark unmarks the same values. -/
theorem undoMark (h : x.Alike y) :
    Both (Same Variable.Alike) x.undoMark y.undoMark := by
  simp only [Variable.undoMark, h.marked, h.id]
  split
  · exact .ok ⟨rfl, { h with id := rfl, marked := rfl }⟩
  · exact .error _

/-- The same choice is retired, or there is none to retire. -/
theorem retire (h : x.Alike y) : Both Variable.Alike x.retire y.retire := by
  simp only [Variable.retire, h.tried, h.id]
  split
  · exact .error _
  · exact .ok { h with id := rfl, tried := rfl }

theorem assign (h : x.Alike y) (v : Int) : (x.assign v).Alike (y.assign v) :=
  { h with value := rfl, tried := congrArg (·.push v) h.tried }

theorem unassign (h : x.Alike y) : x.unassign.Alike y.unassign :=
  { h with value := rfl }

end Variable.Alike

/-! ## Arenas and trails -/

/-- An adjustment reads the variable, changes it and writes it back. -/
theorem Arena.adjust_eq_bind {α : Type} (m : Arena) (i : Nat)
    (f : Variable → Except Fault (α × Variable)) :
    m.adjust i f = m.read i >>= fun x => (f x).map fun p =>
      (p.1, m.write i p.2) := by
  rw [adjust]
  cases m.read i with
  | error e => rfl
  | ok x =>
      cases hf : f x with
      | error e => simp only [put, hf, bind, Except.bind, Except.map]
      | ok p => simp only [put, hf, bind, Except.bind, Except.map, write_write]

/-- So does a change that answers nothing. -/
theorem Arena.modify_eq_bind (m : Arena) (i : Nat)
    (f : Variable → Except Fault Variable) :
    m.modify i f = m.read i >>= fun x => (f x).map (m.write i) := by
  rw [modify]
  cases m.read i with
  | error e => rfl
  | ok x => cases hf : f x <;> simp only [hf, bind, Except.bind, Except.map]

namespace Arena.Alike

variable {m k : Arena} {i : Nat}

/-- Reading goes alike: both arenas have the position or neither has. -/
theorem reads (h : m.Alike k) (i : Nat) :
    Both Variable.Alike (m.read i) (k.read i) := by
  by_cases hi : i < m.size
  · obtain ⟨x, hx⟩ := exists_read hi
    obtain ⟨y, hy, hxy⟩ := h.read i x hx
    rw [hx, hy]
    exact .ok hxy
  · have hm : ¬ i < m.cells.size := hi
    have hk : ¬ i < k.cells.size := fun hk => hi (h.size ▸ hk)
    rw [Arena.read, Arena.read, dif_neg hm, dif_neg hk, h.size]
    exact .error _

/-- What goes alike on variables that look alike goes alike on the arenas. -/
theorem adjust {α : Type} {f : Variable → Except Fault (α × Variable)}
    (h : m.Alike k) (i : Nat)
    (hf : ∀ x y, x.Alike y → Both (Same Variable.Alike) (f x) (f y)) :
    Both (Same Arena.Alike) (m.adjust i f) (k.adjust i f) := by
  rw [adjust_eq_bind, adjust_eq_bind]
  refine (h.reads i).bind fun x y hx _ hxy => (hf x y hxy).map fun p q hpq => ?_
  exact ⟨hpq.1, h.write (lt_of_read hx) hpq.2⟩

theorem modify {f : Variable → Except Fault Variable} (h : m.Alike k) (i : Nat)
    (hf : ∀ x y, x.Alike y → Both Variable.Alike (f x) (f y)) :
    Both Arena.Alike (m.modify i f) (k.modify i f) := by
  rw [modify_eq_bind, modify_eq_bind]
  refine (h.reads i).bind fun x y hx _ hxy =>
    (hf x y hxy).map fun x' y' hxy' => ?_
  exact h.write (lt_of_read hx) hxy'

/-- A trail is undone alike, entry by entry. -/
theorem rewind (h : m.Alike k) (t : Trail) (c : Checkpoint) :
    Both (Same Arena.Alike) (t.rewind c m) (t.rewind c k) := by
  have hstep : ∀ {α : Type} {f : Variable → Except Fault (α × Variable)},
      (∀ x y, x.Alike y → Both (Same Variable.Alike) (f x) (f y)) →
      ∀ i (m k : Arena), m.Alike k →
        Both Arena.Alike ((m.adjust i f).map (·.2))
          ((k.adjust i f).map (·.2)) :=
    fun hf i m k h => (h.adjust i hf).map fun _ _ hpq => hpq.2
  unfold Trail.rewind
  split
  · refine (Both.foldlM (hstep fun x y hxy => hxy.undoMark) _ h).bind
      fun m' k' _ _ h' => ?_
    refine (Both.foldlM (hstep fun x y hxy => hxy.undoPrune) _ h').bind
      fun m'' k'' _ _ h'' => ?_
    exact .ok ⟨rfl, h''⟩
  · exact .error _

end Arena.Alike

/-! ## Workspaces -/

/-- Workspaces with alike variables, the same trail and the same tally. -/
structure Workspace.Twin (w u : Workspace) : Prop where
  arena : w.arena.Alike u.arena
  trail : u.trail = w.trail
  tally : u.tally = w.tally

namespace Workspace.Twin

variable {w u : Workspace}

/-- Pruning a value goes alike, down to the entry on the trail. -/
theorem exclude (h : w.Twin u) (i : Nat) (v : Int) :
    Both (Same Workspace.Twin) (w.exclude i v) (u.exclude i v) := by
  rw [exclude_eq_map, exclude_eq_map]
  refine (h.arena.adjust i fun x y hxy => hxy.prune v).map fun p q hpq => ?_
  exact ⟨hpq.1, hpq.2, by simp only [hpq.1, h.trail], h.tally⟩

/-- So does pruning many. -/
theorem excludeAll (h : w.Twin u) (i : Nat) (l : List Int) :
    Both (Same Workspace.Twin) (w.excludeAll i l) (u.excludeAll i l) := by
  rw [excludeAll_eq_map, excludeAll_eq_map]
  refine (h.arena.adjust i fun x y hxy => Variable.Alike.pruneAll l 0 hxy).map
    fun p q hpq => ?_
  exact ⟨hpq.1, hpq.2, by simp only [hpq.1, h.trail], h.tally⟩

/-- So does hiding values, with one batch of marks on the trail or none. -/
theorem hide (h : w.Twin u) (i : Nat) (supported : Int → Bool) :
    Both (Same Workspace.Twin) (w.hide i supported) (u.hide i supported) := by
  rw [hide_eq_map, hide_eq_map]
  refine (h.arena.adjust i fun x y hxy => ?_).map fun p q hpq => ?_
  · refine (hxy.hideUnsupported supported).map fun p q hpq => ⟨?_, hpq.2⟩
    simp only [hpq.1, hpq.2.marked, hxy.marked]
  · exact ⟨by simp only [hpq.1], hpq.2, by simp only [hpq.1, h.trail], h.tally⟩

theorem modify (h : w.Twin u) (i : Nat) {f : Variable → Except Fault Variable}
    (hf : ∀ x y, x.Alike y → Both Variable.Alike (f x) (f y)) :
    Both Workspace.Twin (w.modify i f) (u.modify i f) := by
  obtain ⟨m, trail, tally⟩ := w
  obtain ⟨k, _, _⟩ := u
  obtain ⟨harena, rfl, rfl⟩ := h
  exact (harena.modify i hf).map fun _ _ harena' => ⟨harena', rfl, rfl⟩

/-- Twins are undone to the same checkpoint, or both fail. -/
theorem rewind (h : w.Twin u) (c : Checkpoint) :
    Both Workspace.Twin (w.rewind c) (u.rewind c) := by
  obtain ⟨m, trail, tally⟩ := w
  obtain ⟨k, _, _⟩ := u
  obtain ⟨harena, rfl, rfl⟩ := h
  refine (harena.rewind _ c).map fun p q hpq => ?_
  exact ⟨hpq.2, hpq.1.symm, rfl⟩

end Workspace.Twin

/-! ## Propagation -/

namespace Workspace.Twin

variable {w u : Workspace}

/-- A wipeout is counted by both. -/
theorem wipeout (h : w.Twin u) : w.wipeout.Twin u.wipeout :=
  { h with tally := congrArg Tally.wipeout h.tally }

/-- Revising an arc goes alike: it asks what shows of the tail and what supports
of the head, and no more. -/
theorem revise (h : w.Twin u) (net : Network) (a : Arc) :
    Both (Same Workspace.Twin) (net.revise a w) (net.revise a u) := by
  unfold Network.revise
  cases net.find? a with
  | none => exact .ok ⟨rfl, h⟩
  | some c =>
      refine (h.arena.reads a.tail).bind fun x y _ _ hxy => ?_
      refine (h.arena.reads a.head).bind fun x' y' _ _ hxy' => ?_
      simp only [hxy.effective, hxy'.hasSupport]
      refine (h.excludeAll a.tail _).bind fun p q _ _ hpq => ?_
      refine (hpq.2.hide a.head _).bind fun p' q' _ _ hpq' => ?_
      refine .ok ⟨by simp only [hpq.1, hpq'.1], { hpq'.2 with tally := ?_ }⟩
      simp only [hpq.1, hpq'.1, hpq'.2.tally]

end Workspace.Twin

namespace Propagator

variable {p : Propagator} {w u : Workspace}

/-- The same step, at twins. -/
inductive Step.Twin : Step → Step → Prop
  | settled : Twin .settled .settled
  | failed {w u : Workspace} (h : w.Twin u) (changed : Option Arc) :
      Twin (.failed w changed) (.failed u changed)
  | going {w u : Workspace} (q : Agenda) (h : w.Twin u) (changed : Option Arc) :
      Twin (.going q w changed) (.going q u changed)

/-- Serving an arc goes alike, with the same arcs put on the agenda. -/
theorem step_twin (h : w.Twin u) (q : Agenda) :
    Both Step.Twin (p.step q w) (p.step q u) := by
  unfold step
  rw [h.arena.size]
  cases q.pop? with
  | none => exact .ok .settled
  | some aq =>
      obtain ⟨a, q⟩ := aq
      simp only
      split
      · exact .error _
      · refine (h.arena.reads a.tail).bind fun x y _ _ hxy => ?_
        rw [hxy.isWipedOut]
        split
        · exact .ok (.failed h.wipeout none)
        · refine (h.revise p.network a).bind fun r r' _ _ hr => ?_
          obtain ⟨r, w'⟩ := r
          obtain ⟨_, u'⟩ := r'
          obtain ⟨rfl, h'⟩ := hr
          simp only at h' ⊢
          split
          · exact .ok (.going q h' none)
          · refine (h'.arena.reads a.head).bind fun x y _ _ hxy => ?_
            rw [hxy.isWipedOut]
            split
            · exact .ok (.failed h'.wipeout (some a))
            · exact .ok (.going _ h' (some a))

/-- What was observed does not matter. -/
theorem run_twin {β : Type} (observe : Arc → Arena → β → β) (q : Agenda)
    (w : Workspace) (seen : β) : ∀ {u : Workspace} (seen' : β), w.Twin u →
      Both (fun r r' => r.1 = r'.1 ∧ r.2.1.Twin r'.2.1) (p.run observe q w seen)
        (p.run observe q u seen') := by
  induction q, w, seen using run.induct p observe with
  | case1 q w seen e he =>
      intro u seen' h
      have hu := (step_twin h q).of_error he
      rw [run, run, he, hu]
      exact .error e
  | case2 q w seen he =>
      intro u seen' h
      obtain ⟨s, hu, hs⟩ := (step_twin h q).of_ok he
      cases hs
      rw [run, run, he, hu]
      exact .ok ⟨rfl, h⟩
  | case3 q w seen w' changed he =>
      intro u seen' h
      obtain ⟨s, hu, hs⟩ := (step_twin h q).of_ok he
      cases hs with
      | failed h' =>
          rw [run, run, he, hu]
          exact .ok ⟨rfl, h'⟩
  | case4 q w seen q' w' changed he ih =>
      intro u seen' h
      obtain ⟨s, hu, hs⟩ := (step_twin h q).of_ok he
      cases hs with
      | going _ h' =>
          rw [run, run.eq_def p observe q u, he, hu]
          exact ih _ h'

/-- So propagation goes alike, whatever the arcs that it starts from. -/
theorem propagate_twin (h : w.Twin u) (seed : List Arc) :
    Both (Same Workspace.Twin) (p.propagate seed w) (p.propagate seed u) :=
  (run_twin _ _ w () () h).map fun _ _ hr => hr

end Propagator

end ConstraintNet
