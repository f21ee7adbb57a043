import ConstraintNet.Proofs.Copies
import ConstraintNet.Proofs.Lockstep

/-!
# Searches of copies

A variable is a copy of another when its domain is, and when both forget their
prunes in the same order.  Every step of a search keeps copies, going down as
well as coming back; the values that a copy tries are those that go with the
values that the other tries, whatever the walk down passes over.  So the search
of a copy is a copy of the search.
-/

namespace ConstraintNet

open Relator (BiUnique)

/-- Renamed variables whose domains have one shape, and whose prunes come back
in the same order. -/
structure Variable.Copies (P : Int → Int → Prop) (x y : Variable) :
    Prop extends x.Renamed P y where
  shape : x.domain.Copies P y.domain
  pruned : List.Forall₂ (List.Forall₂ P) x.pruned.batches y.pruned.batches

/-- Hiding leaves the domain and the prunes. -/
theorem Variable.of_hideUnsupported_eq_ok {x y : Variable}
    {supported : Int → Bool} {b : Bool}
    (h : x.hideUnsupported supported = .ok (b, y)) :
    y.domain = x.domain ∧ y.pruned = x.pruned := by
  rw [hideUnsupported_eq, markUnsupported, commitMarks] at h
  split at h
  · cases h
    exact ⟨rfl, rfl⟩
  · cases h

namespace Variable.Copies

variable {P : Int → Int → Prop} {x y : Variable} {a b : Int} {d e : Domain}
  {pruned pruned' : Exclusion.Stack}

/-- Copies with other domains that are copies. -/
theorem with_domain (h : x.Copies P y) (hshape : d.Copies P e)
    (hpruned : List.Forall₂ (List.Forall₂ P) pruned.batches pruned'.batches) :
    ({ x with domain := d, pruned } : Variable).Copies P
      { y with domain := e, pruned := pruned' } :=
  { h with
    domain := Paired.of_forall₂ hshape.toList
    shape := hshape
    pruned := hpruned }

/-- Pruning related values fails on both sides or leaves copies behind. The
domains are searched by the order of their values, and the relation has to keep
it. -/
theorem prune (hP : Domain.Ordered P) (h : x.Copies P y) (hab : P a b) :
    Jointly (Same (Variable.Copies P)) (x.prune a) (y.prune b) := by
  rw [Variable.prune, Variable.prune, h.isLive hP.biUnique hab]
  split
  · rintro ⟨flag, x'⟩ ⟨flag', y'⟩ hx hy
    split at hx
    · rename_i pruned hpush
      cases hx
      split at hy
      · rename_i pruned' hpush'
        cases hy
        refine ⟨rfl, h.with_domain (h.shape.erase hP hab) ?_⟩
        rw [(Exclusion.Stack.of_push_eq_ok hpush).2,
          (Exclusion.Stack.of_push_eq_ok hpush').2]
        exact .cons (.cons hab .nil) h.pruned
      · cases hy
    · cases hx
  · exact .ok ⟨rfl, h⟩

/-- So does pruning lists of related values, and the same number is pruned. -/
theorem pruneAll (hP : Domain.Ordered P) {l m : List Int}
    (hlm : List.Forall₂ P l m) :
    ∀ {x y : Variable} (n : Nat), x.Copies P y →
      Jointly (Same (Variable.Copies P)) (x.pruneAll n l) (y.pruneAll n m) := by
  induction hlm with
  | nil => exact fun n h => .ok ⟨rfl, h⟩
  | cons hab _ ih =>
      intro x y n h
      rw [pruneAll_cons, pruneAll_cons]
      refine (h.prune hP hab).bind fun p q _ _ hpq => ?_
      rw [hpq.1]
      exact ih _ hpq.2

/-- Hiding what has no support keeps copies, if the same values have support on
both sides. -/
theorem hideUnsupported (hP : BiUnique P) (h : x.Copies P y)
    {supported supported' : Int → Bool}
    (hsupported : ∀ a b, P a b → supported' b = supported a) :
    Jointly (Same (Variable.Copies P)) (x.hideUnsupported supported)
      (y.hideUnsupported supported') := by
  rintro ⟨flag, x'⟩ ⟨flag', y'⟩ hx hy
  obtain ⟨hflag, hrenamed⟩ :=
    h.toRenamed.hideUnsupported hP hsupported _ _ hx hy
  obtain ⟨hdomain, hpruned⟩ := of_hideUnsupported_eq_ok hx
  obtain ⟨hdomain', hpruned'⟩ := of_hideUnsupported_eq_ok hy
  refine ⟨hflag, { hrenamed with shape := ?_, pruned := ?_ }⟩
  · rw [hdomain, hdomain']
    exact h.shape
  · rw [hpruned, hpruned']
    exact h.pruned

theorem assign (h : x.Copies P y) (hab : P a b) :
    (x.assign a).Copies P (y.assign b) :=
  { h.toRenamed.assign hab with shape := h.shape, pruned := h.pruned }

theorem unassign (h : x.Copies P y) : x.unassign.Copies P y.unassign :=
  { h.toRenamed.unassign with shape := h.shape, pruned := h.pruned }

/-- Forgetting the latest tried value fails on both sides or keeps copies. -/
theorem retire (h : x.Copies P y) :
    Jointly (Variable.Copies P) x.retire y.retire := by
  intro x' y' hx hy
  rw [Variable.retire] at hx hy
  split at hx
  · cases hx
  · rename_i v tried hpop
    cases hx
    split at hy
    · cases hy
    · rename_i v' tried' hpop'
      cases hy
      have htried := h.tried
      rw [Choices.values_of_pop? hpop, Choices.values_of_pop? hpop'] at htried
      exact { h with tried := (List.forall₂_cons.mp htried).2 }

/-- Undoing a batch of marks fails on both sides or keeps copies; nothing is put
back into the domain, and no order is needed. -/
theorem undoMark (hP : BiUnique P) (h : x.Copies P y) :
    Jointly (fun p q => p.2.Copies P q.2) x.undoMark y.undoMark := by
  have hbatches := h.marked.batches
  rintro ⟨l, x'⟩ ⟨m, y'⟩ hx hy
  simp only [Variable.undoMark, Exclusion.Stack.pop?] at hx hy
  generalize hl : x.marked.batches = batches at hbatches hx
  generalize hm : y.marked.batches = batches' at hbatches hy
  cases hbatches with
  | nil => cases hx
  | cons hbatch hrest =>
      cases hx
      cases hy
      have hreleased :=
        (h.marked.excluded.sep fun _ _ hab =>
          not_congr (hbatch.iff hP hab)).congr
          (fun _ => Exclusion.Stack.mem_release) fun _ =>
            Exclusion.Stack.mem_release
      exact { h with marked := ⟨hrest, hreleased⟩ }

/-- Undoing a prune puts a value back into the domain, at related places of the
two trees. -/
theorem undoPrune (hP : Domain.Ordered P) (h : x.Copies P y) :
    Jointly (fun p q => p.2.Copies P q.2) x.undoPrune y.undoPrune := by
  have hbatches := h.pruned
  rintro ⟨v, x'⟩ ⟨w, y'⟩ hx hy
  simp only [Variable.undoPrune, Exclusion.Stack.pop?] at hx hy
  generalize hl : x.pruned.batches = batches at hbatches hx
  generalize hm : y.pruned.batches = batches' at hbatches hy
  cases hbatches with
  | nil => cases hx
  | cons hbatch hrest =>
      cases hbatch with
      | nil => cases hx
      | cons hab hbatch =>
          cases hx
          cases hy
          exact h.with_domain (.insertAll hP (.cons hab hbatch) h.shape) hrest

/-- **A copy tries the value that goes with the one that the other tries.** -/
theorem select (hP : Domain.Ordered P) (h : x.Copies P y) (o : ValueOrder) :
    Option.Rel P (o.select x) (o.select y) := by
  have htest : ∀ a b, P a b → (!y.marked.contains b && !y.wasTried b) =
      (!x.marked.contains a && !x.wasTried a) := fun a b hab => by
    rw [h.isMarked hP.biUnique hab, h.wasTried hP.biUnique hab]
  cases o with
  | ascending => exact h.shape.findUp? htest
  | descending => exact h.shape.findDown? htest

end Variable.Copies

/-- Copies are kept on the way down. -/
theorem Renaming.copies {P : Int → Int → Prop} (hP : Domain.Ordered P) :
    Renaming P (Variable.Copies P) where
  biUnique := hP.biUnique
  renamed h := h.toRenamed
  prune h hab := h.prune hP hab
  pruneAll h hl hm _ _ hlm :=
    Variable.Copies.pruneAll hP
      (Paired.forall₂ hP.biUnique (fun _ _ => Int.lt_asymm)
      (fun _ _ => Int.lt_asymm) hP hlm hl hm) 0 h
  hideUnsupported h hsupported := h.hideUnsupported hP.biUnique hsupported
  assign h hab := h.assign hab

/-! ## Coming back -/

section

variable {P : Int → Int → Prop}

/-- Rewinding a trail undoes the same entries on both sides and leaves the
trails equal. -/
theorem Arena.Matched.rewind (hP : Domain.Ordered P) {m k : Arena}
    (h : m.Matched (Variable.Copies P) k) (t : Trail) (c : Checkpoint) :
    Jointly (Same (Arena.Matched (Variable.Copies P))) (t.rewind c m)
      (t.rewind c k) := by
  have hadjust : ∀ {α β : Type} {f : Variable → Except Fault (α × Variable)}
      {f' : Variable → Except Fault (β × Variable)},
      (∀ x y, x.Copies P y →
        Jointly (fun p q => p.2.Copies P q.2) (f x) (f' y)) →
      ∀ i (m k : Arena), m.Matched (Variable.Copies P) k →
        Jointly (fun p q => p.2.Matched (Variable.Copies P) q.2)
          (m.adjust i f) (k.adjust i f') := by
    intro α β f f' hf i m k h
    rw [adjust_eq_bind, adjust_eq_bind]
    refine (h.reads i).bind fun x y hx _ hxy =>
      (hf x y hxy).map fun p q hpq => ?_
    exact h.write (lt_of_read hx) hpq
  exact Trail.rewind_related (hadjust fun x y hxy => hxy.undoMark hP.biUnique)
    (hadjust fun x y hxy => hxy.undoPrune hP) h t c

/-- The same for workspaces, of which a trail is one part. -/
theorem Workspace.Matched.rewind (hP : Domain.Ordered P) {w u : Workspace}
    (h : w.Matched (Variable.Copies P) u) (c : Checkpoint) :
    Jointly (Workspace.Matched (Variable.Copies P)) (w.rewind c)
      (u.rewind c) := by
  obtain ⟨m, trail, tally⟩ := w
  obtain ⟨k, _, _⟩ := u
  obtain ⟨harena, rfl, rfl⟩ := h
  refine (harena.rewind hP _ c).map fun p q hpq => ?_
  exact ⟨hpq.2, hpq.1.symm, rfl⟩

namespace Search.Matched

variable {s t : Search}

/-- The same for searches; solutions and counters are not touched. -/
theorem rewind (hP : Domain.Ordered P) (h : s.Matched P (Variable.Copies P) t)
    (c : Checkpoint) :
    Jointly (Search.Matched P (Variable.Copies P)) (s.rewind c) (t.rewind c) :=
  h.modify (h.workspace.rewind hP c)

/-- A branch that is left unassigns its variable on both sides. -/
theorem unassign (h : s.Matched P (Variable.Copies P) t) (i : Nat) :
    Jointly (Search.Matched P (Variable.Copies P)) (s.unassign i)
      (t.unassign i) :=
  h.modify (h.workspace.modify i fun _ _ hxy => .ok hxy.unassign)

/-- At the end of a branching the tried value is forgotten on both sides. -/
theorem retire (h : s.Matched P (Variable.Copies P) t) (i : Nat) :
    Jointly (Search.Matched P (Variable.Copies P)) (s.retire i) (t.retire i) :=
  h.modify (h.workspace.modify i fun _ _ hxy => hxy.retire)

end Search.Matched

end

/-! ## Searches -/

namespace Branching

variable {σ : Type} {P : Int → Int → Prop} {b b' : Branching σ} {u v : Int}

/-- The same end, at searches that are copies. -/
def CopiedEnds (P : Int → Int → Prop) (p q : Flow × σ × Search) : Prop :=
  p.1 = q.1 ∧ p.2.1 = q.2.1 ∧ p.2.2.Matched P (Variable.Copies P) q.2.2

/-- What searches below keeps to copies. -/
def KeepsCopies (P : Int → Int → Prop)
    (below below' : σ → Search → Except Fault (Flow × σ × Search)) : Prop :=
  ∀ g s t, s.Matched P (Variable.Copies P) t →
    Jointly (CopiedEnds P) (below g s) (below' g t)

/-- The branches of a node keep copies. -/
theorem carries_copies (hP : Domain.Ordered P) (hb : b.Renamed P b') (i : Nat)
    (huv : P u v) :
    Carries (Search.Matched P (Variable.Copies P)) b b' i u v where
  accept h := accept_matched (.copies hP) hb h i huv
  refute h := refute_matched (.copies hP) hb h i huv
  rewind c h := h.rewind hP c
  unassign h := h.unassign i
  retire h := h.retire i
  backtrack h := h.backtrack
  trail h := h.workspace.trail

/-- **The search of copies is a copy of the search.** -/
theorem search_copied (hP : Domain.Ordered P) (hb : b.Renamed P b')
    (horder : b'.valueOrder = b.valueOrder) :
    ∀ d, KeepsCopies P (b.search d) (b'.search d) := by
  intro d
  induction d with
  | zero =>
      intro g s t _ _ _ h
      cases h
  | succ d ih =>
      intro g s t h
      have hnode := h.node
      have hrenamed := (hnode.renamed (.copies hP)).workspace.arena
      rw [search, search]
      simp only [hrenamed.isComplete, hb.selector hrenamed, horder, hb.limit]
      split
      · exact (hnode.record (.copies hP) _ _ _).bind fun p q _ _ hpq =>
          .ok ⟨hpq.1, rfl, hpq.2⟩
      · split
        · exact .ok ⟨rfl, rfl, hnode⟩
        · refine (hnode.workspace.arena.reads _).bind fun x y _ _ hxy => ?_
          rcases cases_of_rel (hxy.select hP b.valueOrder) with
            ⟨hx, hy⟩ | ⟨u, v, hx, hy, huv⟩
          · rw [hx, hy]
            exact .ok ⟨rfl, rfl, hnode.backtrack⟩
          · rw [hx, hy, hnode.workspace.trail]
            exact (carries_copies hP hb _ huv).branch hnode
              (fun s' t' _ => ih _ s' t') fun g' _ s' t' _ _ => ih g' s' t'

end Branching

/-! ## Strategies -/

namespace Algorithm

variable {σ : Type} {P : Int → Int → Prop} {b b' : Branching σ} {m k : Arena}

/-- From the root the two searches make related calls, and end with related
solutions. -/
theorem fromRoot_copied (hP : Domain.Ordered P) (hb : b.Renamed P b')
    (horder : b'.valueOrder = b.valueOrder) (g : σ) {s t : Search}
    (h : s.Matched P (Variable.Copies P) t) :
    Jointly (fun p q => p.1 = q.1 ∧ p.2.Matched P (Variable.Copies P) q.2)
      (fromRoot b g s)
      (fromRoot b' g t) := by
  rw [fromRoot, fromRoot,
    (h.renamed (.copies hP)).workspace.arena.depth hP.biUnique]
  exact (Branching.search_copied hP hb horder _ g s t h).map fun _ _ he => he.2

/-- **Exploring copies** ends at copies, with the same state of the variable
order. -/
theorem explore_copied (hP : Domain.Ordered P) (hb : b.Renamed P b')
    (horder : b'.valueOrder = b.valueOrder) (algorithm : Algorithm) (g : σ)
    (h : m.Matched (Variable.Copies P) k) :
    Jointly (fun p q => p.1 = q.1 ∧ p.2.Matched P (Variable.Copies P) q.2)
      (algorithm.explore b m g)
      (algorithm.explore b' k g) :=
  have hbegin := Search.Matched.begin h
  algorithm.explore_related hbegin
    (hbegin.propagateAll (.copies hP) hb.propagator)
    (fun _ _ _ hst => fromRoot_copied hP hb horder g hst) fun _ _ c hst =>
      hst.rewind hP c

end Algorithm

end ConstraintNet
