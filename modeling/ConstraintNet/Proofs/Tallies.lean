import ConstraintNet.Proofs.Decisions

/-!
# What is counted, and where

Propagation counts revisions, prunes, marks and, if it fails, one wipeout; it
counts neither nodes nor backtracks.  What undoes a decision counts nothing.  No
operation takes anything from a count.

All this holds of whatever succeeds, whether or not the variables are orderly.
-/

namespace ConstraintNet

/-! ## Tallies -/

/-- No count of the arc is greater. -/
structure ArcTally.Le (t u : ArcTally) : Prop where
  revisions : t.revisions ≤ u.revisions
  prunings : t.prunings ≤ u.prunings
  marks : t.marks ≤ u.marks

/-- No count of the search, and none of an arc, is greater. -/
structure Tally.Le (t u : Tally) : Prop where
  nodes : t.nodes ≤ u.nodes
  backtracks : t.backtracks ≤ u.backtracks
  revisions : t.revisions ≤ u.revisions
  prunings : t.prunings ≤ u.prunings
  marks : t.marks ≤ u.marks
  wipeouts : t.wipeouts ≤ u.wipeouts
  ofArc : ∀ a, (t.ofArc a).Le (u.ofArc a)

/-- What drawing consequences does to a tally: nodes and backtracks stay, and no
count gets less. -/
structure Tally.Drawn (t u : Tally) : Prop where
  nodes : u.nodes = t.nodes
  backtracks : u.backtracks = t.backtracks
  le : t.Le u

namespace ArcTally

theorem Le.refl (t : ArcTally) : t.Le t :=
  ⟨Nat.le_refl _, Nat.le_refl _, Nat.le_refl _⟩

/-- Counts that do not get less on two ways do not get less on both together. -/
theorem Le.trans {t u v : ArcTally} (h : t.Le u) (h' : u.Le v) : t.Le v :=
  ⟨Nat.le_trans h.revisions h'.revisions, Nat.le_trans h.prunings h'.prunings,
    Nat.le_trans h.marks h'.marks⟩

end ArcTally

namespace Tally

variable {t u v : Tally}

theorem Le.refl (t : Tally) : t.Le t :=
  ⟨Nat.le_refl _, Nat.le_refl _, Nat.le_refl _, Nat.le_refl _, Nat.le_refl _,
    Nat.le_refl _, fun a => .refl (t.ofArc a)⟩

theorem Le.trans (h : t.Le u) (h' : u.Le v) : t.Le v where
  nodes := Nat.le_trans h.nodes h'.nodes
  backtracks := Nat.le_trans h.backtracks h'.backtracks
  revisions := Nat.le_trans h.revisions h'.revisions
  prunings := Nat.le_trans h.prunings h'.prunings
  marks := Nat.le_trans h.marks h'.marks
  wipeouts := Nat.le_trans h.wipeouts h'.wipeouts
  ofArc a := (h.ofArc a).trans (h'.ofArc a)

theorem le_node (t : Tally) : t.Le t.node :=
  { Le.refl t with nodes := Nat.le_succ _ }

theorem le_backtrack (t : Tally) : t.Le t.backtrack :=
  { Le.refl t with backtracks := Nat.le_succ _ }

/-- A wipeout more is the only difference. -/
theorem le_wipeout (t : Tally) : t.Le t.wipeout :=
  { Le.refl t with wipeouts := Nat.le_succ _ }

/-- A revision counts for its own arc and leaves the counts of all others. -/
theorem ofArc_revision (t : Tally) (a b : Arc) (pruned marked : Nat) :
    (t.revision a pruned marked).ofArc b = if a = b then
      { t.ofArc a with
        revisions := (t.ofArc a).revisions + 1
        prunings := (t.ofArc a).prunings + pruned
        marks := (t.ofArc a).marks + marked } else t.ofArc b := by
  simp only [ofArc, revision, Std.ExtTreeMap.getD_insert,
    Std.LawfulEqCmp.compare_eq_iff_eq]

/-- A revision adds to the counts of the whole search and to those of its
arc. -/
theorem le_revision (t : Tally) (a : Arc) (pruned marked : Nat) :
    t.Le (t.revision a pruned marked) where
  nodes := Nat.le_refl _
  backtracks := Nat.le_refl _
  revisions := Nat.le_succ _
  prunings := Nat.le_add_right _ _
  marks := Nat.le_add_right _ _
  wipeouts := Nat.le_refl _
  ofArc b := by
    rw [ofArc_revision]
    split
    · rename_i hab
      exact hab ▸ ⟨Nat.le_succ _, Nat.le_add_right _ _, Nat.le_add_right _ _⟩
    · exact .refl _

theorem Drawn.refl (t : Tally) : t.Drawn t := ⟨rfl, rfl, .refl t⟩

theorem Drawn.trans (h : t.Drawn u) (h' : u.Drawn v) : t.Drawn v :=
  ⟨h'.nodes.trans h.nodes, h'.backtracks.trans h.backtracks, h.le.trans h'.le⟩

end Tally

/-! ## Workspaces -/

namespace Workspace

variable {w u : Workspace} {i n : Nat} {v : Int} {b : Bool}

theorem tally_modify {f : Variable → Except Fault Variable}
    (h : w.modify i f = .ok u) : u.tally = w.tally := by
  obtain ⟨arena, _, rfl⟩ := of_map_eq_ok h
  rfl

/-- Undoing what was excluded counts nothing: the work was done. -/
theorem tally_rewind {c : Checkpoint} (h : w.rewind c = .ok u) :
    u.tally = w.tally := by
  obtain ⟨p, _, rfl⟩ := of_map_eq_ok h
  rfl

/-- Pruning a value is not counted here.  The revision that prunes it counts
it. -/
theorem tally_exclude (h : w.exclude i v = .ok (b, u)) : u.tally = w.tally := by
  simp only [exclude] at h
  split at h
  · cases h
  · cases h
    rfl
  · cases h
    rfl

/-- Nor is pruning many. -/
theorem tally_excludeAll {l : List Int} (h : w.excludeAll i l = .ok (n, u)) :
    u.tally = w.tally := by
  simp only [excludeAll] at h
  split at h
  · cases h
  · cases h
    rfl

/-- Nor is hiding values. -/
theorem tally_hide {supported : Int → Bool}
    (h : w.hide i supported = .ok (n, u)) : u.tally = w.tally := by
  simp only [hide] at h
  split at h
  · cases h
  · cases h
    rfl
  · cases h
    rfl

end Workspace

/-- A revision counts for its arc, if there is a constraint. -/
theorem Network.tally_revise {net : Network} {a : Arc} {w u : Workspace}
    {r : Revision} (h : net.revise a w = .ok (r, u)) :
    u.tally =
      if a ∈ net.arcs then w.tally.revision a r.pruned r.marked
      else w.tally := by
  unfold revise at h
  split at h
  · rename_i hfind
    cases h
    rw [if_neg (by simp [mem_arcs, hfind])]
  · rename_i hfind
    obtain ⟨tail, _, h⟩ := of_bind_eq_ok h
    obtain ⟨head, _, h⟩ := of_bind_eq_ok h
    obtain ⟨⟨pruned, w₁⟩, hpruned, h⟩ := of_bind_eq_ok h
    obtain ⟨⟨marked, w₂⟩, hmarked, h⟩ := of_bind_eq_ok h
    cases h
    rw [if_pos (by simp [mem_arcs, hfind])]
    simp only [Workspace.tally_hide hmarked, Workspace.tally_excludeAll hpruned]

namespace Propagator

variable {p : Propagator} {q : Agenda} {w u : Workspace}

/-- What propagation counts on its way from `w` to `u`: a wipeout for so many
failures, and no node or backtrack. -/
structure Counts (failures : Nat) (w u : Workspace) : Prop where
  drawn : w.tally.Drawn u.tally
  wipeouts : u.tally.wipeouts = w.tally.wipeouts + failures

/-- Of two propagations in a row only the second may have failed. -/
theorem Counts.trans {failures : Nat} {t : Workspace} (h : Counts 0 w u)
    (h' : Counts failures u t) : Counts failures w t :=
  ⟨h.drawn.trans h'.drawn,
    h'.wipeouts.trans (congrArg (· + failures) h.wipeouts)⟩

/-- A wipeout is counted as the one failure. -/
theorem counts_wipeout (w : Workspace) : Counts 1 w w.wipeout :=
  ⟨⟨rfl, rfl, w.tally.le_wipeout⟩, rfl⟩

/-- A revision does not fail by itself; that is found out afterwards. -/
theorem counts_revise {net : Network} {a : Arc} {r : Revision}
    (h : net.revise a w = .ok (r, u)) : Counts 0 w u := by
  have htally := Network.tally_revise h
  split at htally
  · exact ⟨htally ▸ ⟨rfl, rfl, w.tally.le_revision _ _ _⟩, by rw [htally]; rfl⟩
  · exact ⟨htally ▸ .refl _, congrArg Tally.wipeouts htally⟩

/-- What one step counts. -/
theorem counts_step {s : Step} (h : p.step q w = .ok s) :
    match s with
    | .settled => True
    | .failed u _ => Counts 1 w u
    | .going _ u _ => Counts 0 w u := by
  unfold step at h
  split at h
  · cases h
    trivial
  · split at h
    · cases h
    · obtain ⟨tail, _, h⟩ := of_bind_eq_ok h
      split at h
      · cases h
        exact counts_wipeout w
      · obtain ⟨⟨r, u⟩, hrevise, h⟩ := of_bind_eq_ok h
        have hcounts : Counts 0 w u := counts_revise hrevise
        simp only at h
        split at h
        · cases h
          exact hcounts
        · obtain ⟨head, _, h⟩ := of_bind_eq_ok h
          split at h
          · cases h
            exact hcounts.trans (counts_wipeout u)
          · cases h
            exact hcounts

/-- **What a run counts**: one wipeout if it fails, none if it does not. -/
theorem counts_run {β : Type} {observe : Arc → Arena → β → β} {seen seen' : β}
    {ok : Bool} (h : p.run observe q w seen = .ok (ok, u, seen')) :
    Counts (!ok).toNat w u := by
  induction q, w, seen using run.induct p observe with
  | case1 q w seen e he =>
      rw [run, he] at h
      cases h
  | case2 q w seen hs =>
      rw [run, hs] at h
      cases h
      exact ⟨.refl _, rfl⟩
  | case3 q w seen u' changed hs =>
      rw [run, hs] at h
      cases h
      exact counts_step hs
  | case4 q w seen q' w' changed hs ih =>
      rw [run, hs] at h
      exact Counts.trans (counts_step hs) (ih h)

/-- From outside, propagation counts a wipeout just if it answers that something
failed. -/
theorem counts_propagate {seed : List Arc} {ok : Bool}
    (h : p.propagate seed w = .ok (ok, u)) : Counts (!ok).toNat w u := by
  obtain ⟨⟨ok', u', _⟩, hrun, heq⟩ := of_map_eq_ok h
  cases heq
  exact counts_run hrun

end Propagator

/-! ## Searches -/

namespace Search

variable {s t : Search} {i : Nat} {v : Int}

/-- What a search has found and counted. -/
def account (s : Search) : Array Solution × Tally := (s.solutions, s.tally)

/-- What has the same account found the same. -/
theorem solutions_of_account (h : t.account = s.account) :
    t.solutions = s.solutions :=
  congrArg Prod.fst h

/-- What has the same account counted the same. -/
theorem tally_of_account (h : t.account = s.account) : t.tally = s.tally :=
  congrArg Prod.snd h

/-- An operation that counts nothing leaves the account of the search, for it
finds nothing either. -/
theorem account_modify {f : Workspace → Except Fault Workspace}
    (hf : ∀ u, f s.toWorkspace = .ok u → u.tally = s.tally)
    (h : s.modify f = .ok t) : t.account = s.account := by
  obtain ⟨hrun, hsolutions⟩ := of_modify_eq_ok h
  exact Prod.ext hsolutions (hf _ hrun)

theorem account_unassign (h : s.unassign i = .ok t) : t.account = s.account :=
  account_modify (fun _ hu => Workspace.tally_modify hu) h

/-- Retiring a choice leaves the account. -/
theorem account_retire (h : s.retire i = .ok t) : t.account = s.account :=
  account_modify (fun _ hu => Workspace.tally_modify hu) h

/-- Rewinding leaves the account.  This is why the counts of a search can be
read off its calls alone. -/
theorem account_rewind {c : Checkpoint} (h : s.rewind c = .ok t) :
    t.account = s.account :=
  account_modify (fun _ hu => Workspace.tally_rewind hu) h

/-- What drawing consequences does to a search: it finds nothing and counts
neither nodes nor backtracks. -/
structure Draws (s t : Search) : Prop where
  solutions : t.solutions = s.solutions
  drawn : s.tally.Drawn t.tally

theorem Draws.refl (s : Search) : s.Draws s := ⟨rfl, .refl _⟩

theorem Draws.trans {u : Search} (h : s.Draws t) (h' : t.Draws u) : s.Draws u :=
  ⟨h'.solutions.trans h.solutions, h.drawn.trans h'.drawn⟩

/-- A search that left its account as it was drew nothing that shows there. -/
theorem draws_of_account (h : t.account = s.account) : s.Draws t :=
  ⟨solutions_of_account h, tally_of_account h ▸ .refl _⟩

/-- Propagation in a search draws consequences and does nothing else. -/
theorem draws_propagate {p : Propagator} {seed : List Arc} {ok : Bool}
    (h : s.propagate p seed = .ok (ok, t)) : s.Draws t := by
  obtain ⟨hrun, hsolutions⟩ := of_propagate_eq_ok h
  exact ⟨hsolutions, (Propagator.counts_propagate hrun).drawn⟩

/-- A propagation that fails counts one wipeout. -/
theorem wipeouts_propagate {p : Propagator} {seed : List Arc} {ok : Bool}
    (h : s.propagate p seed = .ok (ok, t)) :
    t.tally.wipeouts = s.tally.wipeouts + (!ok).toNat :=
  (Propagator.counts_propagate (of_propagate_eq_ok h).1).wipeouts

end Search

namespace Branching

variable {σ : Type} {b : Branching σ} {s t : Search} {i : Nat} {v : Int}
  {ok : Bool}

/-- Accepting a value draws consequences: assigning is not counted. -/
theorem draws_accept (h : b.accept i v s = .ok (ok, t)) : s.Draws t := by
  obtain ⟨s₁, hassign, hpropagate⟩ := of_bind_eq_ok h
  obtain ⟨hrun, hsolutions⟩ := Search.of_modify_eq_ok hassign
  obtain ⟨hfound, hdrawn⟩ := Search.draws_propagate hpropagate
  exact ⟨hfound.trans hsolutions, Workspace.tally_modify hrun ▸ hdrawn⟩

/-- A left branch that stands counts no wipeout. -/
theorem wipeouts_accept (h : b.accept i v s = .ok (true, t)) :
    t.tally.wipeouts = s.tally.wipeouts := by
  obtain ⟨s₁, hassign, hpropagate⟩ := of_bind_eq_ok h
  exact (Search.wipeouts_propagate hpropagate).trans
    (congrArg Tally.wipeouts
      (Workspace.tally_modify (Search.of_modify_eq_ok hassign).1))

/-- Refuting a value draws consequences, too, or stops before it if the variable
is wiped out. -/
theorem draws_refute (h : b.refute i v s = .ok (ok, t)) : s.Draws t := by
  obtain ⟨⟨pruned, s₁⟩, hexclude, h⟩ := of_bind_eq_ok h
  obtain ⟨hrun, hsolutions⟩ := Search.of_adjust_eq_ok hexclude
  have hkept : s₁.tally = s.tally := Workspace.tally_exclude hrun
  obtain ⟨x, _, h⟩ := of_bind_eq_ok h
  split at h
  · obtain ⟨hfound, hdrawn⟩ := Search.draws_propagate h
    exact ⟨hfound.trans hsolutions, hkept ▸ hdrawn⟩
  · cases h
    exact ⟨hsolutions, hkept ▸ .refl _⟩

end Branching

end ConstraintNet
