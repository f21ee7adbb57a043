import ConstraintNet.Proofs.Renamings

/-!
# Propagation in lockstep

Two networks are renamed when they have the same arcs and, on each, allow values
just where the other allows those that go with them.  Propagation through the
one and through the other then runs in lockstep: both come to the same arc at
the same time, prune and mark as many values, and stop at the same moment.

This takes a relation between variables that excluding and assigning keep.
Which one it is does not matter here: `Renaming` says what is asked of it.
-/

namespace ConstraintNet

open Relator (BiUnique)

/-- The same arcs, which allow values just where the others allow those that go
with them. -/
structure Network.Renamed (P : Int → Int → Prop) (net net' : Network) :
    Prop where
  arcs : net'.arcs = net.arcs
  allows : ∀ a u u' v v', P u u' → P v v' →
    net'.allows a u' v' = net.allows a u v

/-- A relation under which variables are renamed ones of each other, and which a
search keeps as it goes down. -/
structure Renaming (P : Int → Int → Prop) (R : Variable → Variable → Prop) :
    Prop where
  biUnique : BiUnique P
  renamed {x y : Variable} (h : R x y) : x.Renamed P y
  prune {x y : Variable} {a b : Int} (h : R x y) (hab : P a b) :
    Jointly (Same R) (x.prune a) (y.prune b)
  pruneAll {x y : Variable} {l m : List Int} (h : R x y)
    (hl : l.Pairwise (· < ·))
    (hm : m.Pairwise (· < ·)) (hx : ∀ v ∈ l, v ∈ x.live)
    (hy : ∀ v ∈ m, v ∈ y.live)
    (hlm : Paired P (· ∈ l) (· ∈ m)) :
      Jointly (Same R) (x.pruneAll 0 l) (y.pruneAll 0 m)
  hideUnsupported {x y : Variable} {supported supported' : Int → Bool}
    (h : R x y) (hsupported : ∀ a b, P a b → supported' b = supported a) :
    Jointly (Same R) (x.hideUnsupported supported)
      (y.hideUnsupported supported')
  assign {x y : Variable} {a b : Int} (h : R x y) (hab : P a b) :
    R (x.assign a) (y.assign b)

/-! ## Supports -/

/-- Networks with the same arcs have constraints on the same ones. -/
theorem Network.find?_of_arcs {R : Constraint → Constraint → Prop}
    {net net' : Network} {a : Arc} (harcs : net'.arcs = net.arcs)
    (hR : ∀ c d, net.find? a = some c → net'.find? a = some d → R c d) :
    Option.Rel R (net.find? a) (net'.find? a) := by
  have hsome := isSome_of_arcs harcs a
  cases hc : net.find? a with
  | none =>
      cases hd : net'.find? a with
      | none => exact .none
      | some d => simp [hc, hd] at hsome
  | some c =>
      cases hd : net'.find? a with
      | none => simp [hc, hd] at hsome
      | some d => exact .some (hR c d hc hd)

namespace Network.Renamed

variable {P : Int → Int → Prop} {net net' : Network} {a : Arc}
  {c d : Constraint}

/-- An arc that one network constrains the other constrains too, with the pairs
that go with its own. -/
theorem find? (h : net.Renamed P net') (a : Arc) :
    Option.Rel (fun c d => ∀ u u' v v', P u u' → P v v' →
      ((u, v) ∈ c.pairs ↔ (u', v') ∈ d.pairs))
      (net.find? a) (net'.find? a) := by
  refine find?_of_arcs h.arcs fun c d hc hd u u' v v' hu hv => ?_
  have hallows := h.allows a u u' v v' hu hv
  rw [Network.allows, Network.allows, hc, hd, Option.elim_some,
    Option.elim_some, Bool.eq_iff_iff,
    Constraint.allows_iff, Constraint.allows_iff] at hallows
  exact hallows.symm

end Network.Renamed

namespace Constraint

variable {P : Int → Int → Prop} {c d : Constraint} {x y x' y' : Variable}
  {u u' : Int}

/-- What a revision takes from the tail comes in ascending order. -/
theorem ascending_drops (c : Constraint) (x y : Variable) :
    (c.drops x y).Pairwise (· < ·) :=
  x.effective.ascending.filter _

/-- It was live there. -/
theorem mem_live_of_mem_drops {v : Int} (h : v ∈ c.drops x y) : v ∈ x.live :=
  (Variable.mem_effective.mp (List.mem_filter.mp h).1).1

section

variable (hP : BiUnique P)
  (hcd : ∀ u u' v v', P u u' → P v v' → ((u, v) ∈ c.pairs ↔ (u', v') ∈ d.pairs))

include hP hcd

/-- Values that go together are both supported or neither is. -/
theorem hasSupport_renamed (h : y.Renamed P y') (hu : P u u') :
    y'.hasSupport (d.supports u').toList = y.hasSupport (c.supports u).toList :=
  h.hasSupport hP fun v v' hv => by
    rw [← ValueSet.mem_def, ← ValueSet.mem_def, mem_supports, mem_supports]
    exact hcd u u' v v' hu hv

/-- What a revision keeps goes with what the other keeps. -/
theorem keeps_renamed (hx : x.Renamed P x') (hy : y.Renamed P y') :
    Paired P (· ∈ c.keeps x y) (· ∈ d.keeps x' y') :=
  ((hx.effective hP).sep fun u u' hu => by
    rw [hasSupport_renamed hP hcd hy hu]).congr (fun _ =>
      List.mem_filter) fun _ => List.mem_filter

/-- What it drops goes with what the other drops. -/
theorem drops_renamed (hx : x.Renamed P x') (hy : y.Renamed P y') :
    Paired P (· ∈ c.drops x y) (· ∈ d.drops x' y') :=
  ((hx.effective hP).sep fun u u' hu => by
    rw [hasSupport_renamed hP hcd hy hu]).congr (fun _ =>
      List.mem_filter) fun _ => List.mem_filter

omit hP in
/-- What is supported by values that go together is supported alike. -/
theorem supported_renamed {l m : List Int} (hlm : Paired P (· ∈ l) (· ∈ m))
    (hu : P u u') :
    (d.supported m).contains u' = (c.supported l).contains u := by
  rw [Bool.eq_iff_iff, ← Std.ExtTreeSet.mem_iff_contains,
    ← Std.ExtTreeSet.mem_iff_contains, mem_supported, mem_supported]
  constructor
  · rintro ⟨v', hv', hpair⟩
    obtain ⟨v, hv, hvv'⟩ := hlm.back v' hv'
    exact ⟨v, hv, (hcd v v' u u' hvv' hu).mpr hpair⟩
  · rintro ⟨v, hv, hpair⟩
    obtain ⟨v', hv', hvv'⟩ := hlm.forth v hv
    exact ⟨v', hv', (hcd v v' u u' hvv' hu).mp hpair⟩

end

end Constraint

/-! ## Workspaces -/

/-- Workspaces with related variables, the same trail and the same tally. -/
structure Workspace.Matched (R : Variable → Variable → Prop) (w u : Workspace) :
    Prop where
  arena : w.arena.Matched R u.arena
  trail : u.trail = w.trail
  tally : u.tally = w.tally

namespace Workspace.Matched

variable {P : Int → Int → Prop} {R : Variable → Variable → Prop}
  {w u : Workspace} {i : Nat}

theorem node (h : w.Matched R u) : w.node.Matched R u.node :=
  ⟨h.arena, h.trail, congrArg Tally.node h.tally⟩

theorem backtrack (h : w.Matched R u) : w.backtrack.Matched R u.backtrack :=
  ⟨h.arena, h.trail, congrArg Tally.backtrack h.tally⟩

/-- A wipeout is counted by both searches. -/
theorem wipeout (h : w.Matched R u) : w.wipeout.Matched R u.wipeout :=
  { h with tally := congrArg Tally.wipeout h.tally }

/-- A change that keeps variables related keeps workspaces matched. -/
theorem modify (h : w.Matched R u) (i : Nat)
    {f f' : Variable → Except Fault Variable}
    (hf : ∀ x y, R x y → Jointly R (f x) (f' y)) :
    Jointly (Workspace.Matched R) (w.modify i f) (u.modify i f') := by
  obtain ⟨m, trail, tally⟩ := w
  obtain ⟨k, _, _⟩ := u
  obtain ⟨harena, rfl, rfl⟩ := h
  exact (harena.modify i hf).map fun _ _ harena' => ⟨harena', rfl, rfl⟩

/-- Values that go together are pruned together. -/
theorem exclude (hR : Renaming P R) (h : w.Matched R u) (i : Nat) {a b : Int}
    (hab : P a b) :
    Jointly (Same (Workspace.Matched R)) (w.exclude i a) (u.exclude i b) := by
  rw [exclude_eq_map, exclude_eq_map]
  refine (h.arena.adjust i fun x y _ _ hxy => hR.prune hxy hab).map
    fun p q hpq => ?_
  exact ⟨hpq.1, hpq.2, by simp only [hpq.1, h.trail], h.tally⟩

/-- Lists of values that go together are pruned together.  Their orders need not
agree, since one of them may be reversed by the pairing. -/
theorem excludeAll (hR : Renaming P R) (h : w.Matched R u) {x y : Variable}
    {l m : List Int} (hx : w.arena.read i = .ok x) (hy : u.arena.read i = .ok y)
    (hl : l.Pairwise (· < ·)) (hm : m.Pairwise (· < ·))
    (hlive : ∀ v ∈ l, v ∈ x.live) (hlive' : ∀ v ∈ m, v ∈ y.live)
    (hlm : Paired P (· ∈ l) (· ∈ m)) :
    Jointly (Same (Workspace.Matched R)) (w.excludeAll i l)
      (u.excludeAll i m) := by
  rw [excludeAll_eq_map, excludeAll_eq_map]
  refine (h.arena.adjust i fun x' y' hx' hy' hxy => ?_).map fun p q hpq => ?_
  · rw [Arena.read_unique hx' hx, Arena.read_unique hy' hy] at *
    exact hR.pruneAll hxy hl hm hlive hlive' hlm
  · exact ⟨hpq.1, hpq.2, by simp only [hpq.1, h.trail], h.tally⟩

/-- Tests that agree on what goes together hide values that go together. -/
theorem hide (hR : Renaming P R) (h : w.Matched R u) (i : Nat)
    {supported supported' : Int → Bool}
    (hsupported : ∀ a b, P a b → supported' b = supported a) :
    Jointly (Same (Workspace.Matched R)) (w.hide i supported)
      (u.hide i supported') := by
  have hsize : ∀ {x y : Variable}, R x y →
      y.marked.size = x.marked.size := fun hxy =>
    (hR.renamed hxy).marked.size hR.biUnique
  rw [hide_eq_map, hide_eq_map]
  refine (h.arena.adjust i fun x y _ _ hxy => ?_).map fun p q hpq => ?_
  · refine (hR.hideUnsupported hxy hsupported).map fun p q hpq => ⟨?_, hpq.2⟩
    simp only [hpq.1, hsize hpq.2, hsize hxy]
  · exact ⟨by simp only [hpq.1], hpq.2, by simp only [hpq.1, h.trail], h.tally⟩

/-- **A revision and that of the renamed arc** exclude as much. -/
theorem revise (hR : Renaming P R) {net net' : Network}
    (hnet : net.Renamed P net') (h : w.Matched R u) (a : Arc) :
    Jointly (Same (Workspace.Matched R)) (net.revise a w)
      (net'.revise a u) := by
  have hP := hR.biUnique
  unfold Network.revise
  rcases cases_of_rel (hnet.find? a) with ⟨hc, hd⟩ | ⟨c, d, hc, hd, hcd⟩
  · rw [hc, hd]
    exact .ok ⟨rfl, h⟩
  · rw [hc, hd]
    refine (h.arena.reads a.tail).bind fun x x' hx hx' hxx' => ?_
    refine (h.arena.reads a.head).bind fun y y' _ _ hyy' => ?_
    rw [c.partition_eq, d.partition_eq]
    have htail := hR.renamed hxx'
    have hhead := hR.renamed hyy'
    refine (h.excludeAll hR hx hx' (c.ascending_drops x y)
      (d.ascending_drops x' y')
      (fun _ => Constraint.mem_live_of_mem_drops)
      (fun _ => Constraint.mem_live_of_mem_drops)
      (Constraint.drops_renamed hP hcd htail hhead)).bind fun p q _ _ hpq => ?_
    refine (hpq.2.hide hR a.head fun v v' hv => Constraint.supported_renamed hcd
      (Constraint.keeps_renamed hP hcd htail hhead) hv).bind
      fun p' q' _ _ hpq' => ?_
    refine .ok ⟨by simp only [hpq.1, hpq'.1], { hpq'.2 with tally := ?_ }⟩
    simp only [hpq.1, hpq'.1, hpq'.2.tally]

end Workspace.Matched

/-! ## Propagation -/

/-- Renamed networks, through which consequences are followed as far. -/
structure Propagator.Renamed (P : Int → Int → Prop) (p p' : Propagator) :
    Prop where
  network : p.network.Renamed P p'.network
  closure : p'.closure = p.closure

namespace Propagator

variable {P : Int → Int → Prop} {R : Variable → Variable → Prop}
  {p p' : Propagator} {w u : Workspace}

/-- What a run that succeeds does after its first step. -/
theorem of_run_eq_ok {β : Type} {observe : Arc → Arena → β → β} {q : Agenda}
    {seen : β} {r : Bool × Workspace × β} (h : p.run observe q w seen = .ok r) :
    ∃ s, p.step q w = .ok s ∧ (match s with
      | .settled => .ok (true, w, seen)
      | .failed w changed => .ok (false, w, notice observe w seen changed)
      | .going q w changed =>
          p.run observe q w (notice observe w seen changed)) = Except.ok r := by
  rw [run.eq_def] at h
  split at h
  · cases h
  · rename_i hs
    exact ⟨_, hs, h⟩
  · rename_i hs
    exact ⟨_, hs, h⟩
  · rename_i hs
    exact ⟨_, hs, h⟩

/-- The same step, at related workspaces. -/
inductive Step.Related (W : Workspace → Workspace → Prop) : Step → Step → Prop
  | settled : Related W .settled .settled
  | failed {w u : Workspace} (h : W w u) (changed : Option Arc) :
      Related W (.failed w changed) (.failed u changed)
  | going {w u : Workspace} (q : Agenda) (h : W w u) (changed : Option Arc) :
      Related W (.going q w changed) (.going q u changed)

/-- What serving an arc does, through the one network and through the other,
keeps workspaces related.  The second may have more variables. -/
structure Keeps (p p' : Propagator) (W : Workspace → Workspace → Prop) :
    Prop where
  size {w u : Workspace} (h : W w u) : w.arena.size ≤ u.arena.size
  isWipedOut {w u : Workspace} (h : W w u) (i : Nat) :
    Jointly (fun x y => y.isWipedOut = x.isWipedOut) (w.arena.read i)
      (u.arena.read i)
  wipeout {w u : Workspace} (h : W w u) : W w.wipeout u.wipeout
  revise {w u : Workspace} (h : W w u) (a : Arc) :
    Jointly (Same W) (p.network.revise a w) (p'.network.revise a u)
  awakened (a : Arc) (r : Revision) : p'.awakened a r = p.awakened a r

/-- **One step in lockstep.** -/
theorem Keeps.step {W : Workspace → Workspace → Prop} (hW : Keeps p p' W)
    (h : W w u) (q : Agenda) :
    Jointly (Step.Related W) (p.step q w) (p'.step q u) := by
  have hsize := hW.size h
  unfold Propagator.step
  cases q.pop? with
  | none => exact .ok .settled
  | some aq =>
      obtain ⟨a, q⟩ := aq
      by_cases hout : w.arena.size ≤ a.tail ∨ w.arena.size ≤ a.head
      · simp only [if_pos hout]
        intro _ _ h
        cases h
      · have hout' :
          ¬ (u.arena.size ≤ a.tail ∨ u.arena.size ≤ a.head) := by omega
        simp only [if_neg hout, if_neg hout']
        refine (hW.isWipedOut h a.tail).bind fun x y _ _ hxy => ?_
        rw [hxy]
        split
        · exact .ok (.failed (hW.wipeout h) none)
        · refine (hW.revise h a).bind fun r r' _ _ hr => ?_
          obtain ⟨r, w'⟩ := r
          obtain ⟨_, u'⟩ := r'
          obtain ⟨rfl, h'⟩ := hr
          simp only at h' ⊢
          split
          · exact .ok (.going q h' none)
          · refine (hW.isWipedOut h' a.head).bind fun x y _ _ hxy => ?_
            rw [hxy]
            split
            · exact .ok (.failed (hW.wipeout h') (some a))
            · rw [hW.awakened]
              exact .ok (.going _ h' (some a))

/-- **What single steps keep, a whole run keeps**, whatever is observed. -/
theorem Keeps.run {β : Type} {W : Workspace → Workspace → Prop}
    (hW : Keeps p p' W) (observe : Arc → Arena → β → β) (q : Agenda)
    (w : Workspace) (seen : β) :
    ∀ {u : Workspace} (seen' : β), W w u →
      Jointly (fun r r' => r.1 = r'.1 ∧ W r.2.1 r'.2.1) (p.run observe q w seen)
        (p'.run observe q u seen') := by
  induction q, w, seen using run.induct p observe with
  | case1 q w seen e he =>
      intro u seen' h r r' hr
      rw [Propagator.run, he] at hr
      cases hr
  | case2 q w seen he =>
      intro u seen' h r r' hr hr'
      rw [Propagator.run, he] at hr
      obtain ⟨s, hu, hr'⟩ := of_run_eq_ok hr'
      cases hr
      cases hW.step h q _ _ he hu with
      | settled =>
          cases hr'
          exact ⟨rfl, h⟩
  | case3 q w seen w' changed he =>
      intro u seen' h r r' hr hr'
      rw [Propagator.run, he] at hr
      obtain ⟨s, hu, hr'⟩ := of_run_eq_ok hr'
      cases hr
      cases hW.step h q _ _ he hu with
      | failed h' =>
          cases hr'
          exact ⟨rfl, h'⟩
  | case4 q w seen q' w' changed he ih =>
      intro u seen' h r r' hr hr'
      rw [Propagator.run, he] at hr
      obtain ⟨s, hu, hr'⟩ := of_run_eq_ok hr'
      cases hW.step h q _ _ he hu with
      | going _ h' => exact ih _ h' r r' hr hr'

/-- Propagation keeps workspaces related, whatever the arcs that it starts
from. -/
theorem Keeps.propagate {W : Workspace → Workspace → Prop} (hW : Keeps p p' W)
    (h : W w u) (seed : List Arc) :
    Jointly (Same W) (p.propagate seed w) (p'.propagate seed u) :=
  (hW.run _ _ w () () h).map fun _ _ hr => hr

/-- Propagation through renamed networks keeps workspaces matched. -/
theorem keeps_matched (hR : Renaming P R) (hp : p.Renamed P p') :
    Keeps p p' (Workspace.Matched R) where
  size h := Nat.le_of_eq h.arena.size.symm
  isWipedOut h i x y hx hy :=
    (hR.renamed (h.arena.read i x y hx hy)).isWipedOut hR.biUnique
  wipeout h := h.wipeout
  revise h a := h.revise hR hp.network a
  awakened := awakened_of_arcs hp.network.arcs hp.closure

end Propagator

/-! ## Rewinding -/

/-- **What undoing one mark or one prune keeps, rewinding keeps.** -/
theorem Trail.rewind_related {A : Arena → Arena → Prop}
    (hmark : ∀ i m k, A m k → Jointly (fun p q => A p.2 q.2)
      (m.adjust i Variable.undoMark) (k.adjust i Variable.undoMark))
    (hprune : ∀ i m k, A m k → Jointly (fun p q => A p.2 q.2)
      (m.adjust i Variable.undoPrune) (k.adjust i Variable.undoPrune))
    {m k : Arena} (h : A m k) (t : Trail) (c : Checkpoint) :
    Jointly (Same A) (t.rewind c m) (t.rewind c k) := by
  unfold Trail.rewind
  split
  · refine (Jointly.foldlM (fun i m k h => (hmark i m k h).map fun _ _ hpq =>
      hpq) _ h).bind fun m' k' _ _ h' => ?_
    refine (Jointly.foldlM (fun i m k h => (hprune i m k h).map fun _ _ hpq =>
      hpq) _ h').bind fun m'' k'' _ _ h'' => ?_
    exact .ok ⟨rfl, h''⟩
  · intro _ _ h
    cases h

/-! ## Searches -/

/-- Searches at matched workspaces, with solutions that go together. -/
structure Search.Matched (P : Int → Int → Prop) (R : Variable → Variable → Prop)
    (s t : Search) : Prop where
  workspace : s.toWorkspace.Matched R t.toWorkspace
  solutions : List.Forall₂ (Solution.Renamed P) s.solutions.toList
    t.solutions.toList

namespace Search.Matched

variable {P : Int → Int → Prop} {R : Variable → Variable → Prop} {s t : Search}
  {i : Nat} {a b : Int} {p p' : Propagator}

/-- Whatever else the relation says, the variables are renamed ones of each
other. -/
theorem renamed (hR : Renaming P R) (h : s.Matched P R t) :
    s.Matched P (Variable.Renamed P) t :=
  ⟨{ h.workspace with
      arena := h.workspace.arena.imp fun _ _ hxy => hR.renamed hxy },
    h.solutions⟩

/-- Before they begin, searches have found nothing. -/
theorem begin {m k : Arena} (h : m.Matched R k) :
    (Search.begin m).Matched P R (Search.begin k) :=
  ⟨⟨h, rfl, rfl⟩, .nil⟩

/-- A search stays matched through whatever its workspace stays matched
through. -/
theorem modify {f f' : Workspace → Except Fault Workspace} (h : s.Matched P R t)
    (hf : Jointly (Workspace.Matched R) (f s.toWorkspace) (f' t.toWorkspace)) :
    Jointly (Search.Matched P R) (s.modify f) (t.modify f') :=
  hf.map fun _ _ hwu => ⟨hwu, h.solutions⟩

/-- The same where the operation answers something. -/
theorem adjust {α : Type} {f f' : Workspace → Except Fault (α × Workspace)}
    (h : s.Matched P R t)
    (hf : Jointly (Same (Workspace.Matched R)) (f s.toWorkspace)
      (f' t.toWorkspace)) :
    Jointly (Same (Search.Matched P R)) (s.adjust f) (t.adjust f') :=
  hf.map fun _ _ hpq => ⟨hpq.1, hpq.2, h.solutions⟩

theorem node (h : s.Matched P R t) : s.node.Matched P R t.node :=
  ⟨h.workspace.node, h.solutions⟩

theorem backtrack (h : s.Matched P R t) : s.backtrack.Matched P R t.backtrack :=
  ⟨h.workspace.backtrack, h.solutions⟩

theorem assign (hR : Renaming P R) (h : s.Matched P R t) (i : Nat)
    (hab : P a b) :
    Jointly (Search.Matched P R) (s.assign i a) (t.assign i b) :=
  h.modify (h.workspace.modify i fun _ _ hxy => .ok (hR.assign hxy hab))

/-- Values that go together are pruned, and both were live or neither. -/
theorem exclude (hR : Renaming P R) (h : s.Matched P R t) (i : Nat)
    (hab : P a b) :
    Jointly (Same (Search.Matched P R)) (s.exclude i a) (t.exclude i b) :=
  h.adjust (h.workspace.exclude hR i hab)

/-- Propagation through renamed networks answers alike and leaves searches
matched. -/
theorem propagate (hR : Renaming P R) (hp : p.Renamed P p')
    (h : s.Matched P R t) (seed : List Arc) :
    Jointly (Same (Search.Matched P R)) (s.propagate p seed)
      (t.propagate p' seed) :=
  h.adjust ((Propagator.keeps_matched hR hp).propagate h.workspace seed)

/-- So it does from one variable, for the networks have the same arcs there. -/
theorem propagateFrom (hR : Renaming P R) (hp : p.Renamed P p')
    (h : s.Matched P R t) (i : Nat) :
    Jointly (Same (Search.Matched P R)) (s.propagateFrom p i)
      (t.propagateFrom p' i) := by
  rw [Search.propagateFrom, Search.propagateFrom,
    Network.arcsFrom_of_arcs hp.network.arcs]
  exact h.propagate hR hp _

/-- So it does from all arcs. -/
theorem propagateAll (hR : Renaming P R) (hp : p.Renamed P p')
    (h : s.Matched P R t) :
    Jointly (Same (Search.Matched P R)) (s.propagateAll p)
      (t.propagateAll p') := by
  rw [Search.propagateAll, Search.propagateAll, hp.network.arcs]
  exact h.propagate hR hp _

/-- **Solutions that go together are recorded together.** -/
theorem record (hR : Renaming P R) (h : s.Matched P R t) (net net' : Network)
    (limit : Limit) :
    Jointly (Same (Search.Matched P R)) (s.record net limit)
      (t.record net' limit) := by
  have hfound := Solution.ofArena?_renamed (h.renamed hR).workspace.arena
  rintro ⟨flow, s'⟩ ⟨flow', t'⟩ hs ht
  simp only [Search.record] at hs ht
  rcases cases_of_rel hfound with ⟨hx, hy⟩ | ⟨sol, sol', hx, hy, hsol⟩
  · rw [hx] at hs
    cases hs
  · rw [hx] at hs
    rw [hy] at ht
    simp only at hs ht
    split at hs
    · split at ht
      · cases hs
        cases ht
        have hsolutions :
            List.Forall₂ (Solution.Renamed P) (s.solutions.push sol).toList
            (t.solutions.push sol').toList := by
          rw [Array.toList_push, Array.toList_push]
          exact List.rel_append h.solutions (.cons hsol .nil)
        have hsize : (t.solutions.push sol').size =
            (s.solutions.push sol).size :=
          hsolutions.length_eq.symm
        exact ⟨by simp only [hsize], h.workspace, hsolutions⟩
      · cases ht
    · cases hs

end Search.Matched

namespace Branching

variable {σ : Type} {P : Int → Int → Prop} {R : Variable → Variable → Prop}
  {b b' : Branching σ} {s t : Search} {u v : Int}

/-- Searches through renamed networks, under a variable order that sees no
difference. -/
structure Renamed (P : Int → Int → Prop) (b b' : Branching σ) : Prop where
  propagator : b.propagator.Renamed P b'.propagator
  selector {m k : Arena} (h : m.Matched (Variable.Renamed P) k) (g : σ) :
    b'.selector k b'.propagator.network g = b.selector m b.propagator.network g
  limit : b'.limit = b.limit

/-- On the left branches, values that go together are accepted or fail
together. -/
theorem accept_matched (hR : Renaming P R) (hb : b.Renamed P b')
    (h : s.Matched P R t) (i : Nat) (huv : P u v) :
    Jointly (Same (Search.Matched P R)) (b.accept i u s) (b'.accept i v t) :=
  (h.assign hR i huv).bind fun _ _ _ _ h => h.propagateFrom hR hb.propagator i

/-- On the right branches they are refuted together, with propagation on both
sides or on neither. -/
theorem refute_matched (hR : Renaming P R) (hb : b.Renamed P b')
    (h : s.Matched P R t) (i : Nat) (huv : P u v) :
    Jointly (Same (Search.Matched P R)) (b.refute i u s) (b'.refute i v t) := by
  refine (h.exclude hR i huv).bind fun p q _ _ hpq => ?_
  obtain ⟨pruned, s'⟩ := p
  obtain ⟨_, t'⟩ := q
  obtain ⟨rfl, h'⟩ := hpq
  refine (h'.workspace.arena.reads i).bind fun x y _ _ hxy => ?_
  simp only [(hR.renamed hxy).isWipedOut hR.biUnique]
  split
  · exact h'.propagateFrom hR hb.propagator i
  · exact .ok ⟨rfl, h'⟩

/-! ## Branches -/

variable {S : Search → Search → Prop} {i : Nat} {g : σ} {entry : Checkpoint}
  {below below' : σ → Search → Except Fault (Flow × σ × Search)}

/-- The same end, at related searches. -/
def SameEnds (S : Search → Search → Prop) (p q : Flow × σ × Search) : Prop :=
  p.1 = q.1 ∧ p.2.1 = q.2.1 ∧ S p.2.2 q.2.2

/-- What is done on the branches of two nodes, on the value `u` at the one and
on `v` at the other, keeps searches related. -/
structure Carries (S : Search → Search → Prop) (b b' : Branching σ) (i : Nat)
    (u v : Int) : Prop where
  accept {s t : Search} : S s t →
    Jointly (Same S) (b.accept i u s) (b'.accept i v t)
  refute {s t : Search} : S s t →
    Jointly (Same S) (b.refute i u s) (b'.refute i v t)
  rewind {s t : Search} (c : Checkpoint) : S s t →
    Jointly S (s.rewind c) (t.rewind c)
  unassign {s t : Search} : S s t → Jointly S (s.unassign i) (t.unassign i)
  retire {s t : Search} : S s t → Jointly S (s.retire i) (t.retire i)
  backtrack {s t : Search} : S s t → S s.backtrack t.backtrack
  trail {s t : Search} : S s t → t.trail = s.trail

namespace Carries

/-- Below a decision that stands both searches go on, and below one that does
not both backtrack. -/
theorem descend (hS : Carries S b b' i u v) (g : σ) (ok : Bool) (h : S s t)
    (hbelow : ok = true → Jointly (SameEnds S) (below g s) (below' g t)) :
    Jointly (SameEnds S) (descend below g ok s)
      (Branching.descend below' g ok t) := by
  cases ok with
  | true => exact hbelow rfl
  | false => exact .ok ⟨rfl, rfl, hS.backtrack h⟩

/-- The left branches, if what is searched below them keeps searches related. -/
theorem left (hS : Carries S b b' i u v) (h : S s t)
    (hbelow : ∀ s' t', b.accept i u s = .ok (true, s') → S s' t' →
      Jointly (SameEnds S) (below g s') (below' g t')) :
    Jointly (SameEnds S) (b.left below i u g entry s)
      (b'.left below' i v g entry t) := by
  rw [left_eq, left_eq]
  refine (hS.accept h).bind fun p q hp _ hpq => ?_
  obtain ⟨ok, s'⟩ := p
  obtain ⟨_, t'⟩ := q
  obtain ⟨rfl, h'⟩ := hpq
  refine Jointly.bind (hS.descend g ok h' fun hok => hbelow s' t' (hok ▸ hp) h')
    fun e e' _ _ he => ?_
  obtain ⟨flow, g', r⟩ := e
  obtain ⟨_, _, r'⟩ := e'
  obtain ⟨rfl, rfl, hr⟩ := he
  refine (hS.rewind entry hr).bind fun r₁ r₁' _ _ hr₁ => ?_
  exact (hS.unassign hr₁).bind fun r₂ r₂' _ _ hr₂ => .ok ⟨rfl, rfl, hr₂⟩

/-- The right branches likewise. -/
theorem right (hS : Carries S b b' i u v) (h : S s t)
    (hbelow : ∀ s' t', b.refute i u s = .ok (true, s') → S s' t' →
      Jointly (SameEnds S) (below g s') (below' g t')) :
    Jointly (SameEnds S) (b.right below i u g entry s)
      (b'.right below' i v g entry t) := by
  refine (hS.refute h).bind fun p q hp _ hpq => ?_
  obtain ⟨ok, s'⟩ := p
  obtain ⟨_, t'⟩ := q
  obtain ⟨rfl, h'⟩ := hpq
  refine Jointly.bind (hS.descend g ok h' fun hok => hbelow s' t' (hok ▸ hp) h')
    fun e e' _ _ he => ?_
  obtain ⟨flow, g', r⟩ := e
  obtain ⟨_, _, r'⟩ := e'
  obtain ⟨rfl, rfl, hr⟩ := he
  exact (hS.rewind entry hr).bind fun r₁ r₁' _ _ hr₁ => .ok ⟨rfl, rfl, hr₁⟩

/-- **Both branches of a node**, if what is searched below them keeps searches
related. -/
theorem branch (hS : Carries S b b' i u v) (h : S s t)
    (haccepted : ∀ s' t', b.accept i u s = .ok (true, s') → S s' t' →
      Jointly (SameEnds S) (below g s') (below' g t'))
    (hrefuted : ∀ g' r s' t', b.left below i u g entry s = .ok (.goOn, g', r) →
      b.refute i u r = .ok (true, s') → S s' t' →
      Jointly (SameEnds S) (below g' s') (below' g' t')) :
    Jointly (SameEnds S) (b.branch below i u g entry s)
      (b'.branch below' i v g entry t) := by
  refine (hS.left h haccepted).bind fun p q hp _ hpq => ?_
  obtain ⟨flow, g', r⟩ := p
  obtain ⟨_, _, r'⟩ := q
  obtain ⟨rfl, rfl, hr⟩ := hpq
  -- Both ways end by retiring the choice and checking the trail.
  have hclose : ∀ e e' : Flow × σ × Search, SameEnds S e e' →
      Jointly (SameEnds S) (do
        let u ← e.2.2.retire i
        if u.trail.checkpoint = entry then return (e.1, e.2.1, u)
        else throw (.unbalanced i entry u.trail.checkpoint))
      (do
        let u ← e'.2.2.retire i
        if u.trail.checkpoint = entry then return (e'.1, e'.2.1, u)
        else throw (.unbalanced i entry u.trail.checkpoint)) := by
    rintro ⟨flow, g₁, e⟩ ⟨_, _, e'⟩ ⟨rfl, rfl, he⟩
    refine (hS.retire he).bind fun u u' _ _ hu => ?_
    rw [hS.trail hu]
    split
    · exact .ok ⟨rfl, rfl, hu⟩
    · intro _ _ h
      cases h
  cases flow with
  | stop => exact hclose (.stop, g', r) (.stop, g', r') ⟨rfl, rfl, hr⟩
  | goOn =>
      have hright :
          Jointly (SameEnds S) (b.right below i u g' r.trail.checkpoint r)
          (b'.right below' i v g' r'.trail.checkpoint r') := by
        rw [hS.trail hr]
        exact hS.right hr fun s' t' hs' => hrefuted g' r s' t' hp hs'
      exact hright.bind fun e e' _ _ he => hclose e e' he

end Carries

end Branching

/-! ## Strategies -/

/-- **Strategies go in lockstep** where propagation at the root, searching from
there and rewinding keep searches related. -/
theorem Algorithm.explore_related {σ : Type} {b b' : Branching σ} {m k : Arena}
    {g : σ} {S : Search → Search → Prop} (algorithm : Algorithm)
    (hbegin : S (.begin m) (.begin k))
    (hpropagate : Jointly (Same S) ((Search.begin m).propagateAll b.propagator)
      ((Search.begin k).propagateAll b'.propagator))
    (hroot : ∀ s t, Begins b m g algorithm ⟨s.arena.depth, g, s⟩ → S s t →
      Jointly (Same S) (fromRoot b g s) (fromRoot b' g t))
    (hrewind : ∀ s t c, S s t → Jointly S (s.rewind c) (t.rewind c)) :
    Jointly (Same S) (algorithm.explore b m g) (algorithm.explore b' k g) := by
  cases algorithm with
  | forwardChecking => exact hroot _ _ .forwardChecking hbegin
  | maintainArcConsistency =>
      refine hpropagate.bind fun p q hp _ hpq => ?_
      obtain ⟨ok, s⟩ := p
      obtain ⟨_, t⟩ := q
      obtain ⟨rfl, hst⟩ := hpq
      cases ok with
      | true =>
          refine Jointly.bind (hroot s t (.maintainArcConsistency hp) hst)
            fun e e' _ _ he => ?_
          exact (hrewind _ _ _ he.2).bind fun r r' _ _ hr => .ok ⟨he.1, hr⟩
      | false => exact (hrewind _ _ _ hst).bind fun r r' _ _ hr => .ok ⟨rfl, hr⟩

end ConstraintNet
