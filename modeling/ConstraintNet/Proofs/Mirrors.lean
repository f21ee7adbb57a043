import ConstraintNet.Proofs.Lockstep
import ConstraintNet.Proofs.Runs

/-!
# Searches of mirror images

A pairing may turn the order of values around.  Then the values that a revision
prunes come in another order, and so they come back in another order; but a
revision that prunes the same values leaves the same, in whichever order, and
what a search leaves behind is what it found.  So the two searches still go the
same way, if the one value order is the other turned around and neither
overlooks a value.
-/

namespace ConstraintNet

open Relator (BiUnique)

theorem Variable.Alike.calm {x y : Variable} (h : x.Alike y) (hx : x.Calm) :
    y.Calm where
  pending := h.pending.trans hx.pending
  not_pruned v hv := by
    rw [h.pruned]
    exact hx.not_pruned v ((h.domain v).mp hv)

/-- Renamed variables of which exclusions can be asked. -/
structure Variable.Mirrors (P : Int → Int → Prop) (x y : Variable) : Prop
    extends x.Renamed P y where
  calm : x.Calm
  calm' : y.Calm

namespace Variable.Mirrors

variable {P : Int → Int → Prop} {x y x' y' : Variable} {a b : Int}
  {l m : List Int}

/-- Values that go together were pruned from both. -/
theorem of_pruned (hP : BiUnique P) (h : x.Mirrors P y) (hx : x.Pruned l x')
    (hy : y.Pruned m y') (hlm : Paired P (· ∈ l) (· ∈ m)) :
    x'.Mirrors P y' where
  id := by rw [hx.later.id, hy.later.id, h.id]
  domain :=
    (h.domain.sep fun _ _ hab => not_congr (hlm.iff hP hab)).congr hx.mem_domain
      hy.mem_domain
  value := by
    rw [hx.later.value, hy.later.value]
    exact h.value
  tried := by
    rw [hx.later.tried, hy.later.tried]
    exact h.tried
  marked := by
    rw [hx.marked, hy.marked]
    exact h.marked
  pending := ⟨(hx.later.calm h.calm).pending, (hy.later.calm h.calm').pending⟩
  calm := hx.later.calm h.calm
  calm' := hy.later.calm h.calm'

/-- Pruning paired lists of live values keeps mirrors, in whatever order each
side has them. -/
theorem pruneAll (hP : BiUnique P) (h : x.Mirrors P y) (hl : l.Nodup)
    (hm : m.Nodup) (hx : ∀ v ∈ l, v ∈ x.live) (hy : ∀ v ∈ m, v ∈ y.live)
    (hlm : Paired P (· ∈ l) (· ∈ m)) :
    Jointly (Same (Variable.Mirrors P)) (x.pruneAll 0 l) (y.pruneAll 0 m) := by
  obtain ⟨x', hx', hpruned⟩ := pruneAll_of_live 0 h.calm hl hx
  obtain ⟨y', hy', hpruned'⟩ := pruneAll_of_live 0 h.calm' hm hy
  rw [hx', hy', hlm.length_eq hP hl hm]
  exact .ok ⟨rfl, h.of_pruned hP hpruned hpruned' hlm⟩

/-- Pruning values that go together keeps mirrors. -/
theorem prune (hP : BiUnique P) (h : x.Mirrors P y) (hab : P a b) :
    Jointly (Same (Variable.Mirrors P)) (x.prune a) (y.prune b) := by
  have hlive := (h.live hP).iff hP hab
  by_cases ha : a ∈ x.live
  · obtain ⟨x', hx', hpruned⟩ := prune_of_mem_live h.calm ha
    obtain ⟨y', hy', hpruned'⟩ := prune_of_mem_live h.calm' (hlive.mp ha)
    rw [hx', hy']
    exact .ok ⟨rfl,
      h.of_pruned hP hpruned hpruned' (.of_forall₂ (.cons hab .nil))⟩
  · rw [prune_of_not_mem_live ha,
      prune_of_not_mem_live fun hb => ha (hlive.mpr hb)]
    exact .ok ⟨rfl, h⟩

/-- Hiding keeps mirrors if values that go together have support or lack it
together. -/
theorem hideUnsupported (hP : BiUnique P) (h : x.Mirrors P y)
    {supported supported' : Int → Bool}
    (hsupported : ∀ a b, P a b → supported' b = supported a) :
    Jointly (Same (Variable.Mirrors P)) (x.hideUnsupported supported)
      (y.hideUnsupported supported') := by
  obtain ⟨x', hx', hhidden, _⟩ := hideUnsupported_of_calm h.calm supported rfl
  obtain ⟨y', hy', hhidden', _⟩ :=
    hideUnsupported_of_calm h.calm' supported' rfl
  obtain ⟨hflag, hrenamed⟩ :=
    h.toRenamed.hideUnsupported hP hsupported _ _ hx' hy'
  rw [hx', hy']
  exact .ok ⟨hflag, { hrenamed with
    calm := hhidden.later.calm h.calm
    calm' := hhidden'.later.calm h.calm' }⟩

theorem assign (h : x.Mirrors P y) (hab : P a b) :
    (x.assign a).Mirrors P (y.assign b) :=
  { h.toRenamed.assign hab with
    calm := ⟨h.calm.pending, h.calm.not_pruned⟩
    calm' := ⟨h.calm'.pending, h.calm'.not_pruned⟩ }

theorem unassign (h : x.Mirrors P y) : x.unassign.Mirrors P y.unassign :=
  { h.toRenamed.unassign with
    calm := ⟨h.calm.pending, h.calm.not_pruned⟩
    calm' := ⟨h.calm'.pending, h.calm'.not_pruned⟩ }

/-- Restored variables mirror each other as those did that they are alike. -/
theorem of_alike (h : x.Mirrors P y) (hx : x.Alike x') (hy : y.Alike y') :
    x'.Mirrors P y' :=
  { h.toRenamed.of_alike hx hy with
    calm := hx.calm h.calm
    calm' := hy.calm h.calm' }

end Variable.Mirrors

/-- Mirror images are kept on the way down. -/
theorem Renaming.mirrors {P : Int → Int → Prop} (hP : BiUnique P) :
    Renaming P (Variable.Mirrors P) where
  biUnique := hP
  renamed h := h.toRenamed
  prune h hab := h.prune hP hab
  pruneAll h hl hm hx hy hlm :=
    h.pruneAll hP (hl.imp fun hab => Int.ne_of_lt hab)
      (hm.imp fun hab => Int.ne_of_lt hab) hx hy hlm
  hideUnsupported h hsupported := h.hideUnsupported hP hsupported
  assign h hab := h.assign hab

/-! ## Searches -/

namespace Branching

variable {σ : Type} {P : Int → Int → Prop} {b b' : Branching σ} {m k : Arena}
  {d : Nat} {g g' : σ} {s t : Search} {i : Nat} {u v : Int} {x y : Variable}

/-- The same end, with solutions that go together and the same counts. -/
def MirroredEnds (P : Int → Int → Prop) (p q : Flow × σ × Search) : Prop :=
  p.1 = q.1 ∧ p.2.1 = q.2.1 ∧
    List.Forall₂ (Solution.Renamed P) p.2.2.solutions.toList
      q.2.2.solutions.toList ∧
    q.2.2.tally = p.2.2.tally

/-- Searches with the accounts of searches that go together. -/
theorem mirrored_of_account {s' t' : Search} (hs : s'.account = s.account)
    (ht : t'.account = t.account)
    (h : List.Forall₂ (Solution.Renamed P) s.solutions.toList
      t.solutions.toList ∧ t.tally = s.tally) :
    List.Forall₂ (Solution.Renamed P) s'.solutions.toList t'.solutions.toList ∧
      t'.tally = s'.tally := by
  rw [Search.solutions_of_account hs, Search.solutions_of_account ht,
    Search.tally_of_account hs, Search.tally_of_account ht]
  exact h

/-- What a call at this depth answers at mirror images, both of which are ready
and overlook nothing. -/
def KeepsMirrors (P : Int → Int → Prop) (b b' : Branching σ) (m k : Arena)
    (d : Nat) : Prop :=
  ∀ g s t, s.Matched P (Variable.Renamed P) t → b.Ready m ⟨d, g, s⟩ →
    b'.Ready k ⟨d, g, t⟩ →
    (∀ c, b.Reaches ⟨d, g, s⟩ c → ¬ b.Overlooks c) →
    (∀ c, b'.Reaches ⟨d, g, t⟩ c → ¬ b'.Overlooks c) →
    Jointly (MirroredEnds P) (b.search d g s) (b'.search d g t)

/-- Renamed variables of two ready calls are mirror images. -/
theorem Ready.mirrors {c c' : Call σ} (hc : b.Ready m c) (hc' : b'.Ready k c')
    (h : c.search.Matched P (Variable.Renamed P) c'.search) :
    c.search.Matched P (Variable.Mirrors P) c'.search :=
  ⟨⟨⟨h.workspace.arena.size, fun i x y hx hy =>
    { h.workspace.arena.read i x y hx hy with
      calm := (hc.sound.orderly.settled i x hx).calm
      calm' := (hc'.sound.orderly.settled i y hy).calm }⟩, h.workspace.trail,
        h.workspace.tally⟩,
    h.solutions⟩

/-- A descent is mirrored if the searches below are, or counts a backtrack on
both sides. -/
theorem descend_mirrored (g : σ) {ok : Bool}
    (h : s.Matched P (Variable.Mirrors P) t)
    (hbelow : ok = true →
      Jointly (MirroredEnds P) (b.search d g s) (b'.search d g t)) :
    Jointly (MirroredEnds P) (descend (b.search d) g ok s)
      (descend (b'.search d) g ok t) := by
  cases ok with
  | true => exact hbelow rfl
  | false => exact .ok ⟨rfl, rfl, h.solutions, h.backtrack.workspace.tally⟩

/-- What the left branches leave. -/
theorem left_mirrored (hb : b.Renamed P b') (hP : BiUnique P)
    (hsafe : b.selector.IsSafe) (hsafe' : b'.selector.IsSafe)
    (hready : b.Ready m ⟨d + 1, g, s⟩) (hready' : b'.Ready k ⟨d + 1, g, t⟩)
    (hpicks : b.Picks ⟨d + 1, g, s⟩ i u g')
    (hpicks' : b'.Picks ⟨d + 1, g, t⟩ i v g') (huv : P u v)
    (h : s.Matched P (Variable.Renamed P) t)
    (hbelow : ∀ s' t', b.accept i u s.node = .ok (true, s') →
      b'.accept i v t.node = .ok (true, t') →
      s'.Matched P (Variable.Mirrors P) t' →
      Jointly (MirroredEnds P) (b.search d g' s') (b'.search d g' t')) :
    Jointly (fun p q => p.1 = q.1 ∧ p.2.1 = q.2.1 ∧
      p.2.2.Matched P (Variable.Mirrors P) q.2.2)
      (b.left (b.search d) i u g' s.node.trail.checkpoint s.node)
      (b'.left (b'.search d) i v g' t.node.trail.checkpoint t.node) := by
  rintro ⟨flow, g₁, r⟩ ⟨flow', g₁', r'⟩ hleft hleft'
  have hnode : s.node.Matched P (Variable.Mirrors P) t.node :=
    (hready.mirrors hready' h).node
  obtain ⟨ok, s₁, s₂, haccept, hdescend, haccount⟩ := of_left_eq_ok hleft
  obtain ⟨ok', t₁, t₂, haccept', hdescend', haccount'⟩ := of_left_eq_ok hleft'
  obtain ⟨hok, h₁⟩ :=
    accept_matched (.mirrors hP) hb hnode i huv _ _ haccept haccept'
  cases hok
  obtain ⟨hflow, hstate, hfound⟩ := descend_mirrored g' h₁ (fun hok => by
    subst hok
    exact hbelow s₁ t₁ haccept haccept' h₁) _ _ hdescend hdescend'
  -- Both branches leave the value as a choice without assignment, and the trail
  -- as it was.
  obtain ⟨x, ho⟩ := hpicks.offers hsafe hready.sound.node.orderly
  obtain ⟨y, ho'⟩ := hpicks'.offers hsafe' hready'.sound.node.orderly
  obtain ⟨hopened, htrail⟩ := hready.returned hsafe ho hleft
  obtain ⟨hopened', htrail'⟩ := hready'.returned hsafe' ho' hleft'
  have hxy := hnode.workspace.arena.read i x y ho.read ho'.read
  have harena : r.arena.Matched (Variable.Mirrors P) r'.arena :=
    (hnode.workspace.arena.write (Arena.lt_of_read ho.read)
      (hxy.assign huv).unassign).of_alike
      hopened hopened' fun _ _ _ _ h hx hy => h.of_alike hx hy
  obtain ⟨hsolutions, htally⟩ := mirrored_of_account haccount haccount' hfound
  refine ⟨hflow, hstate, ⟨harena, ?_, htally⟩, hsolutions⟩
  rw [htrail, htrail', hnode.workspace.trail]

/-- What the right branches leave. -/
theorem right_mirrored (hb : b.Renamed P b') (hP : BiUnique P)
    {entry entry' : Checkpoint} (huv : P u v)
    (h : s.Matched P (Variable.Mirrors P) t)
    (hbelow : ∀ s' t', b.refute i u s = .ok (true, s') →
      b'.refute i v t = .ok (true, t') → s'.Matched P (Variable.Mirrors P) t' →
      Jointly (MirroredEnds P) (b.search d g s') (b'.search d g t')) :
    Jointly (MirroredEnds P) (b.right (b.search d) i u g entry s)
      (b'.right (b'.search d) i v g entry' t) := by
  rintro ⟨flow, g₁, r⟩ ⟨flow', g₁', r'⟩ hright hright'
  obtain ⟨ok, s₁, s₂, hrefute, hdescend, haccount⟩ := of_right_eq_ok hright
  obtain ⟨ok', t₁, t₂, hrefute', hdescend', haccount'⟩ := of_right_eq_ok hright'
  obtain ⟨hok, h₁⟩ :=
    refute_matched (.mirrors hP) hb h i huv _ _ hrefute hrefute'
  cases hok
  obtain ⟨hflow, hstate, hfound⟩ := descend_mirrored g h₁ (fun hok => by
    subst hok
    exact hbelow s₁ t₁ hrefute hrefute' h₁) _ _ hdescend hdescend'
  exact ⟨hflow, hstate, mirrored_of_account haccount haccount' hfound⟩

/-- What both branches leave. -/
theorem branch_mirrored (hb : b.Renamed P b') (hP : BiUnique P)
    (hsafe : b.selector.IsSafe) (hsafe' : b'.selector.IsSafe)
    (hready : b.Ready m ⟨d + 1, g, s⟩) (hready' : b'.Ready k ⟨d + 1, g, t⟩)
    (hpicks : b.Picks ⟨d + 1, g, s⟩ i u g')
    (hpicks' : b'.Picks ⟨d + 1, g, t⟩ i v g') (huv : P u v)
    (h : s.Matched P (Variable.Renamed P) t)
    (hnone : ∀ c, b.Reaches ⟨d + 1, g, s⟩ c → ¬ b.Overlooks c)
    (hnone' : ∀ c, b'.Reaches ⟨d + 1, g, t⟩ c → ¬ b'.Overlooks c)
    (ih : KeepsMirrors P b b' m k d) :
    Jointly (MirroredEnds P)
      (b.branch (b.search d) i u g' s.node.trail.checkpoint s.node)
      (b'.branch (b'.search d) i v g' t.node.trail.checkpoint t.node) := by
  have hcall : ∀ {g₁ s₁ t₁}, b.Enters ⟨d + 1, g, s⟩ ⟨d, g₁, s₁⟩ →
      b'.Enters ⟨d + 1, g, t⟩ ⟨d, g₁, t₁⟩ →
      s₁.Matched P (Variable.Mirrors P) t₁ →
      Jointly (MirroredEnds P) (b.search d g₁ s₁) (b'.search d g₁ t₁) := by
    intro g₁ s₁ t₁ henters henters' h₁
    exact ih g₁ s₁ t₁ (h₁.renamed (.mirrors hP))
      (henters.ready hsafe hready) (henters'.ready hsafe' hready')
      (fun c hc => hnone c (.head henters hc)) fun c hc =>
        hnone' c (.head henters' hc)
  have hleft :=
    left_mirrored hb hP hsafe hsafe' hready hready' hpicks hpicks' huv h
      fun s₁ t₁ hs₁ ht₁ => hcall (.left hpicks hs₁) (.left hpicks' ht₁)
  rintro ⟨flow, g₂, r⟩ ⟨flow', g₂', r'⟩ hbranch hbranch'
  rcases of_branch_eq_ok hbranch with
    ⟨rfl, s₁, hs₁, hend⟩ | ⟨g₁, s₁, s₂, hs₁, hs₂, hend⟩
  · rcases of_branch_eq_ok hbranch' with
      ⟨rfl, t₁, ht₁, hend'⟩ | ⟨g₁', t₁, t₂, ht₁, ht₂, hend'⟩
    · obtain ⟨_, hstate, h₁⟩ := hleft _ _ hs₁ ht₁
      exact ⟨rfl, hstate,
        mirrored_of_account hend hend' ⟨h₁.solutions, h₁.workspace.tally⟩⟩
    · cases (hleft _ _ hs₁ ht₁).1
  · rcases of_branch_eq_ok hbranch' with
      ⟨rfl, t₁, ht₁, hend'⟩ | ⟨g₁', t₁, t₂, ht₁, ht₂, hend'⟩
    · cases (hleft _ _ hs₁ ht₁).1
    · obtain ⟨_, hstate, h₁⟩ := hleft _ _ hs₁ ht₁
      cases hstate
      obtain ⟨hflow, hstate, hfound⟩ := right_mirrored hb hP huv h₁
        (fun s₂ t₂ hs₂ ht₂ =>
          hcall (.right hpicks hs₁ hs₂) (.right hpicks' ht₁ ht₂)) _ _ hs₂ ht₂
      exact ⟨hflow, hstate, mirrored_of_account hend hend' hfound⟩

/-- **Searches of mirror images answer mirror images**, with the same counts, if
no call of either overlooks a value. -/
theorem search_mirrored (hb : b.Renamed P b')
    (horder : b.valueOrder.Carries P b'.valueOrder) (hsafe : b.selector.IsSafe)
    (hsafe' : b'.selector.IsSafe) (m k : Arena) :
    ∀ d, KeepsMirrors P b b' m k d := by
  have hP := horder.biUnique
  intro d
  induction d with
  | zero =>
      intro g s t _ _ _ _ _ _ _ h
      cases h
  | succ d ih =>
      intro g s t h hready hready' hnone hnone'
      have hmirrors : s.node.Matched P (Variable.Mirrors P) t.node :=
        (hready.mirrors hready' h).node
      have hnode : s.node.arena.Matched (Variable.Renamed P) t.node.arena :=
        h.node.workspace.arena
      have hcomplete := hnode.isComplete
      have hselect := hb.selector hnode g
      rw [search, search]
      simp only [hcomplete, hselect, hb.limit]
      split
      · refine (hmirrors.record (.mirrors hP) _ _ _).bind fun p q _ _ hpq => ?_
        exact .ok ⟨hpq.1, rfl, hpq.2.solutions, hpq.2.workspace.tally⟩
      · rename_i hincomplete
        have hincomplete : s.node.arena.isComplete =
          false := by simpa using hincomplete
        have hincomplete' : t.node.arena.isComplete = false :=
          hcomplete.trans hincomplete
        split
        · exact .ok ⟨rfl, rfl, hmirrors.solutions, hmirrors.workspace.tally⟩
        · rename_i i g' hg
          have hg' := hselect.trans hg
          refine (hmirrors.workspace.arena.reads i).bind fun x y hx hy hxy => ?_
          have hvalues :=
            rel_head? (ValueOrder.rightful_renamed horder hxy.toRenamed)
          rw [← select_of_not_overlooks (hnone _ .refl) hincomplete hg hx,
            ← select_of_not_overlooks (hnone' _ .refl) hincomplete' hg' hy]
              at hvalues
          rcases cases_of_rel hvalues with ⟨hu, hv⟩ | ⟨u, v, hu, hv, huv⟩
          · rw [hu, hv]
            exact .ok ⟨rfl, rfl, hmirrors.solutions,
              hmirrors.backtrack.workspace.tally⟩
          · rw [hu, hv]
            exact branch_mirrored hb hP hsafe hsafe' hready hready'
              ⟨hincomplete, hg, x, hx, hu⟩
              ⟨hincomplete', hg', y, hy, hv⟩ huv h hnone hnone' ih

end Branching

/-! ## Strategies -/

namespace Algorithm

variable {σ : Type} {P : Int → Int → Prop} {b b' : Branching σ} {m k : Arena}
  {algorithm : Algorithm} {g : σ}

/-- The first calls at mirror images. -/
theorem Begins.matched (hb : b.Renamed P b') (hP : BiUnique P)
    (h : m.Matched (Variable.Mirrors P) k) {r r' : Call σ}
    (hr : Begins b m g algorithm r) (hr' : Begins b' k g algorithm r') :
    r'.depth = r.depth ∧ r.state = g ∧ r'.state = g ∧
      r.search.Matched P (Variable.Mirrors P) r'.search := by
  have hbegin :
      (Search.begin m).Matched P (Variable.Mirrors P) (Search.begin k) :=
    .begin h
  cases hr with
  | forwardChecking =>
      cases hr' with
      | forwardChecking =>
          exact ⟨(hbegin.renamed (.mirrors hP)).workspace.arena.depth hP, rfl,
            rfl, hbegin⟩
  | maintainArcConsistency hroot =>
      cases hr' with
      | maintainArcConsistency hroot' =>
          have hmatched :=
            (hbegin.propagateAll (.mirrors hP) hb.propagator _ _ hroot hroot').2
          exact ⟨(hmatched.renamed (.mirrors hP)).workspace.arena.depth hP, rfl,
            rfl, hmatched⟩

/-- **Exploring mirror images** finds mirror images, with the same counts and
the same state of the variable order, if no call of either overlooks a value. -/
theorem explore_mirrored (hb : b.Renamed P b')
    (horder : b.valueOrder.Carries P b'.valueOrder) (hsafe : b.selector.IsSafe)
    (hsafe' : b'.selector.IsSafe) (hm : m.IsFresh) (hk : k.IsFresh)
    (hnumbered : m.IsNumbered) (hnumbered' : k.IsNumbered)
    (hnet : b.propagator.network.Within m.size)
    (hnet' : b'.propagator.network.Within k.size)
    (h : m.Matched (Variable.Renamed P) k)
    (hnone : ∀ c, algorithm.Makes b m g c → ¬ b.Overlooks c)
    (hnone' : ∀ c, algorithm.Makes b' k g c → ¬ b'.Overlooks c) :
    Jointly (fun p q => p.1 = q.1 ∧
      List.Forall₂ (Solution.Renamed P) p.2.solutions.toList
        q.2.solutions.toList ∧
      q.2.tally = p.2.tally) (algorithm.explore b m g)
        (algorithm.explore b' k g) := by
  have hP := horder.biUnique
  have hmirrors : m.Matched (Variable.Mirrors P) k :=
    ⟨h.size, fun i x y hx hy =>
      { h.read i x y hx hy with
        calm := (hm i x hx).settled.calm
        calm' := (hk i y hy).settled.calm }⟩
  -- Propagation at the root fails for both or for neither.
  have hroots : Jointly (Same (Search.Matched P (Variable.Mirrors P)))
      ((Search.begin m).propagateAll b.propagator)
      ((Search.begin k).propagateAll b'.propagator) :=
    (Search.Matched.begin hmirrors).propagateAll (.mirrors hP) hb.propagator
  rintro ⟨g₁, s⟩ ⟨g₁', t⟩ hs ht
  cases explored_of_explore hs with
  | @searched _ r _ _ _ _ hbegins _ hsearch hend =>
      cases explored_of_explore ht with
      | @searched _ r' _ _ _ _ hbegins' _ hsearch' hend' =>
          obtain ⟨d, g₀, s₀⟩ := r
          obtain ⟨_, _, t₀⟩ := r'
          obtain ⟨rfl, rfl, rfl, hmatched⟩ :=
            hbegins.matched hb hP hmirrors hbegins'
          have hready := hbegins.ready hm hnumbered hnet
          have hready' := hbegins'.ready hk hnumbered' hnet'
          have hrenamed := hmatched.renamed (.mirrors hP)
          obtain ⟨_, hstate, hfound⟩ :=
            Branching.search_mirrored hb horder hsafe hsafe' m k _ _ _ _
              hrenamed hready hready' (fun c hc => hnone c ⟨_, hbegins, hc⟩)
              (fun c hc => hnone' c ⟨_, hbegins', hc⟩) _ _ hsearch hsearch'
          exact ⟨hstate, Branching.mirrored_of_account hend hend' hfound⟩
      | failed hroot' hend' =>
          cases hbegins with
          | maintainArcConsistency hroot => cases (hroots _ _ hroot hroot').1
  | failed hroot hend =>
      cases explored_of_explore ht with
      | searched hbegins' _ hsearch' hend' =>
          cases hbegins' with
          | maintainArcConsistency hroot' => cases (hroots _ _ hroot hroot').1
      | failed hroot' hend' =>
          have hmatched := (hroots _ _ hroot hroot').2
          exact ⟨rfl, Branching.mirrored_of_account hend hend'
            ⟨hmatched.solutions, hmatched.workspace.tally⟩⟩

end Algorithm

end ConstraintNet
