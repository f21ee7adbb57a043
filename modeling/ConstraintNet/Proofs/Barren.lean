import ConstraintNet.Proofs.Entry
import ConstraintNet.Proofs.Runs

/-!
# Searches that find nothing

A call is barren if it admits no assignment that holds on the network.  All
calls below it are so too, and none of them has all its values, so that the
search goes through them, backtracks at least once and comes back with nothing.

A call that overlooks no value does not end for want of one.  It records a
solution or branches.
-/

namespace ConstraintNet

/-! ## Wasted time -/

namespace Search

variable {s s' t t' u : Search} {flow flow' : Flow}

/-- The search found nothing on its way from `s` to `t`, and backtracked. -/
structure Wasted (s : Search) (flow : Flow) (t : Search) : Prop where
  flow : flow = .goOn
  solutions : t.solutions = s.solutions
  nodes : s.tally.nodes ≤ t.tally.nodes
  backtracks : s.tally.backtracks < t.tally.backtracks

theorem wasted_backtrack (s : Search) : s.Wasted .goOn s.backtrack :=
  ⟨rfl, rfl, Nat.le_refl _, Nat.lt_succ_self _⟩

theorem Wasted.node (h : s.node.Wasted flow t) : s.Wasted flow t :=
  ⟨h.flow, h.solutions, Nat.le_of_succ_le h.nodes, h.backtracks⟩

/-- What is wasted stays so with the moves around a branch, before it and after
it. -/
theorem Wasted.draws (h : s.Wasted flow t) (hs : s'.Draws s) (ht : t.Draws t') :
    s'.Wasted flow t' where
  flow := h.flow
  solutions := ht.solutions.trans (h.solutions.trans hs.solutions)
  nodes := hs.drawn.nodes ▸ ht.drawn.nodes ▸ h.nodes
  backtracks := hs.drawn.backtracks ▸ ht.drawn.backtracks ▸ h.backtracks

theorem Wasted.trans (h : s.Wasted flow t) (h' : t.Wasted flow' u) :
    s.Wasted flow' u where
  flow := h'.flow
  solutions := h'.solutions.trans h.solutions
  nodes := Nat.le_trans h.nodes h'.nodes
  backtracks := Nat.lt_trans h.backtracks h'.backtracks

end Search

namespace Branching

variable {σ : Type} {b : Branching σ} {m : Arena} {c c' : Call σ} {d : Decision}
  {ok : Bool} {flow : Flow} {g : σ} {t : Search}

/-- The call admits no assignment that holds on the network. -/
def Barren (b : Branching σ) (c : Call σ) : Prop :=
  ∀ τ, b.propagator.network.Holds τ → ¬ c.search.arena.Admits τ

/-- Decisions only take assignments away, and what stands below a barren call is
barren. -/
theorem Explores.barren (h : b.Explores c d true c') (hsafe : b.selector.IsSafe)
    (hc : b.Ready m c) (hbarren : b.Barren c) : b.Barren c' :=
  fun τ hτ hadmits =>
    hbarren τ hτ (((h.decided hsafe hc).admits rfl τ hτ).mp hadmits).1

/-- **A search among calls without solution** goes through them all, backtracks
and finds nothing. -/
theorem Descends.wasted (h : b.Descends ok c flow g t)
    (hlegal : b.selector.IsLegal) (hc : ok = true → b.Ready m c ∧ b.Barren c) :
    c.search.Wasted flow t := by
  have hsafe : b.selector.IsSafe := hlegal.isSafe
  have hbelow : ∀ {c c' : Call σ} {d : Decision} {ok : Bool},
      b.Explores c d ok c' →
      b.Ready m c ∧ b.Barren c → ok = true → b.Ready m c' ∧ b.Barren c' := by
    rintro c c' d ok hexplores ⟨hready, hbarren⟩ rfl
    exact ⟨hexplores.ready hsafe hready rfl,
      hexplores.barren hsafe hready hbarren⟩
  induction h with
  | failed => exact Search.wasted_backtrack _
  | @recorded _ _ s _ _ hcomplete _ =>
      obtain ⟨hready, hbarren⟩ := hc rfl
      have hs : s.node.Sound b.propagator.network := hready.sound.node
      obtain ⟨τ, _, hholds, hadmits, _⟩ := exists_assignment hs hcomplete
      exact absurd hadmits (hbarren τ hholds)
  | unnamed hincomplete hselect =>
      exact absurd hselect
        (hlegal.ne_none (hc rfl).1.sound.orderly.numbered hincomplete)
  | exhausted => exact (Search.wasted_backtrack _).node
  | stopped hpicks haccept _ _ _ ih =>
      have hwasted := ih (hbelow (.left hpicks haccept) (hc rfl))
      cases hwasted.flow
  | both hpicks haccept _ hleft hbetween hrefute _ hend ih₁ ih₂ =>
      have hwasted₁ := ih₁ (hbelow (.left hpicks haccept) (hc rfl))
      have hwasted₂ := ih₂ (hbelow (.right hpicks hleft hrefute) (hc rfl))
      have hright :=
        (Search.draws_of_account hbetween).trans (draws_refute hrefute)
      apply Search.Wasted.node
      exact (hwasted₁.draws (draws_accept haccept) hright).trans
        (hwasted₂.draws (.refl _) (Search.draws_of_account hend))

/-! ## Calls where nothing is overlooked -/

/-- No call below overlooks a value, nor the call itself. -/
def Attentive (b : Branching σ) (c : Call σ) : Prop :=
  ∀ c', b.Reaches c c' → ¬ b.Overlooks c'

/-- A call that is entered from an attentive one is attentive. -/
theorem Attentive.below (h : b.Attentive c)
    (hexplores : b.Explores c d true c') : b.Attentive c' := fun c'' hreaches =>
  h c'' (Relation.ReflTransGen.head (enters_iff.mpr ⟨d, hexplores⟩) hreaches)

/-- How a call goes on that branches. -/
inductive Forks (b : Branching σ) : Call σ → Nat → Int → Flow → Search → Prop
  | stopped {d : Nat} {g g' g₁ : σ} {s s₁ t₁ r t : Search} {i : Nat} {v : Int}
      {ok : Bool}
      (hpicks : b.Picks ⟨d + 1, g, s⟩ i v g')
      (haccept : b.accept i v s.node = .ok (ok, s₁))
      (hbelow : b.Descends ok ⟨d, g', s₁⟩ .stop g₁ t₁)
      (hleft : b.left (b.search d) i v g' s.node.trail.checkpoint s.node =
        .ok (.stop, g₁, r))
      (hend : t.account = t₁.account) : Forks b ⟨d + 1, g, s⟩ i v .stop t
  | both {d : Nat} {g g' g₁ g₂ : σ} {s s₁ t₁ r s₂ t₂ t : Search}
      {i : Nat} {v : Int} {ok₁ ok₂ : Bool} {flow : Flow}
      (hpicks : b.Picks ⟨d + 1, g, s⟩ i v g')
      (haccept : b.accept i v s.node = .ok (ok₁, s₁))
      (hbelow₁ : b.Descends ok₁ ⟨d, g', s₁⟩ .goOn g₁ t₁)
      (hleft : b.left (b.search d) i v g' s.node.trail.checkpoint s.node =
        .ok (.goOn, g₁, r))
      (hbetween : r.account = t₁.account)
      (hrefute : b.refute i v r = .ok (ok₂, s₂))
      (hbelow₂ : b.Descends ok₂ ⟨d, g₁, s₂⟩ flow g₂ t₂)
      (hend : t.account = t₂.account) :
      Forks b ⟨d + 1, g, s⟩ i v flow t

/-- **A call that overlooks nothing branches**, if variables without a value are
left. -/
theorem Descends.forks (h : b.Descends true c flow g t)
    (hlegal : b.selector.IsLegal) (hc : b.Ready m c)
    (hwhole : c.search.arena.Whole) (hattentive : b.Attentive c)
    (hincomplete : c.search.arena.isComplete = false) :
    ∃ i v, b.Forks c i v flow t := by
  cases h with
  | @recorded _ _ s _ _ hcomplete _ =>
      have hboth : s.arena.isComplete = true := hcomplete
      rw [hboth] at hincomplete
      cases hincomplete
  | unnamed hincomplete hselect =>
      exact absurd hselect
        (hlegal.ne_none hc.sound.orderly.numbered hincomplete)
  | exhausted hincomplete hselect hx hvalue =>
      have hdry : b.RunsDry _ := ⟨hincomplete, _, _, _, hselect, hx, hvalue⟩
      exact absurd (hdry.overlooks hlegal.isSafe hc hwhole) (hattentive _ .refl)
  | stopped hpicks haccept hbelow hleft hend =>
      exact ⟨_, _, .stopped hpicks haccept hbelow hleft hend⟩
  | both hpicks haccept hbelow₁ hleft hbetween hrefute hbelow₂ hend =>
      exact ⟨_, _,
        .both hpicks haccept hbelow₁ hleft hbetween hrefute hbelow₂ hend⟩

/-- A call that forks has picked its variable and its value. -/
theorem Forks.picks {i : Nat} {v : Int} (h : b.Forks c i v flow t) :
    ∃ g, b.Picks c i v g := by
  cases h with
  | stopped hpicks => exact ⟨_, hpicks⟩
  | both hpicks => exact ⟨_, hpicks⟩

/-- **One of the branches stands** if the call admits an assignment that holds
on the network. The assignment goes with one of the two decisions, so that
propagation fails on one at most. -/
theorem Forks.exists_explores {i : Nat} {v : Int} {τ : Nat → Int}
    (h : b.Forks c i v flow t) (hsafe : b.selector.IsSafe) (hc : b.Ready m c)
    (hτ : b.propagator.network.Holds τ) (hadmits : c.search.arena.Admits τ) :
    ∃ d c', b.Explores c d true c' := by
  have hstands : ∀ {d ok c'}, b.Explores c d ok c' →
      (∃ d c', b.Explores c d true c') ∨ ¬ d.Allows d.index (τ d.index) := by
    intro d ok c' hexplores
    cases ok with
    | true => exact .inl ⟨d, c', hexplores⟩
    | false => exact .inr ((hexplores.decided hsafe hc).failed rfl τ hτ hadmits)
  cases h with
  | @stopped _ _ _ _ _ _ _ _ _ _ _ ok hpicks haccept hbelow =>
      cases ok with
      | true => exact ⟨_, _, .left hpicks haccept⟩
      | false => cases hbelow
  | both hpicks haccept _ hleft _ hrefute =>
      obtain hfound | haccepted := hstands (.left hpicks haccept)
      · exact hfound
      · obtain hfound | hrefuted := hstands (.right hpicks hleft hrefute)
        · exact hfound
        · exact absurd (fun _ hv => haccepted fun _ => hv) hrefuted

/-- A call whose variables all have values records them. -/
theorem Descends.records (h : b.Descends true c flow g t)
    (hcomplete : c.search.arena.isComplete) :
    c.search.node.record b.propagator.network b.limit = .ok (flow, t) := by
  cases h with
  | recorded _ hrecord => exact hrecord
  | unnamed hincomplete =>
      have := hincomplete.symm.trans hcomplete
      cases this
  | exhausted hincomplete =>
      have := hincomplete.symm.trans hcomplete
      cases this
  | stopped hpicks =>
      exact absurd hpicks (not_picks_of_isComplete hcomplete _ _ _)
  | both hpicks => exact absurd hpicks (not_picks_of_isComplete hcomplete _ _ _)

end Branching

end ConstraintNet
