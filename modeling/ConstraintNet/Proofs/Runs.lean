import ConstraintNet.Proofs.Strategies
import ConstraintNet.Proofs.Tallies

/-!
# The course of a search

`Descends` tells what a search that succeeded did below a decision: whether it
went on at all, which of its five ends each call came to, and what it counted
and found on the way.  What holds of a whole search is proved by induction on
it, one case for each way in which a call ends.

The variables are not followed here: a decision is carried out at the arena that
the call was made with, and what undoes it counts and finds nothing.
-/

namespace ConstraintNet

namespace Branching

variable {σ : Type} {b : Branching σ}
  {below : σ → Search → Except Fault (Flow × σ × Search)} {d : Nat} {g g' : σ}
  {s r t : Search} {i : Nat} {v : Int} {entry : Checkpoint} {flow : Flow}
  {ok : Bool}

/-- What the search makes of a call below a decision.  The flag tells whether
propagation let the decision stand; if it did not, there is a backtrack and no
search. -/
inductive Descends (b : Branching σ) : Bool → Call σ → Flow → σ → Search → Prop
  /-- The decision did not stand. -/
  | failed {d : Nat} {g : σ} {s : Search} :
      Descends b false ⟨d, g, s⟩ .goOn g s.backtrack
  /-- All variables have values. -/
  | recorded {d : Nat} {g : σ} {s t : Search} {flow : Flow}
      (hcomplete : s.node.arena.isComplete)
      (hrecord : s.node.record b.propagator.network b.limit = .ok (flow, t)) :
      Descends b true ⟨d + 1, g, s⟩ flow g t
  /-- The variable order names no variable. -/
  | unnamed {d : Nat} {g g' : σ} {s : Search}
      (hincomplete : s.node.arena.isComplete = false)
      (hselect : b.selector s.node.arena b.propagator.network g = (none, g')) :
      Descends b true ⟨d + 1, g, s⟩ .goOn g' s.node
  /-- The value order names no value. -/
  | exhausted {d : Nat} {g g' : σ} {s : Search} {i : Nat} {x : Variable}
      (hincomplete : s.node.arena.isComplete = false)
      (hselect : b.selector s.node.arena b.propagator.network g = (some i, g'))
      (hx : s.node.arena.read i = .ok x)
      (hvalue : b.valueOrder.select x = none) :
      Descends b true ⟨d + 1, g, s⟩ .goOn g' s.node.backtrack
  /-- The left branch met the limit. -/
  | stopped {d : Nat} {g g' g₁ : σ} {s s₁ t₁ r t : Search} {i : Nat} {v : Int}
      {ok : Bool}
      (hpicks : b.Picks ⟨d + 1, g, s⟩ i v g')
      (haccept : b.accept i v s.node = .ok (ok, s₁))
      (hbelow : Descends b ok ⟨d, g', s₁⟩ .stop g₁ t₁)
      (hleft : b.left (b.search d) i v g' s.node.trail.checkpoint s.node =
        .ok (.stop, g₁, r))
      (hend : t.account = t₁.account) : Descends b true ⟨d + 1, g, s⟩ .stop g₁ t
  /-- The left branch went on, and so the right one was searched too. -/
  | both {d : Nat} {g g' g₁ g₂ : σ} {s s₁ t₁ r s₂ t₂ t : Search}
      {i : Nat} {v : Int} {ok₁ ok₂ : Bool} {flow : Flow}
      (hpicks : b.Picks ⟨d + 1, g, s⟩ i v g')
      (haccept : b.accept i v s.node = .ok (ok₁, s₁))
      (hbelow₁ : Descends b ok₁ ⟨d, g', s₁⟩ .goOn g₁ t₁)
      (hleft : b.left (b.search d) i v g' s.node.trail.checkpoint s.node =
        .ok (.goOn, g₁, r))
      (hbetween : r.account = t₁.account)
      (hrefute : b.refute i v r = .ok (ok₂, s₂))
      (hbelow₂ : Descends b ok₂ ⟨d, g₁, s₂⟩ flow g₂ t₂)
      (hend : t.account = t₂.account) :
      Descends b true ⟨d + 1, g, s⟩ flow g₂ t

/-! ## From the equations of a search -/

/-- What the left branch came through. -/
theorem of_left_eq_ok (h : b.left below i v g entry s = .ok (flow, g', r)) :
    ∃ ok s₁ t₁, b.accept i v s = .ok (ok, s₁) ∧
      descend below g ok s₁ = .ok (flow, g', t₁) ∧
      r.account = t₁.account := by
  rw [left_eq] at h
  obtain ⟨⟨ok, s₁⟩, haccept, h⟩ := of_bind_eq_ok h
  obtain ⟨⟨flow, g', t₁⟩, hdescend, h⟩ := of_bind_eq_ok h
  obtain ⟨t₂, hrewind, h⟩ := of_bind_eq_ok h
  obtain ⟨t₃, hunassign, h⟩ := of_bind_eq_ok h
  cases h
  exact ⟨ok, s₁, t₁, haccept, hdescend,
    (Search.account_unassign hunassign).trans (Search.account_rewind hrewind)⟩

/-- What the right branch came through. -/
theorem of_right_eq_ok (h : b.right below i v g entry s = .ok (flow, g', r)) :
    ∃ ok s₁ t₁, b.refute i v s = .ok (ok, s₁) ∧
      descend below g ok s₁ = .ok (flow, g', t₁) ∧
      r.account = t₁.account := by
  obtain ⟨⟨ok, s₁⟩, hrefute, h⟩ := of_bind_eq_ok h
  obtain ⟨⟨flow, g', t₁⟩, hdescend, h⟩ := of_bind_eq_ok h
  obtain ⟨t₂, hrewind, h⟩ := of_bind_eq_ok h
  cases h
  exact ⟨ok, s₁, t₁, hrefute, hdescend, Search.account_rewind hrewind⟩

/-- How a node that branches ends. -/
theorem of_retire {flow₁ : Flow} {g₁ : σ}
    (h : (do
      let s ← r.retire i
      if s.trail.checkpoint = entry then return (flow₁, g₁, s)
      else throw (.unbalanced i entry s.trail.checkpoint)) =
        Except.ok (flow, g', t)) :
    (flow = flow₁ ∧ g' = g₁) ∧ t.account = r.account := by
  obtain ⟨r', hretire, h⟩ := of_bind_eq_ok h
  split at h
  · cases h
    exact ⟨⟨rfl, rfl⟩, Search.account_retire hretire⟩
  · cases h

/-- What a node that branches came through. -/
theorem of_branch_eq_ok (h : b.branch below i v g entry s = .ok (flow, g', t)) :
    (flow = .stop ∧ ∃ r, b.left below i v g entry s = .ok (.stop, g', r) ∧
      t.account = r.account) ∨
    ∃ g₁ r r', b.left below i v g entry s = .ok (.goOn, g₁, r) ∧
      b.right below i v g₁ r.trail.checkpoint r = .ok (flow, g', r') ∧
      t.account = r'.account := by
  obtain ⟨⟨flow₁, g₁, r⟩, hleft, h⟩ := of_bind_eq_ok h
  cases flow₁ with
  | stop =>
      obtain ⟨p, hp, h⟩ := of_bind_eq_ok h
      cases hp
      obtain ⟨⟨rfl, rfl⟩, hend⟩ := of_retire h
      exact .inl ⟨rfl, r, hleft, hend⟩
  | goOn =>
      obtain ⟨⟨flow₂, g₂, r'⟩, hright, h⟩ := of_bind_eq_ok h
      obtain ⟨⟨rfl, rfl⟩, hend⟩ := of_retire h
      exact .inr ⟨g₁, r, r', hleft, hright, hend⟩

/-- The course of a node that branches, from those of its branches. -/
theorem descends_of_picks (hpicks : b.Picks ⟨d + 1, g, s⟩ i v g')
    (ih : ∀ {g ok s flow g' t},
      descend (b.search d) g ok s = .ok (flow, g', t) →
      b.Descends ok ⟨d, g, s⟩ flow g' t)
    {g₂ : σ}
    (h : b.branch (b.search d) i v g' s.node.trail.checkpoint s.node =
      .ok (flow, g₂, t)) : b.Descends true ⟨d + 1, g, s⟩ flow g₂ t := by
  rcases of_branch_eq_ok h with
    ⟨rfl, r, hleft, hend⟩ | ⟨g₁, r, r', hleft, hright, hend⟩
  · obtain ⟨ok, s₁, t₁, haccept, hdescend, hreturn⟩ := of_left_eq_ok hleft
    exact .stopped hpicks haccept (ih hdescend) hleft (hend.trans hreturn)
  · obtain ⟨ok₁, s₁, t₁, haccept, hdescend₁, hbetween⟩ := of_left_eq_ok hleft
    obtain ⟨ok₂, s₂, t₂, hrefute, hdescend₂, hreturn⟩ := of_right_eq_ok hright
    exact .both hpicks haccept (ih hdescend₁) hleft hbetween hrefute
      (ih hdescend₂) (hend.trans hreturn)

/-- The ways in which a call ends. -/
inductive Ends (b : Branching σ) (d : Nat) (g : σ) (s : Search) : Flow → σ →
    Search → Prop
  | recorded {t : Search} {flow : Flow} (hcomplete : s.node.arena.isComplete)
      (hrecord : s.node.record b.propagator.network b.limit = .ok (flow, t)) :
        Ends b d g s flow g t
  | unnamed {g' : σ} (hincomplete : s.node.arena.isComplete = false)
      (hselect : b.selector s.node.arena b.propagator.network g = (none, g')) :
      Ends b d g s .goOn g' s.node
  | exhausted {g' : σ} {i : Nat} {x : Variable}
      (hincomplete : s.node.arena.isComplete = false)
      (hselect : b.selector s.node.arena b.propagator.network g = (some i, g'))
      (hx : s.node.arena.read i = .ok x)
      (hvalue : b.valueOrder.select x = none) :
      Ends b d g s .goOn g' s.node.backtrack
  | branched {g' g₁ : σ} {t : Search} {i : Nat} {v : Int} {flow : Flow}
      (hpicks : b.Picks ⟨d + 1, g, s⟩ i v g')
      (hbranch : b.branch (b.search d) i v g' s.node.trail.checkpoint s.node =
        .ok (flow, g₁, t)) :
      Ends b d g s flow g₁ t

/-- **Every call that succeeds ends in one of these ways.** -/
theorem ends_of_search (h : b.search (d + 1) g s = .ok (flow, g', t)) :
    b.Ends d g s flow g' t := by
  cases hcomplete : s.node.arena.isComplete with
  | true =>
      simp only [search, hcomplete, if_true] at h
      obtain ⟨⟨flow, t⟩, hrecord, h⟩ := of_bind_eq_ok h
      cases h
      exact .recorded hcomplete hrecord
  | false =>
      cases hselect : b.selector s.node.arena b.propagator.network g with
      | mk index g₀ =>
          cases index with
          | none =>
              rw [search_of_none hcomplete hselect] at h
              cases h
              exact .unnamed hcomplete hselect
          | some i =>
              simp only [search, hcomplete, hselect] at h
              obtain ⟨x, hx, h⟩ := of_bind_eq_ok h
              cases hvalue : b.valueOrder.select x with
              | none =>
                  simp only [hvalue] at h
                  cases h
                  exact .exhausted hcomplete hselect hx hvalue
              | some v =>
                  simp only [hvalue] at h
                  exact .branched ⟨hcomplete, hselect, x, hx, hvalue⟩ h

/-- **Every search that succeeds took such a course.** -/
theorem descends_of_descend :
    ∀ {d : Nat} {g : σ} {ok : Bool} {s : Search} {flow : Flow} {g' : σ}
    {t : Search}, descend (b.search d) g ok s = .ok (flow, g', t) →
      b.Descends ok ⟨d, g, s⟩ flow g' t := by
  intro d
  induction d with
  | zero =>
      intro g ok s flow g' t h
      cases ok with
      | false =>
          cases h
          exact .failed
      | true => cases h
  | succ d ih =>
      intro g ok s flow g' t h
      cases ok with
      | false =>
          cases h
          exact .failed
      | true =>
          have hsearch : b.search (d + 1) g s = .ok (flow, g', t) := h
          cases ends_of_search hsearch with
          | recorded hcomplete hrecord => exact .recorded hcomplete hrecord
          | unnamed hincomplete hselect => exact .unnamed hincomplete hselect
          | exhausted hincomplete hselect hx hvalue =>
              exact .exhausted hincomplete hselect hx hvalue
          | branched hpicks hbranch => exact descends_of_picks hpicks ih hbranch

/-- A search that comes to an end is a descent that stands. -/
theorem descends_of_search (h : b.search d g s = .ok (flow, g', t)) :
    b.Descends true ⟨d, g, s⟩ flow g' t :=
  descends_of_descend h

end Branching

/-! ## Meeting the limit -/

/-- Whether so many solutions make a search stop. -/
def Limit.IsMet (limit : Limit) (found : Nat) : Prop :=
  0 < found ∧ limit.isReached found

namespace Limit

instance (limit : Limit) (found : Nat) : Decidable (limit.IsMet found) :=
  inferInstanceAs (Decidable (_ ∧ _))

/-- No limit is met by no solutions: a search that finds none never stops. -/
theorem not_isMet_zero (limit : Limit) : ¬ limit.IsMet 0 :=
  fun h => Nat.lt_irrefl 0 h.1

/-- How a search ends that has found so many solutions: it stopped just if the
limit is met now, and it was not before the last one. -/
structure Obeyed (limit : Limit) (flow : Flow) (found : Nat) : Prop where
  stops_iff : flow = .stop ↔ limit.IsMet found
  least : flow = .stop → ¬ limit.IsMet (found - 1)

/-- A search that goes on obeys a limit that is not met. -/
theorem Obeyed.of_not_isMet {limit : Limit} {found : Nat}
    (h : ¬ limit.IsMet found) : limit.Obeyed .goOn found :=
  ⟨⟨fun hflow => (nomatch hflow), fun hmet => absurd hmet h⟩,
    fun hflow => (nomatch hflow)⟩

/-- A search that goes on and obeys its limit has not met it. -/
theorem Obeyed.not_isMet {limit : Limit} {found : Nat}
    (h : limit.Obeyed .goOn found) : ¬ limit.IsMet found :=
  fun hmet => Flow.noConfusion (h.stops_iff.mpr hmet)

end Limit

/-- What recording a solution does. -/
theorem Search.of_record_eq_ok {s t : Search} {net : Network} {limit : Limit}
    {flow : Flow} (h : s.record net limit = .ok (flow, t)) :
    t.toWorkspace = s.toWorkspace ∧
      (∃ sol, t.solutions = s.solutions.push sol) ∧
      flow = if limit.isReached t.solutions.size then .stop else .goOn := by
  simp only [record] at h
  split at h
  · cases h
  · split at h
    · cases h
      exact ⟨rfl, ⟨_, rfl⟩, rfl⟩
    · cases h

/-- **A search stops just when it meets its limit.** -/
theorem Branching.Descends.meets {σ : Type} {b : Branching σ} {c : Call σ}
    {g : σ} {t : Search} {ok : Bool} {flow : Flow}
    (h : b.Descends ok c flow g t)
    (hc : ¬ b.limit.IsMet c.search.solutions.size) :
    b.limit.Obeyed flow t.solutions.size := by
  induction h with
  | failed => exact .of_not_isMet hc
  | @recorded _ _ s t _ _ hrecord =>
      obtain ⟨_, ⟨sol, hsolutions⟩, rfl⟩ := Search.of_record_eq_ok hrecord
      have hsize : t.solutions.size = s.solutions.size + 1 := by
        rw [hsolutions]
        exact Array.size_push sol
      rw [hsize]
      split
      · rename_i hreached
        exact ⟨iff_of_true rfl ⟨Nat.succ_pos _, hreached⟩, fun _ => hc⟩
      · rename_i hreached
        exact .of_not_isMet fun hmet => hreached hmet.2
  | unnamed => exact .of_not_isMet hc
  | exhausted => exact .of_not_isMet hc
  | stopped _ haccept _ _ hend ih =>
      rw [Search.solutions_of_account hend]
      refine ih ?_
      rw [(draws_accept haccept).solutions]
      exact hc
  | both _ haccept _ _ hbetween hrefute _ hend ih₁ ih₂ =>
      rw [Search.solutions_of_account hend]
      refine ih₂ ?_
      rw [(draws_refute hrefute).solutions,
        Search.solutions_of_account hbetween]
      refine (ih₁ ?_).not_isMet
      rw [(draws_accept haccept).solutions]
      exact hc

/-! ## From the root -/

namespace Algorithm

variable {σ : Type} {algorithm : Algorithm} {b : Branching σ} {m : Arena}
  {g g' : σ} {s : Search}

/-- What a strategy did: a search from its first call, or nothing after
propagation failed at the root. -/
inductive Explored (b : Branching σ) (m : Arena) (g : σ) : Algorithm → σ →
    Search → Prop
  | searched {algorithm : Algorithm} {r : Call σ} {flow : Flow} {g' : σ}
      {s t : Search}
      (hbegins : Begins b m g algorithm r)
      (hdraws : (Search.begin m).Draws r.search)
      (hsearch : b.search r.depth r.state r.search = .ok (flow, g', t))
      (hend : s.account = t.account) : Explored b m g algorithm g' s
  | failed {s t : Search} (hroot :
      (Search.begin m).propagateAll b.propagator = .ok (false, t))
      (hend : s.account = t.account) :
        Explored b m g .maintainArcConsistency g s

/-- Propagation that fails at the root counts a wipeout, and nothing else. -/
theorem counts_of_propagateAll {t : Search}
    (h : (Search.begin m).propagateAll b.propagator = .ok (false, t)) :
    t.solutions = #[] ∧ t.tally.nodes = 0 ∧ t.tally.backtracks = 0 ∧
    t.tally.wipeouts = 1 := by
  have hdraws := Search.draws_propagate h
  exact ⟨hdraws.solutions, hdraws.drawn.nodes, hdraws.drawn.backtracks,
    Search.wipeouts_propagate h⟩

/-- What a search from the root came through. -/
theorem of_fromRoot_eq_ok {t : Search} (h : fromRoot b g s = .ok (g', t)) :
    ∃ flow, b.search s.arena.depth g s = .ok (flow, g', t) := by
  obtain ⟨⟨flow, g', t⟩, hsearch, heq⟩ := of_map_eq_ok h
  cases heq
  exact ⟨flow, hsearch⟩

/-- **Every exploration that succeeds** is one or the other. -/
theorem explored_of_explore (h : algorithm.explore b m g = .ok (g', s)) :
    Explored b m g algorithm g' s := by
  cases algorithm with
  | forwardChecking =>
      obtain ⟨flow, hsearch⟩ := of_fromRoot_eq_ok h
      exact .searched .forwardChecking (.refl _) hsearch rfl
  | maintainArcConsistency =>
      obtain ⟨⟨ok, s₁⟩, hroot, h⟩ := of_bind_eq_ok h
      cases ok with
      | true =>
          obtain ⟨⟨g₁, t⟩, hroot', h⟩ := of_bind_eq_ok h
          obtain ⟨s', hrewind, h⟩ := of_bind_eq_ok h
          cases h
          obtain ⟨flow, hsearch⟩ := of_fromRoot_eq_ok hroot'
          exact .searched (.maintainArcConsistency hroot)
            (Search.draws_propagate hroot) hsearch
            (Search.account_rewind hrewind)
      | false =>
          obtain ⟨p, hp, h⟩ := of_bind_eq_ok h
          cases hp
          obtain ⟨s', hrewind, h⟩ := of_bind_eq_ok h
          cases h
          exact .failed hroot (Search.account_rewind hrewind)

end Algorithm

end ConstraintNet
