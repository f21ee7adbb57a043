import ConstraintNet.Proofs.Runs

/-!
# What a limit does to a run

A limit only truncates the run.  Until it is met a search does just what it
would do without limit, down to the last variable; once it is met, the search
undoes its decisions and does nothing else.  So what it has found and counted by
then is what the search without limit has found and counted at that moment, and
that one only goes on to find and to count more.
-/

namespace ConstraintNet

/-- What a limit leaves of the list of all solutions. -/
def Limit.cut {α : Type} : Limit → List α → List α
  | .first, l => l.take 1
  | .atMost count, l => l.take (max count 1)
  | .all, l => l

/-- A beginning of a list at which a search would stop is what the limit leaves
of the list, and so is the whole of it if the search would not stop. -/
theorem Limit.eq_cut_of_obeyed {α : Type} {limit : Limit} {flow : Flow}
    {l all : List α} (h : limit.Obeyed flow l.length) (hstarts : l <+: all)
    (hgoes : flow = .goOn → l = all) : l = limit.cut all := by
  have htake : l = all.take l.length := List.prefix_iff_eq_take.mp hstarts
  cases flow with
  | goOn =>
      obtain rfl := hgoes rfl
      have hnot := h.not_isMet
      cases limit with
      | first =>
          have hlength : l.length ≤ 1 := by
            simp only [IsMet, isReached, decide_eq_true_eq] at hnot
            omega
          exact (List.take_of_length_le hlength).symm
      | atMost count =>
          have hlength : l.length ≤ max count 1 := by
            simp only [IsMet, isReached, decide_eq_true_eq] at hnot
            omega
          exact (List.take_of_length_le hlength).symm
      | all => rfl
  | stop =>
      have hmet := h.stops_iff.mp rfl
      have hleast := h.least rfl
      cases limit with
      | first =>
          have hlength : l.length = 1 := by
            simp only [IsMet, isReached, decide_eq_true_eq] at hmet hleast
            omega
          rw [cut, ← hlength, ← htake]
      | atMost count =>
          have hlength : l.length = max count 1 := by
            simp only [IsMet, isReached, decide_eq_true_eq] at hmet hleast
            omega
          rw [cut, ← hlength, ← htake]
      | all => exact absurd hmet.2 Bool.false_ne_true

/-! ## More is only found and counted -/

/-- What was found is there still, and no count is less. -/
structure Search.Grows (s t : Search) : Prop where
  found : s.solutions.toList <+: t.solutions.toList
  counted : s.tally.Le t.tally

namespace Search

variable {s t u : Search}

/-- What leaves the account alone lets nothing shrink, neither the solutions nor
a count. -/
theorem Grows.of_account (h : t.account = s.account) : s.Grows t :=
  ⟨(solutions_of_account h) ▸ List.prefix_rfl, (tally_of_account h) ▸ .refl _⟩

theorem Grows.trans (h : s.Grows t) (h' : t.Grows u) : s.Grows u :=
  ⟨h.found.trans h'.found, h.counted.trans h'.counted⟩

/-- Propagation counts revisions and prunes and finds nothing. -/
theorem Draws.grows (h : s.Draws t) : s.Grows t :=
  ⟨h.solutions ▸ List.prefix_rfl, h.drawn.le⟩

theorem grows_node (s : Search) : s.Grows s.node :=
  ⟨List.prefix_rfl, s.tally.le_node⟩

theorem grows_backtrack (s : Search) : s.Grows s.backtrack :=
  ⟨List.prefix_rfl, s.tally.le_backtrack⟩

/-- A solution is put behind those that were found before. -/
theorem grows_record {net : Network} {limit : Limit} {flow : Flow}
    (h : s.record net limit = .ok (flow, t)) : s.Grows t := by
  obtain ⟨hworkspace, ⟨sol, hsolutions⟩, _⟩ := of_record_eq_ok h
  refine ⟨?_, hworkspace ▸ .refl _⟩
  rw [hsolutions, Array.toList_push]
  exact List.prefix_append _ _

/-- Without limit the same is recorded. -/
theorem record_all {net : Network} {limit : Limit} {flow : Flow}
    (h : s.record net limit = .ok (flow, t)) :
    s.record net .all = .ok (.goOn, t) := by
  simp only [record] at h ⊢
  split at h
  · cases h
  · split at h
    · rename_i hsatisfies
      cases h
      rw [if_pos hsatisfies]
      rfl
    · cases h

end Search

namespace Branching

variable {σ : Type} {b : Branching σ} {c : Call σ} {g g' : σ} {s t t' : Search}
  {ok : Bool} {flow flow' : Flow} {d : Nat} {i : Nat} {v : Int}
  {entry : Checkpoint}

/-- **A search takes nothing back** of what it has found and counted. -/
theorem Descends.grows (h : b.Descends ok c flow g t) : c.search.Grows t := by
  induction h with
  | @failed _ _ s => exact s.grows_backtrack
  | @recorded _ _ s _ _ _ hrecord =>
      exact s.grows_node.trans (Search.grows_record hrecord)
  | @unnamed _ _ _ s => exact s.grows_node
  | @exhausted _ _ _ s => exact s.grows_node.trans s.node.grows_backtrack
  | @stopped _ _ _ _ s _ _ _ _ _ _ _ _ haccept _ _ hend ih =>
      have hbelow := (draws_accept haccept).grows.trans ih
      exact (s.grows_node.trans hbelow).trans (.of_account hend)
  | @both _ _ _ _ _ s _ _ _ _ _ _ _ _ _ _ _ _ haccept _ _ hbetween hrefute
      _ hend ih₁ ih₂ =>
      have hbelow₁ :=
        ((draws_accept haccept).grows.trans ih₁).trans (.of_account hbetween)
      have hbelow₂ :=
        ((draws_refute hrefute).grows.trans ih₂).trans (.of_account hend)
      exact (s.grows_node.trans hbelow₁).trans hbelow₂

/-! ## Until the limit is met -/

/-- The same search without limit. -/
def unlimited (b : Branching σ) : Branching σ := { b with limit := .all }

/-- Where the one search goes on, the other does just the same. -/
def Follows (below below' : σ → Search → Except Fault (Flow × σ × Search)) :
    Prop :=
  ∀ g s g' t, below g s = .ok (.goOn, g', t) → below' g s = .ok (.goOn, g', t)

variable {below below' : σ → Search → Except Fault (Flow × σ × Search)}

/-- A descent that goes on is one without limit, whether it searches below or
counts a backtrack. -/
theorem Follows.descend (hbelow : Follows below below')
    (h : descend below g ok s = .ok (.goOn, g', t)) :
    Branching.descend below' g ok s = .ok (.goOn, g', t) := by
  cases ok with
  | true => exact hbelow g s g' t h
  | false => exact h

/-- A left branch that goes on is that without limit: acceptance, rewinding and
unassigning do not look at the limit. -/
theorem Follows.left (hbelow : Follows below below')
    (h : b.left below i v g entry s = .ok (.goOn, g', t)) :
    b.unlimited.left below' i v g entry s = .ok (.goOn, g', t) := by
  rw [left_eq] at h ⊢
  obtain ⟨⟨ok, s₁⟩, haccept, h⟩ := of_bind_eq_ok h
  obtain ⟨⟨flow, g₁, t₁⟩, hdescend, h⟩ := of_bind_eq_ok h
  obtain ⟨t₂, hrewind, h⟩ := of_bind_eq_ok h
  obtain ⟨t₃, hunassign, h⟩ := of_bind_eq_ok h
  cases h
  have haccept' : b.unlimited.accept i v s = .ok (ok, s₁) := haccept
  simp only [haccept', hbelow.descend hdescend, hrewind, hunassign, bind,
    Except.bind, pure, Except.pure]

/-- So is a right branch. -/
theorem Follows.right (hbelow : Follows below below')
    (h : b.right below i v g entry s = .ok (.goOn, g', t)) :
    b.unlimited.right below' i v g entry s = .ok (.goOn, g', t) := by
  obtain ⟨⟨ok, s₁⟩, hrefute, h⟩ := of_bind_eq_ok h
  obtain ⟨⟨flow, g₁, t₁⟩, hdescend, h⟩ := of_bind_eq_ok h
  obtain ⟨t₂, hrewind, h⟩ := of_bind_eq_ok h
  cases h
  have hrefute' : b.unlimited.refute i v s = .ok (ok, s₁) := hrefute
  simp only [Branching.right, hrefute', hbelow.descend hdescend, hrewind, bind,
    Except.bind, pure, Except.pure]

/-- A branching goes on only if its left branch did and its right branch did
after it. -/
theorem Follows.branch (hbelow : Follows below below')
    (h : b.branch below i v g entry s = .ok (.goOn, g', t)) :
    b.unlimited.branch below' i v g entry s = .ok (.goOn, g', t) := by
  obtain ⟨⟨flow₁, g₁, r⟩, hleft, h⟩ := of_bind_eq_ok h
  cases flow₁ with
  | stop =>
      obtain ⟨p, hp, h⟩ := of_bind_eq_ok h
      cases hp
      cases (of_retire h).1.1
  | goOn =>
      obtain ⟨⟨flow₂, g₂, r'⟩, hright, h⟩ := of_bind_eq_ok h
      obtain ⟨⟨rfl, rfl⟩, _⟩ := of_retire h
      simp only [Branching.branch, hbelow.left hleft, hbelow.right hright, bind,
        Except.bind]
      exact h

/-- Which variable and value are picked does not depend on the limit. -/
theorem Picks.unlimited (h : b.Picks c i v g) : b.unlimited.Picks c i v g :=
  ⟨h.incomplete, h.selected, h.offered⟩

/-- **A search that goes on** is the search without limit. -/
theorem follows_search (b : Branching σ) :
    ∀ d, Follows (b.search d) (b.unlimited.search d) := by
  intro d
  induction d with
  | zero => exact fun g s g' t h => h
  | succ d ih =>
      intro g s g' t h
      cases ends_of_search h with
      | recorded hcomplete hrecord =>
          exact search_of_isComplete hcomplete (Search.record_all hrecord)
      | unnamed hincomplete hselect => exact search_of_none hincomplete hselect
      | exhausted hincomplete hselect hx hvalue =>
          exact search_of_no_value hincomplete hselect hx hvalue
      | branched hpicks hbranch =>
          exact (search_of_picks hpicks.unlimited).trans (ih.branch hbranch)

/-- **A search that stops** has found and counted what the search without limit
has at that moment. -/
theorem Descends.truncates (h : b.Descends ok c flow g t)
    (hstop : flow = .stop) :
    ∀ {flow' : Flow} {g' : σ} {t' : Search},
      descend (b.unlimited.search c.depth) c.state ok c.search =
          .ok (flow', g', t') →
        t.Grows t' := by
  induction h with
  | failed => cases hstop
  | unnamed => cases hstop
  | exhausted => cases hstop
  | @recorded d g s t flow hcomplete hrecord =>
      intro flow' g' t' h'
      have hsearch : b.unlimited.search (d + 1) g s = .ok (.goOn, g, t) :=
        search_of_isComplete hcomplete (Search.record_all hrecord)
      have hsame := hsearch.symm.trans h'
      cases hsame
      exact .of_account rfl
  | @stopped d g g₀ g₁ s s₁ t₁ r t i v ok hpicks haccept hbelow hleft hend ih =>
      intro flow' g' t' h'
      have hbranch := (search_of_picks hpicks.unlimited).symm.trans h'
      have hleft' : ∀ {flow' g' r'},
          b.unlimited.left (b.unlimited.search d) i v g₀
          s.node.trail.checkpoint s.node = .ok (flow', g', r') →
            t.Grows r' := by
        intro flow' g' r' hleft'
        obtain ⟨ok', s₁', t₁', haccept', hdescend, hreturn⟩ :=
          of_left_eq_ok hleft'
        have hsame := haccept.symm.trans haccept'
        cases hsame
        exact ((Search.Grows.of_account hend.symm).trans
          (ih rfl hdescend)).trans (.of_account hreturn)
      rcases of_branch_eq_ok hbranch with
        ⟨_, r', hrun, hend'⟩ | ⟨g₁', r', r'', hrun, hright, hend'⟩
      · exact (hleft' hrun).trans (.of_account hend')
      · obtain ⟨ok₂, s₂, t₂, hrefute, hdescend, hreturn⟩ :=
          of_right_eq_ok hright
        have hlater :=
          (draws_refute hrefute).grows.trans
            (descends_of_descend hdescend).grows
        exact ((hleft' hrun).trans hlater).trans
          (.of_account (hend'.trans hreturn))
  | @both d g g₀ g₁ g₂ s s₁ t₁ r s₂ t₂ t i v ok₁ ok₂ flow hpicks haccept hbelow₁
      hleft hbetween hrefute hbelow₂ hend ih₁ ih₂ =>
      intro flow' g' t' h'
      have hbranch := (search_of_picks hpicks.unlimited).symm.trans h'
      have hsame := (follows_search b d).left hleft
      rcases of_branch_eq_ok hbranch with
        ⟨_, r', hrun, _⟩ | ⟨g₁', r', r'', hrun, hright, hend'⟩
      · cases hsame.symm.trans hrun
      · cases hsame.symm.trans hrun
        obtain ⟨ok₂', s₂', t₂', hrefute', hdescend, hreturn⟩ :=
          of_right_eq_ok hright
        cases hrefute.symm.trans hrefute'
        exact ((Search.Grows.of_account hend.symm).trans
          (ih₂ hstop hdescend)).trans (.of_account (hend'.trans hreturn))

end Branching

/-! ## From the root -/

namespace Algorithm

variable {σ : Type} {algorithm : Algorithm} {b : Branching σ} {m : Arena}
  {g g' g'' : σ} {r : Call σ} {s s' : Search}

/-- The root propagation does not depend on the limit, and the search without it
begins with the same call. -/
theorem Begins.unlimited (h : Begins b m g algorithm r) :
    Begins b.unlimited m g algorithm r := by
  cases h with
  | forwardChecking => exact .forwardChecking
  | maintainArcConsistency hroot => exact .maintainArcConsistency hroot

/-- What a strategy has found and counted under a limit, and what without. -/
theorem Explored.truncates (h : Explored b m g algorithm g' s)
    (h' : Explored b.unlimited m g algorithm g'' s') :
    s.Grows s' ∧ ∃ flow, b.limit.Obeyed flow s.solutions.size ∧
      (flow = .goOn → s'.solutions = s.solutions) := by
  cases h with
  | @searched _ r flow _ _ t hbegins hdraws hsearch hend =>
      cases h' with
      | @searched _ r' flow' _ _ t' hbegins' _ hsearch' hend' =>
          obtain rfl := hbegins.unlimited.unique hbegins'
          have hobeyed : b.limit.Obeyed flow s.solutions.size := by
            rw [Search.solutions_of_account hend]
            refine (Branching.descends_of_search hsearch).meets ?_
            rw [hdraws.solutions]
            exact Limit.not_isMet_zero b.limit
          have hgrows : t.Grows t' → s.Grows s' := fun h =>
            ((Search.Grows.of_account hend.symm).trans h).trans
              (.of_account hend')
          cases flow with
          | goOn =>
              cases (b.follows_search _ _ _ _ _ hsearch).symm.trans hsearch'
              have hsame : s'.account = s.account := hend'.trans hend.symm
              exact ⟨.of_account hsame, .goOn, hobeyed,
                fun _ => Search.solutions_of_account hsame⟩
          | stop =>
              exact ⟨hgrows
                ((Branching.descends_of_search hsearch).truncates rfl hsearch'),
                .stop, hobeyed, fun h => nomatch h⟩
      | failed hroot _ =>
          cases hbegins with
          | maintainArcConsistency hroot' => cases hroot'.symm.trans hroot
  | @failed _ t hroot hend =>
      cases h' with
      | searched hbegins' _ _ _ =>
          cases hbegins' with
          | maintainArcConsistency hroot' => cases hroot.symm.trans hroot'
      | failed hroot' hend' =>
          cases hroot.symm.trans hroot'
          have hsame : s'.account = s.account := hend'.trans hend.symm
          refine ⟨.of_account hsame, .goOn, .of_not_isMet ?_,
            fun _ => Search.solutions_of_account hsame⟩
          rw [Search.solutions_of_account hend,
            (Search.draws_propagate hroot).solutions]
          exact Limit.not_isMet_zero b.limit

/-- **A limit only truncates the run.**  With the same variables and the same
state of the variable order, a strategy finds under a limit a beginning of what
it finds without: as many solutions as the limit allows, at least one if there
is one.  None of its counts is greater. -/
theorem solve_truncates (algorithm : Algorithm) {selector : Selector σ}
    (valueOrder : ValueOrder) {net : Network} (g : σ) (hsafe : selector.IsSafe)
    (hm : m.IsFresh) (hnumbered : m.IsNumbered) (hnet : net.Within m.size) :
    ∃ all, algorithm.solve selector valueOrder .all net m g = .ok all ∧
      ∀ limit, ∃ r, algorithm.solve selector valueOrder limit net m g = .ok r ∧
        r.outcome.solutions = limit.cut all.outcome.solutions ∧
        r.outcome.tally.Le all.outcome.tally := by
  obtain ⟨g', s', hexplore', _, htrail', _⟩ :=
    explore_of_isFresh (b := algorithm.branching selector valueOrder .all net)
      algorithm g hsafe hm hnumbered hnet
  refine ⟨_, solve_of_explore hexplore' htrail', fun limit => ?_⟩
  obtain ⟨g'', s, hexplore, _, htrail, _⟩ :=
    explore_of_isFresh (b := algorithm.branching selector valueOrder limit net)
      algorithm g hsafe hm hnumbered hnet
  obtain ⟨hgrows, flow, hobeyed, hgoes⟩ :=
    (explored_of_explore hexplore).truncates (explored_of_explore hexplore')
  refine ⟨_, solve_of_explore hexplore htrail, ?_, hgrows.counted⟩
  refine Limit.eq_cut_of_obeyed (Array.length_toList ▸ hobeyed) hgrows.found
    fun hflow => ?_
  rw [hgoes hflow]

/-- Two variables with one constraint between them, under the random and the
descending order. -/
theorem solve_truncates_of_two :
    let net := Instance.coupleNetwork
    let m := Instance.coupleArena
    let solve :=
      fun limit =>
        maintainArcConsistency.solve VariableOrder.random.select .descending
      limit net m (.ofSeed 7)
    ∃ all, solve .all = .ok all ∧ ∃ r, solve .first = .ok r ∧
      r.outcome.solutions = all.outcome.solutions.take 1 ∧
      r.outcome.tally.Le all.outcome.tally := by
  intro net m solve
  have hposed : m.Posed net := Instance.posed_couple
  obtain ⟨all, hall, hlimit⟩ :=
    solve_truncates maintainArcConsistency .descending (.ofSeed 7)
      (VariableOrder.isLegal .random).isSafe hposed.fresh hposed.numbered
      hposed.within
  obtain ⟨r, hr, hcut, hle⟩ := hlimit .first
  exact ⟨all, hall, r, hr, hcut, hle⟩

end Algorithm

end ConstraintNet
