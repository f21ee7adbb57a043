import Mathlib.Algebra.GroupWithZero.Nat
import ConstraintNet.Proofs.Accounting
import ConstraintNet.Proofs.Charges
import ConstraintNet.Proofs.Wipeouts

/-!
# How the counts of a search agree

Revisions, prunes and marks are counted twice: in all, and for the arc that was
revised.  Both counts grow by the same, so that the one is the sum of the other
over the arcs.

Wipeouts are counted where propagation fails, and each failure is paid for
twice. The search answers it with a backtrack, unless it happened at the root;
and propagation has revised an arc before it fails, since it never starts from a
variable that has nothing left.

* `Tally.sum_revision` — one revision, against the sum over all arcs;
* `Propagator.revisions_lt_of_propagate` — a failure costs a revision;
* `Branching.Descends.agrees`, `Branching.Descends.pays` — both over a whole
  search.
-/

namespace ConstraintNet

/-! ## Sums over the arcs -/

namespace Tally

variable {t : Tally} {net : Network} {a : Arc} {count : ArcTally → Nat}
  {pruned marked : Nat}

/-- The sum of a count over the arcs that have counts. -/
def sum (t : Tally) (count : ArcTally → Nat) : Nat :=
  (t.arcs.toList.map fun p => count p.2).sum

/-- All three counts of a tally are the sums of those of the arcs, and only arcs
of the network have counts, with a revision each. -/
structure Agrees (t : Tally) (net : Network) : Prop where
  revisions : t.revisions = t.sum ArcTally.revisions
  prunings : t.prunings = t.sum ArcTally.prunings
  marks : t.marks = t.sum ArcTally.marks
  revised : ∀ a k, t.arcs[a]? = some k → a ∈ net.arcs ∧ 1 ≤ k.revisions

/-- The sum over the arcs goes through the arcs with an entry of their own. -/
theorem sum_eq (t : Tally) (count : ArcTally → Nat) :
    t.sum count = (t.arcs.keys.map fun a => count (t.ofArc a)).sum := by
  rw [sum, ← Std.ExtTreeMap.map_fst_toList_eq_keys, List.map_map]
  refine congrArg List.sum (List.map_congr_left fun p hp => ?_)
  have hget : t.arcs[p.1]? = some p.2 :=
    Std.ExtTreeMap.mem_toList_iff_getElem?_eq_some.mp hp
  rw [Function.comp_apply, ofArc, Std.ExtTreeMap.getD_eq_getD_getElem?, hget,
    Option.getD_some]

/-- An arc without an entry has counted nothing. -/
theorem ofArc_of_not_mem (h : a ∉ t.arcs.keys) : t.ofArc a = {} := by
  rw [Std.ExtTreeMap.mem_keys] at h
  exact Std.ExtTreeMap.getD_eq_fallback h

/-- The sum, with the count of one arc taken out. -/
theorem sum_eq_add (hnone : count {} = 0) (t : Tally) (a : Arc) :
    t.sum count = count (t.ofArc a) +
      ((t.arcs.keys.erase a).map fun b => count (t.ofArc b)).sum := by
  rw [sum_eq]
  by_cases ha : a ∈ t.arcs.keys
  · exact ((List.perm_cons_erase ha).map _).sum_nat
  · rw [List.erase_of_not_mem ha, ofArc_of_not_mem ha, hnone, Nat.zero_add]

/-- A revision makes no entry but that of its own arc. -/
theorem keys_revision_perm (t : Tally) (a : Arc) (pruned marked : Nat) :
    ((t.revision a pruned marked).arcs.keys.erase a).Perm
      (t.arcs.keys.erase a) := by
  have hnodup := Std.ExtTreeMap.nodup_keys (t := t.arcs)
  have hnodup' :=
    Std.ExtTreeMap.nodup_keys (t := (t.revision a pruned marked).arcs)
  refine (List.perm_ext_iff_of_nodup (hnodup'.erase a) (hnodup.erase a)).mpr
    fun b => ?_
  rw [hnodup.mem_erase_iff, hnodup'.mem_erase_iff, Std.ExtTreeMap.mem_keys,
    Std.ExtTreeMap.mem_keys, revision, Std.ExtTreeMap.mem_insert,
    Std.LawfulEqCmp.compare_eq_iff_eq]
  exact and_congr_right fun hba => or_iff_right fun hab => hba hab.symm

/-- **A revision** adds to a sum what it adds to the count of its arc. -/
theorem sum_revision (count : ArcTally → Nat) (hnone : count {} = 0) (t : Tally)
    {more : Nat}
    (hmore : count ((t.revision a pruned marked).ofArc a) =
      count (t.ofArc a) + more) :
    (t.revision a pruned marked).sum count = t.sum count + more := by
  have hothers : ((t.arcs.keys.erase a).map fun b =>
      count ((t.revision a pruned marked).ofArc b)) =
        (t.arcs.keys.erase a).map fun b => count (t.ofArc b) := by
    refine List.map_congr_left fun b hb => ?_
    have hba : b ≠ a := (Std.ExtTreeMap.nodup_keys.mem_erase_iff.mp hb).1
    rw [ofArc_revision, if_neg hba.symm]
  rw [sum_eq_add hnone t a, sum_eq_add hnone (t.revision a pruned marked) a,
    ((t.keys_revision_perm a pruned marked).map _).sum_nat, hothers, hmore]
  omega

/-- At the start nothing was counted, in the whole or for an arc. -/
theorem Agrees.empty (net : Network) : ({} : Tally).Agrees net where
  revisions := rfl
  prunings := rfl
  marks := rfl
  revised a k h := by
    rw [show ({} : Tally).arcs = ∅ from rfl, Std.ExtTreeMap.getElem?_empty] at h
    cases h

theorem Agrees.node (h : t.Agrees net) : t.node.Agrees net := { h with }

theorem Agrees.backtrack (h : t.Agrees net) : t.backtrack.Agrees net :=
  { h with }

/-- Wipeouts are no part of what is counted for arcs. -/
theorem Agrees.wipeout (h : t.Agrees net) : t.wipeout.Agrees net := { h with }

/-- A revision adds the same to the whole and to its arc, which has a
constraint. -/
theorem Agrees.revision (h : t.Agrees net) (ha : a ∈ net.arcs)
    (pruned marked : Nat) : (t.revision a pruned marked).Agrees net := by
  have hself : (t.revision a pruned marked).ofArc a = _ :=
    (ofArc_revision t a a pruned marked).trans (if_pos rfl)
  refine ⟨?_, ?_, ?_, fun b k hk => ?_⟩
  · rw [sum_revision ArcTally.revisions rfl t
      (congrArg ArcTally.revisions hself), ← h.revisions]
    rfl
  · rw [sum_revision ArcTally.prunings rfl t
      (congrArg ArcTally.prunings hself), ← h.prunings]
    rfl
  · rw [sum_revision ArcTally.marks rfl t
      (congrArg ArcTally.marks hself), ← h.marks]
    rfl
  · simp only [Tally.revision, Std.ExtTreeMap.getElem?_insert,
      Std.LawfulEqCmp.compare_eq_iff_eq] at hk
    split at hk
    · rename_i hab
      cases hk
      exact ⟨hab ▸ ha, Nat.succ_le_succ (Nat.zero_le _)⟩
    · exact h.revised b k hk

end Tally

/-! ## What propagation counts -/

namespace Network

variable {net : Network} {a : Arc} {w u : Workspace} {r : Revision}

/-- Revising an arc keeps the counts in agreement: an arc without a constraint
counts nothing anywhere. -/
theorem agrees_revise (hw : w.tally.Agrees net)
    (h : net.revise a w = .ok (r, u)) : u.tally.Agrees net := by
  rw [tally_revise h]
  split
  · rename_i ha
    exact hw.revision ha _ _
  · exact hw

end Network

namespace Propagator

variable {p : Propagator} {q : Agenda} {w u : Workspace} {a : Arc}
  {seed l : List Arc} {ok : Bool}

/-- **A run keeps the counts in agreement**, wherever it stops. -/
theorem Serves.agrees (h : p.Serves q w l ok u)
    (hw : w.tally.Agrees p.network) : u.tally.Agrees p.network := by
  induction h with
  | settled => exact hw
  | barren hstep =>
      obtain ⟨a, rest, _, ⟨_, rfl⟩ | ⟨hnone, _⟩⟩ := of_step_eq_failed hstep
      · exact hw.wipeout
      · cases hnone
  | emptied hstep =>
      obtain ⟨a, rest, _, ⟨hnone, _⟩ | ⟨_, r, t, hrevise, rfl⟩⟩ :=
        of_step_eq_failed hstep
      · cases hnone
      · exact (Network.agrees_revise hw hrevise).wipeout
  | going _ hstep _ ih =>
      obtain ⟨a, rest, r, _, hrevise, _⟩ := of_step_eq_going hstep
      exact ih (Network.agrees_revise hw hrevise)

/-- A step that fails without a revision has found nothing left at the tail of
the first waiting arc. -/
theorem isWipedOut_of_step_eq_failed (h : p.step q w = .ok (.failed u none)) :
    ∃ a rest x, q.pop? = some (a, rest) ∧ w.arena.read a.tail = .ok x ∧
      x.isWipedOut = true := by
  unfold step at h
  split at h
  · cases h
  · rename_i a rest hpop
    split at h
    · cases h
    · obtain ⟨x, hx, h⟩ := of_bind_eq_ok h
      split at h
      · rename_i hwiped
        exact ⟨a, rest, x, hpop, hx, hwiped⟩
      · obtain ⟨⟨r, t⟩, _, h⟩ := of_bind_eq_ok h
        simp only at h
        split at h
        · cases h
        · obtain ⟨y, _, h⟩ := of_bind_eq_ok h
          split at h
          · cases h
          · cases h

/-- **A failure costs a revision**, if propagation starts from arcs of the
network whose tails have something left. -/
theorem revisions_lt_of_propagate (hseed : ∀ a ∈ seed, a ∈ p.network.arcs)
    (hshows : ∀ a ∈ seed, ∀ x, w.arena.read a.tail = .ok x →
      x.isWipedOut = false)
    (h : p.propagate seed w = .ok (false, u)) :
    w.tally.revisions < u.tally.revisions := by
  have hfirst : ∀ {a rest}, (Agenda.ofList seed).pop? = some (a, rest) →
      a ∈ seed :=
    fun hpop => Agenda.mem_ofList.mp ((Agenda.mem_of_pop? hpop).mpr (.inl rfl))
  obtain ⟨l, hserves⟩ := exists_serves h
  have hrevised : ∃ a ∈ l, a ∈ p.network.arcs := by
    cases hserves with
    | barren hstep =>
        obtain ⟨a, rest, x, hpop, hx, hwiped⟩ :=
          isWipedOut_of_step_eq_failed hstep
        rw [hshows a (hfirst hpop) x hx] at hwiped
        cases hwiped
    | emptied hstep =>
        obtain ⟨a, rest, hpop, ⟨hnone, _⟩ | ⟨hsome, _⟩⟩ :=
          of_step_eq_failed hstep
        · cases hnone
        · cases hsome
          exact ⟨_, List.mem_cons_self, hseed _ (hfirst hpop)⟩
    | going hpop => exact ⟨_, List.mem_cons_self, hseed _ (hfirst hpop)⟩
  obtain ⟨a, hal, ha⟩ := hrevised
  have hpositive : 0 < l.countP (· ∈ p.network.arcs) :=
    List.countP_pos_iff.mpr ⟨a, hal, decide_eq_true ha⟩
  have hcounted := hserves.counted.revisions
  omega

end Propagator

/-! ## What a failure is paid with -/

namespace Search

variable {s t u : Search} {net : Network} {p : Propagator} {seed : List Arc}
  {ok : Bool} {due : Nat}

/-- From `s` to `t` wipeouts grew by no more than revisions did, and by no more
than backtracks did, but for so many backtracks that are still due. -/
structure Pays (s t : Search) (due : Nat) : Prop where
  backtracks : t.tally.wipeouts + s.tally.backtracks ≤
    s.tally.wipeouts + t.tally.backtracks + due
  revisions : t.tally.wipeouts + s.tally.revisions ≤
    s.tally.wipeouts + t.tally.revisions

theorem Pays.trans {due' : Nat} (h : s.Pays t due) (h' : t.Pays u due') :
    s.Pays u (due' + due) := by
  have := h.backtracks
  have := h.revisions
  have := h'.backtracks
  have := h'.revisions
  constructor <;> omega

/-- Where no count changed there is nothing to pay. -/
theorem pays_of_tally (h : t.tally = s.tally) : s.Pays t 0 where
  backtracks := Nat.le_of_eq (by simp only [h, Nat.add_zero])
  revisions := Nat.le_of_eq (by simp only [h])

/-- Whatever leaves the account of a search leaves nothing to pay. -/
theorem pays_of_account (h : t.account = s.account) : s.Pays t 0 :=
  pays_of_tally (tally_of_account h)

/-- A node is no wipeout. -/
theorem pays_node (s : Search) : s.Pays s.node 0 :=
  ⟨Nat.le_refl _, Nat.le_refl _⟩

/-- A backtrack pays for a wipeout before it. -/
theorem Pays.backtrack (h : s.Pays t due) : s.Pays t.backtrack (due - 1) := by
  have hbacktracks : t.backtrack.tally.backtracks = t.tally.backtracks + 1 :=
    rfl
  have hwipeouts : t.backtrack.tally.wipeouts = t.tally.wipeouts := rfl
  have hrevisions : t.backtrack.tally.revisions = t.tally.revisions := rfl
  have := h.backtracks
  have := h.revisions
  constructor <;> omega

/-- Recording a solution is no wipeout either. -/
theorem pays_record {limit : Limit} {flow : Flow}
    (h : s.record net limit = .ok (flow, t)) : s.Pays t 0 :=
  pays_of_tally (congrArg Workspace.tally (of_record_eq_ok h).1)

/-- It leaves the counts in agreement. -/
theorem agrees_record {limit : Limit} {flow : Flow}
    (h : s.record net limit = .ok (flow, t)) (hs : s.tally.Agrees net) :
    t.tally.Agrees net := by
  rw [(of_record_eq_ok h).1]
  exact hs

/-- Propagation serves one arc after another, each of which keeps the counts in
agreement. -/
theorem agrees_propagate (h : s.propagate p seed = .ok (ok, t))
    (hs : s.tally.Agrees p.network) : t.tally.Agrees p.network := by
  obtain ⟨l, hserves⟩ := Propagator.exists_serves (of_propagate_eq_ok h).1
  exact hserves.agrees hs

/-- A propagation that does not fail counts no wipeout. -/
theorem pays_of_stands (h : s.propagate p seed = .ok (true, t)) :
    s.Pays t 0 := by
  have hwipeouts : t.tally.wipeouts = s.tally.wipeouts := wipeouts_propagate h
  have hdraws := draws_propagate h
  have hbacktracks := hdraws.drawn.backtracks
  have hrevisions := hdraws.drawn.le.revisions
  constructor <;> omega

/-- A propagation that fails leaves one backtrack due. -/
theorem pays_propagate (hseed : ∀ a ∈ seed, a ∈ p.network.arcs)
    (hshows : ∀ a ∈ seed, ∀ x, s.arena.read a.tail = .ok x →
      x.isWipedOut = false)
    (h : s.propagate p seed = .ok (ok, t)) : s.Pays t (!ok).toNat := by
  cases ok with
  | true => exact pays_of_stands h
  | false =>
      have hwipeouts : t.tally.wipeouts = s.tally.wipeouts + 1 :=
        wipeouts_propagate h
      have hbacktracks := (draws_propagate h).drawn.backtracks
      have hrevisions :=
        Propagator.revisions_lt_of_propagate hseed hshows
          (of_propagate_eq_ok h).1
      simp only [Bool.not_false, Bool.toNat_true]
      constructor <;> omega

/-- So does a propagation from a variable that has something left. -/
theorem pays_propagateFrom {i : Nat} {x : Variable}
    (hx : s.arena.read i = .ok x) (hshows : x.isWipedOut = false)
    (h : s.propagateFrom p i = .ok (ok, t)) : s.Pays t (!ok).toNat := by
  refine pays_propagate (fun a ha => (Network.mem_arcsFrom.mp ha).1)
    (fun a ha y hy => ?_) h
  rw [(Network.mem_arcsFrom.mp ha).2] at hy
  rwa [Arena.read_unique hy hx]

end Search

namespace Branching

variable {σ : Type} {b : Branching σ} {c : Call σ} {g : σ} {s t : Search}
  {i : Nat} {v : Int} {ok : Bool} {flow : Flow}

/-- Accepting a value keeps them in agreement. -/
theorem agrees_accept (h : b.accept i v s = .ok (ok, t))
    (hs : s.tally.Agrees b.propagator.network) :
    t.tally.Agrees b.propagator.network := by
  obtain ⟨s₁, hassign, hpropagate⟩ := of_bind_eq_ok h
  refine Search.agrees_propagate hpropagate ?_
  rw [Workspace.tally_modify (Search.of_modify_eq_ok hassign).1]
  exact hs

/-- So does refuting one. -/
theorem agrees_refute (h : b.refute i v s = .ok (ok, t))
    (hs : s.tally.Agrees b.propagator.network) :
    t.tally.Agrees b.propagator.network := by
  obtain ⟨⟨pruned, s₁⟩, hexclude, h⟩ := of_bind_eq_ok h
  have hkept : s₁.tally = s.tally :=
    Workspace.tally_exclude (Search.of_adjust_eq_ok hexclude).1
  rw [← hkept] at hs
  obtain ⟨x, _, h⟩ := of_bind_eq_ok h
  split at h
  · exact Search.agrees_propagate h hs
  · cases h
    exact hs

/-- The accepted value is live, so that the propagation does not start from
nothing. -/
theorem Picks.pays {d : Nat} {g' : σ} (hpicks : b.Picks ⟨d + 1, g, s⟩ i v g')
    (h : b.accept i v s.node = .ok (ok, t)) : s.Pays t (!ok).toNat := by
  obtain ⟨x, hx, hv⟩ := hpicks.offered
  have hassigned : (x.assign v).isWipedOut = false := by
    refine Bool.eq_false_iff.mpr fun hwiped =>
      Variable.isWipedOut_iff.mp hwiped v ?_
    exact Variable.mem_effective.mpr
      ⟨(ValueOrder.mem_of_select hv).1, fun u hu => Option.some.inj hu⟩
  have hread : s.node.arena.read i = .ok x := hx
  rw [accept, Search.assign_eq hread v] at h
  have hpays := Search.pays_propagateFrom (s := s.node.write i (x.assign v))
    (Arena.read_write_self (Arena.lt_of_read hread) _) hassigned h
  exact ⟨hpays.backtracks, hpays.revisions⟩

/-- A refutation that fails leaves one backtrack due.  Where it fails before it
propagates, no wipeout is counted at all. -/
theorem pays_refute (h : b.refute i v s = .ok (ok, t)) :
    s.Pays t (!ok).toNat := by
  obtain ⟨⟨pruned, s₁⟩, hexclude, h⟩ := of_bind_eq_ok h
  have hkept : s₁.tally = s.tally :=
    Workspace.tally_exclude (Search.of_adjust_eq_ok hexclude).1
  have hstart : s.Pays s₁ 0 := Search.pays_of_tally hkept
  obtain ⟨x, hx, h⟩ := of_bind_eq_ok h
  split at h
  · rename_i hleft
    have hshows : x.isWipedOut = false := by
      simp only [Bool.and_eq_true, Bool.not_eq_true'] at hleft
      exact hleft.2
    exact hstart.trans (Search.pays_propagateFrom hx hshows h)
  · cases h
    exact ⟨Nat.le_trans hstart.backtracks (Nat.le_add_right _ _),
      hstart.revisions⟩

/-! ## Over a whole search -/

/-- **A search keeps the counts in agreement.** -/
theorem Descends.agrees (h : b.Descends ok c flow g t)
    (hc : c.search.tally.Agrees b.propagator.network) :
    t.tally.Agrees b.propagator.network := by
  induction h with
  | failed => exact hc.backtrack
  | recorded _ hrecord => exact Search.agrees_record hrecord hc.node
  | unnamed => exact hc.node
  | exhausted => exact hc.node.backtrack
  | stopped _ haccept _ _ hend ih =>
      rw [Search.tally_of_account hend]
      exact ih (agrees_accept haccept hc.node)
  | both _ haccept _ _ hbetween hrefute _ hend ih₁ ih₂ =>
      rw [Search.tally_of_account hend]
      refine ih₂ (agrees_refute hrefute ?_)
      rw [Search.tally_of_account hbetween]
      exact ih₁ (agrees_accept haccept hc.node)

/-- **A search pays for its wipeouts**, also for the one that the decision above
it left due. -/
theorem Descends.pays (h : b.Descends ok c flow g t) {s : Search}
    (hs : s.Pays c.search (!ok).toNat) : s.Pays t 0 := by
  -- Counted from any earlier search on, so that the right branch can count from
  -- before the left.
  induction h generalizing s with
  | failed => exact hs.backtrack
  | recorded _ hrecord =>
      exact (hs.trans (Search.pays_node _)).trans (Search.pays_record hrecord)
  | unnamed => exact hs.trans (Search.pays_node _)
  | exhausted => exact (hs.trans (Search.pays_node _)).backtrack
  | stopped hpicks haccept _ _ hend ih =>
      exact (ih (hs.trans (hpicks.pays haccept))).trans
        (Search.pays_of_account hend)
  | both hpicks haccept _ _ hbetween hrefute _ hend ih₁ ih₂ =>
      have hleft := ih₁ (hs.trans (hpicks.pays haccept))
      have hbetween := hleft.trans (Search.pays_of_account hbetween)
      exact (ih₂ (hbetween.trans (pays_refute hrefute))).trans
        (Search.pays_of_account hend)

end Branching

/-! ## From the root -/

namespace Algorithm

variable {σ : Type} {algorithm : Algorithm} {b : Branching σ} {m : Arena}
  {g g' : σ} {s : Search}

/-- At the root nothing was counted, and the counts agree. -/
theorem Explored.agrees (h : Explored b m g algorithm g' s) :
    s.tally.Agrees b.propagator.network := by
  have hbegin : (Search.begin m).tally.Agrees b.propagator.network := .empty _
  cases h with
  | searched hbegins _ hsearch hend =>
      rw [Search.tally_of_account hend]
      refine (Branching.descends_of_search hsearch).agrees ?_
      cases hbegins with
      | forwardChecking => exact hbegin
      | maintainArcConsistency hroot =>
          exact Search.agrees_propagate hroot hbegin
  | failed hroot hend =>
      rw [Search.tally_of_account hend]
      exact Search.agrees_propagate hroot hbegin

/-- A search from the root pays for its wipeouts. -/
theorem Begins.pays {r : Call σ} {flow : Flow} {t : Search}
    (h : Begins b m g algorithm r) (hcourse : b.Descends true r flow g' t) :
    (Search.begin m).Pays t 0 := by
  refine hcourse.pays ?_
  cases h with
  | forwardChecking => exact ⟨Nat.le_refl _, Nat.le_refl _⟩
  | maintainArcConsistency hroot => exact Search.pays_of_stands hroot

/-- **The counts of a search agree with each other**, whatever the limit and the
orders. Revisions, prunes and marks are the sums over the arcs of the network,
each of which has counts only if it was revised.  There are no more wipeouts
than backtracks, but for the one of a propagation that fails at the root, and no
more than revisions, if no initial domain is empty. -/
theorem solve_keeps_ledger (algorithm : Algorithm) (selector : Selector σ)
    (valueOrder : ValueOrder) (limit : Limit) {net : Network} (g : σ)
    (hm : m.IsFresh) (hnumbered : m.IsNumbered) (hnet : net.Within m.size) :
    let b := algorithm.branching selector valueOrder limit net
    (selector.IsSafe →
      ∃ r, algorithm.solve selector valueOrder limit net m g = .ok r) ∧
    ∀ r, algorithm.solve selector valueOrder limit net m g = .ok r →
      let t := r.outcome.tally
      t.Agrees net ∧
      (¬ algorithm.FailsAtRoot b m → t.wipeouts ≤ t.backtracks) ∧
      (algorithm.FailsAtRoot b m → t.wipeouts = t.backtracks + 1) ∧
      ((∀ i x, m.read i = .ok x → ∃ v, v ∈ x.initial) →
        t.wipeouts ≤ t.revisions) := by
  intro b
  constructor
  · intro hsafe
    obtain ⟨g', s, hexplore, _, htrail, _⟩ :=
      explore_of_isFresh (b := b) algorithm g hsafe hm hnumbered hnet
    exact ⟨_, solve_of_explore hexplore htrail⟩
  · intro r hr
    obtain ⟨s, hexplore, houtcome, _⟩ := of_solve_eq_ok hr
    have hexplored := explored_of_explore hexplore
    simp only [houtcome]
    refine ⟨hexplored.agrees, ?_⟩
    cases hexplored with
    | searched hbegins _ hsearch hend =>
        have hpays := hbegins.pays (Branching.descends_of_search hsearch)
        have hbacktracks := hpays.backtracks
        have hrevisions := hpays.revisions
        simp only [Search.begin, Nat.zero_add, Nat.add_zero]
          at hbacktracks hrevisions
        rw [Search.tally_of_account hend]
        exact ⟨fun _ => hbacktracks,
          fun hfails => absurd hfails hbegins.not_failsAtRoot,
          fun _ => hrevisions⟩
    | @failed _ t hroot hend =>
        have hfails : FailsAtRoot .maintainArcConsistency b m := ⟨rfl, t, hroot⟩
        obtain ⟨_, _, hbacktracks, hwipeouts⟩ := counts_of_propagateAll hroot
        rw [Search.tally_of_account hend]
        refine ⟨fun hnot => absurd hfails hnot, fun _ => by omega,
          fun hne => ?_⟩
        have hrun : (Search.begin m).propagate b.propagator
          b.propagator.network.arcs =
          .ok (false, t) := hroot
        have hrevised := Propagator.revisions_lt_of_propagate (fun _ ha => ha)
          (fun a _ x hx => Arena.whole_iff.mp (hm.whole hne) _ x hx)
          (Search.of_propagate_eq_ok hrun).1
        omega

/-- Two variables that no pair of values satisfies: propagation fails at the
root, under the random order too. -/
theorem solve_keeps_ledger_of_two :
    let net :=
      (∅ : Network).insertSymmetric
        { first := 0, second := 1, pairs := [(5, 5)] }
    let m : Arena := .ofList [.ofBounds 0 0 1, .ofBounds 1 0 2]
    ∃ r, maintainArcConsistency.solve VariableOrder.random.select .descending
      .all net m
        (.ofSeed 7) = .ok r ∧
      r.outcome.tally.Agrees net ∧
      r.outcome.tally.wipeouts = r.outcome.tally.backtracks + 1 ∧
      r.outcome.tally.wipeouts ≤ r.outcome.tally.revisions := by
  intro net m
  have hnetwork : Instance.buildNetwork ⟨[(0, 1), (0, 2)], [⟨0, 1, [(5, 5)]⟩]⟩ =
    .ok net := rfl
  have harena : Instance.buildArena ⟨[(0, 1), (0, 2)], [⟨0, 1, [(5, 5)]⟩]⟩ =
    .ok m := rfl
  have hm : m.IsFresh := Instance.isFresh_of_buildArena harena
  have hnumbered : m.IsNumbered := Instance.isNumbered_of_buildArena harena
  have hnet : net.Within m.size := Instance.within_of_buildNetwork hnetwork
  obtain ⟨hruns, hall⟩ :=
    solve_keeps_ledger maintainArcConsistency VariableOrder.random.select
      .descending .all (.ofSeed 7) hm hnumbered hnet
  obtain ⟨r, hr⟩ := hruns (VariableOrder.isLegal .random).isSafe
  obtain ⟨hagrees, _, hfails, hrevisions⟩ := hall r hr
  refine ⟨r, hr, hagrees, hfails ⟨rfl, ?_⟩,
    hrevisions fun i x hx =>
      Instance.exists_mem_initial_of_buildArena harena hx⟩
  obtain ⟨ok, u, hroot, hp⟩ := propagateAll_of_isFresh hm hnumbered hnet (b :=
    maintainArcConsistency.branching VariableOrder.random.select
      .descending .all net)
  have hc : net.find? ⟨0, 1⟩ =
    some { first := 0, second := 1, pairs := [(5, 5)] } := rfl
  cases ok with
  | false => exact ⟨_, hroot⟩
  | true =>
      obtain ⟨z, hz⟩ := hp.left rfl 1 0 (by decide +kernel)
      obtain ⟨v, hv, hvz⟩ :=
        hp.served rfl ⟨0, 1⟩ (Network.mem_arcs_of_find? hc) _ hc z hz
      have h5 : v =
        5 := by simpa using congrArg Prod.fst (List.mem_singleton.mp hvz)
      subst h5
      exact absurd hv (by decide +kernel)

end Algorithm

end ConstraintNet
