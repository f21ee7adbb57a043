import ConstraintNet.Proofs.Accounting
import ConstraintNet.Proofs.Barren
import ConstraintNet.Proofs.Maintaining
import ConstraintNet.Proofs.Ordering

/-!
# What maintaining consistency saves

Forward checking and maintaining consistency take the same variables in the same
order, if the variable order goes along a line.  So their searches can be
followed side by side.  Two calls side by side admit the same solutions, and
what shows where consistency is maintained shows where it is not.

Where both take the same value, both branches lead to calls side by side, or the
one search is done with a branch on which the other still looks for solutions
and finds none.  Where they do not, forward checking takes a value that no
longer shows where consistency is maintained.  Nothing is found on its left
branch, and its right branch leads to a call beside the one where the other
search waits.

So neither nodes nor backtracks are fewer where only the frontier is propagated,
as long as no value is overlooked on either side.
-/

namespace ConstraintNet

/-! ## Side by side -/

namespace Search

variable {s s' t t' u u' : Search} {flow flow' flow₁ flow₁' : Flow}

/-- The search from `s` to `t` ends as that from `s'` to `t'` does and finds as
much, with no more nodes and no more backtracks. -/
structure Saves (s t s' t' : Search) (flow flow' : Flow) : Prop where
  flow : flow' = flow
  solutions : t'.solutions.size = t.solutions.size
  nodes : t.tally.nodes + s'.tally.nodes ≤ t'.tally.nodes + s.tally.nodes
  backtracks : t.tally.backtracks + s'.tally.backtracks ≤
    t'.tally.backtracks + s.tally.backtracks

theorem Saves.node (h : Saves s.node t s'.node t' flow flow') :
    Saves s t s' t' flow flow' where
  flow := h.flow
  solutions := h.solutions
  nodes := by
    have hnodes := h.nodes
    have hs : s.node.tally.nodes = s.tally.nodes + 1 := rfl
    have hs' : s'.node.tally.nodes = s'.tally.nodes + 1 := rfl
    omega
  backtracks := h.backtracks

/-- The moves around a branch count neither nodes nor backtracks on either
side. -/
theorem Saves.draws (h : Saves s t s' t' flow flow') {r r' : Search}
    (hs : r.Draws s) (ht : t.Draws u) (hs' : r'.Draws s') (ht' : t'.Draws u') :
    Saves r u r' u' flow flow' where
  flow := h.flow
  solutions := by rw [ht.solutions, ht'.solutions, h.solutions]
  nodes := by
    rw [← hs.drawn.nodes, ht.drawn.nodes, ← hs'.drawn.nodes, ht'.drawn.nodes]
    exact h.nodes
  backtracks := by
    rw [← hs.drawn.backtracks, ht.drawn.backtracks, ← hs'.drawn.backtracks,
      ht'.drawn.backtracks]
    exact h.backtracks

theorem Saves.trans (h : Saves s t s' t' flow₁ flow₁')
    (h' : Saves t u t' u' flow flow') : Saves s u s' u' flow flow' where
  flow := h'.flow
  solutions := h'.solutions
  nodes := by
    have hnodes := h.nodes
    have hnodes' := h'.nodes
    omega
  backtracks := by
    have hbacktracks := h.backtracks
    have hbacktracks' := h'.backtracks
    omega

/-- One search waits while the other one wastes its time. -/
theorem Saves.waits (h : Saves s t s' t' flow flow')
    (hwasted : u'.Wasted flow₁ s') : Saves s t u' t' flow flow' where
  flow := h.flow
  solutions := h.solutions
  nodes := by
    have hnodes := h.nodes
    have hwaste := hwasted.nodes
    omega
  backtracks := by
    have hbacktracks := h.backtracks
    have hwaste := hwasted.backtracks
    omega

/-- A failure saves what others waste. -/
theorem Wasted.saves (h : s'.Wasted flow t')
    (hsolutions : s'.solutions.size = s.solutions.size) :
    Saves s s.backtrack s' t' .goOn flow where
  flow := h.flow
  solutions := by
    rw [h.solutions, hsolutions]
    rfl
  nodes := by
    have hnodes := h.nodes
    have hs : s.backtrack.tally.nodes = s.tally.nodes := rfl
    omega
  backtracks := by
    have hbacktracks := h.backtracks
    have hs : s.backtrack.tally.backtracks = s.tally.backtracks + 1 := rfl
    omega

/-- Two searches that have found as much record one solution more. -/
theorem saves_of_record {net : Network} {limit : Limit}
    (h : s.record net limit = .ok (flow, t))
    (h' : s'.record net limit = .ok (flow', t'))
    (hsolutions : s'.solutions.size = s.solutions.size) :
    Saves s t s' t' flow flow' := by
  obtain ⟨hworkspace, ⟨sol, hpush⟩, hflow⟩ := of_record_eq_ok h
  obtain ⟨hworkspace', ⟨sol', hpush'⟩, hflow'⟩ := of_record_eq_ok h'
  have hsize : t'.solutions.size = t.solutions.size := by
    rw [hpush, hpush', Array.size_push, Array.size_push, hsolutions]
  refine ⟨?_, hsize, ?_, ?_⟩
  · rw [hflow, hflow', hsize]
  · rw [hworkspace, hworkspace']
    exact Nat.le_of_eq (Nat.add_comm _ _)
  · rw [hworkspace, hworkspace']
    exact Nat.le_of_eq (Nat.add_comm _ _)

end Search

namespace Branching

variable {σ : Type} {b : Branching σ} {m : Arena} {c e e' f f' : Call σ}
  {d : Decision} {ok ok' : Bool} {flow flow' : Flow} {g g' : σ} {t t' : Search}
  {line : List Nat} {i j : Nat} {v w : Int}

/-- The same search with propagation of the frontier only. -/
def relaxed (b : Branching σ) : Branching σ :=
  { b with propagator := ⟨b.propagator.network, .frontier⟩ }

/-- The search maintains consistency on a symmetric network of `n` variables,
and its variable order goes along a line. -/
structure Methodical (b : Branching σ) (n : Nat) (line : List Nat) : Prop where
  legal : b.selector.IsLegal
  along : b.selector.GoesAlong b.propagator.network n line
  closure : b.propagator.closure = .full
  symmetric : b.propagator.network.IsSymmetric

/-- The call `e`, at which consistency is maintained, and the call `f`, at which
it is not, have come to the same values and admit the same solutions. -/
structure Beside (b : Branching σ) (m : Arena) (e f : Call σ) : Prop where
  maintained : b.Maintained m e
  ready : b.relaxed.Ready m f
  size : e.search.arena.size = m.size
  values : f.search.arena.values = e.search.arena.values
  shown : ∀ i v, v ∈ e.search.arena.effective i → v ∈ f.search.arena.effective i
  admits : ∀ τ, b.propagator.network.Holds τ → f.search.arena.Admits τ →
    e.search.arena.Admits τ
  solutions : f.search.solutions.size = e.search.solutions.size

/-- The variable that a call picks is the first one on the line without a
value. -/
theorem Picks.find?_eq (h : b.Picks c i v g) (hlegal : b.selector.IsLegal)
    (hc : b.Ready m c)
    (halong : b.selector.GoesAlong b.propagator.network
      c.search.arena.size line) :
    line.find? (fun k => c.search.arena.values[k]? = some none) = some i := by
  have hs := hc.sound.orderly
  obtain ⟨x, ho⟩ := h.offers hlegal.isSafe hs
  obtain ⟨before, after, rfl, hassigned⟩ :=
    halong _ _ _ _ rfl hs.numbered h.selected
  apply List.find?_eq_some_iff_append.mpr
  refine ⟨decide_eq_true (Arena.getElem?_values.mpr ⟨x, ho.read, ho.value⟩),
    before, after, rfl, ?_⟩
  intro k hk
  rw [Bool.not_eq_true', decide_eq_false_iff_not]
  intro hnone
  obtain ⟨y, hy, hvalue⟩ := Arena.getElem?_values.mp hnone
  exact hassigned k hk y hy hvalue

namespace Beside

theorem size_eq (h : b.Beside m e f) :
    f.search.arena.size = e.search.arena.size := by
  rw [← Arena.length_values, ← Arena.length_values, h.values]

/-- Where the first call leaves every variable something to show, the second
does, since it shows more. -/
theorem whole (h : b.Beside m e f) : f.search.arena.Whole := by
  intro i hi
  obtain ⟨v, hv⟩ := h.maintained.whole i (h.size_eq ▸ hi)
  exact ⟨v, h.shown i v hv⟩

/-- **Both calls pick the same variable.** -/
theorem index (h : b.Beside m e f) (hb : b.Methodical m.size line)
    (he : b.Picks e i v g) (hf : b.relaxed.Picks f j w g') : j = i := by
  have hpicked :=
    he.find?_eq hb.legal h.maintained.ready (h.size.symm ▸ hb.along)
  have hpicked' :=
    hf.find?_eq hb.legal h.ready ((h.size_eq.trans h.size).symm ▸ hb.along)
  rw [h.values, hpicked] at hpicked'
  exact (Option.some.inj hpicked').symm

/-- **Both take the same value**, or forward checking takes one that does not
show where consistency is maintained. -/
theorem value (h : b.Beside m e f) (hb : b.Methodical m.size line)
    (he : b.Picks e i v g) (hf : b.relaxed.Picks f i w g')
    (hnot : ¬ b.Overlooks e) (hnot' : ¬ b.relaxed.Overlooks f) :
    w = v ∨ w ∉ e.search.arena.effective i := by
  by_cases hwv : w = v
  · exact .inl hwv
  · refine .inr fun hw => ?_
    obtain ⟨x, ho⟩ := he.offers hb.legal.isSafe h.maintained.ready.sound.orderly
    have hbefore :=
      he.before_of_mem hb.legal.isSafe h.maintained.ready hnot hw hwv
    have hbefore' : b.valueOrder.Before w v :=
      hf.before_of_mem hb.legal.isSafe h.ready hnot'
        (h.shown i v ho.mem_effective) (Ne.symm hwv)
    exact ValueOrder.not_before_of_before hbefore hbefore'

/-- **The same decision on both sides.**  If it stands where consistency is
maintained, it stands on the other side too, and leads to calls side by side.
If it does not, there is nothing to be found on the other side. -/
theorem explores (h : b.Beside m e f) (hb : b.Methodical m.size line)
    (he : b.Explores e d ok e') (hf : b.relaxed.Explores f d ok' f')
    (hsolutions : f'.search.solutions.size = e'.search.solutions.size) :
    (ok = true → ok' = true ∧ b.Beside m e' f') ∧
      (ok = false → ok' = true → b.relaxed.Barren f') := by
  have hsafe := hb.legal.isSafe
  have hnarrowed := he.narrowed hsafe h.maintained.ready
  have hnarrowed' := hf.narrowed hsafe h.ready
  have hdecided := he.decided hsafe h.maintained.ready
  have hdecided' := hf.decided hsafe h.ready
  constructor
  · rintro rfl
    have hmaintained := he.maintained hb.closure hb.symmetric hsafe h.maintained
    have hbalanced := hmaintained.consistent.supported.balanced hb.symmetric
    have hbound : ∀ i v, v ∈ e'.search.arena.effective i →
        v ∈ f.search.arena.effective i ∧ d.Allows i v := fun i v hv =>
      (hnarrowed.shown i v hv).imp_left (h.shown i v)
    obtain rfl : ok' = true := hnarrowed'.stands hbalanced hbound fun i hi =>
      hmaintained.whole i (hnarrowed.size.symm ▸ h.size_eq ▸ hi)
    refine ⟨rfl, hmaintained, hf.ready hsafe h.ready rfl,
      hnarrowed.size.trans h.size, ?_, ?_, ?_, hsolutions⟩
    · rw [hf.values hsafe h.ready, he.values hsafe h.maintained.ready, h.values]
    · exact hnarrowed'.kept _ hbalanced hbound
    · intro τ hτ hadmits
      obtain ⟨hadmits, hallows⟩ := (hdecided'.admits rfl τ hτ).mp hadmits
      exact (hdecided.admits rfl τ hτ).mpr ⟨h.admits τ hτ hadmits, hallows⟩
  · rintro rfl rfl τ hτ hadmits
    obtain ⟨hadmits, hallows⟩ := (hdecided'.admits rfl τ hτ).mp hadmits
    exact hdecided.failed rfl τ hτ (h.admits τ hτ hadmits) hallows

/-- **A value that no longer shows** where consistency is maintained leads to no
solution on the other side, which wastes its time on it. -/
theorem wasted (h : b.Beside m e f) (hb : b.Methodical m.size line)
    (hf : b.relaxed.Explores f (.accept i w) ok' f')
    (hw : w ∉ e.search.arena.effective i)
    (hcourse' : b.relaxed.Descends ok' f' flow' g' t') :
    f'.search.Wasted flow' t' := by
  have hsafe := hb.legal.isSafe
  have hi : i < e.search.arena.size := by
    cases hf with
    | left hpicks =>
        obtain ⟨x, hx, _⟩ := hpicks.offered
        exact h.size_eq ▸ Arena.lt_of_read hx
  apply hcourse'.wasted hb.legal
  intro hok
  refine ⟨hf.ready hsafe h.ready hok, fun τ hτ hadmits => ?_⟩
  obtain ⟨hadmits, hallows⟩ :=
    ((hf.decided hsafe h.ready).admits hok τ hτ).mp hadmits
  exact hw (hallows rfl ▸ h.admits τ hτ hadmits i hi)

/-- **Its refutation stands**, and leads to a call beside the same one. -/
theorem waits (h : b.Beside m e f) (hb : b.Methodical m.size line)
    (hf : b.relaxed.Explores f (.refute i w) ok' f')
    (hw : w ∉ e.search.arena.effective i)
    (hsolutions : f'.search.solutions.size = f.search.solutions.size) :
    ok' = true ∧ b.Beside m e f' := by
  have hsafe := hb.legal.isSafe
  have hnarrowed := hf.narrowed hsafe h.ready
  have hbalanced := h.maintained.consistent.supported.balanced hb.symmetric
  have hbound : ∀ j u, u ∈ e.search.arena.effective j →
      u ∈ f.search.arena.effective j ∧ (Decision.refute i w).Allows j u := by
    intro j u hu
    refine ⟨h.shown j u hu, fun hji huw => ?_⟩
    subst hji huw
    exact hw hu
  obtain rfl : ok' = true := hnarrowed.stands hbalanced hbound fun i hi =>
    h.maintained.whole i (h.size_eq ▸ hi)
  refine ⟨rfl, h.maintained, hf.ready hsafe h.ready rfl, h.size, ?_, ?_, ?_, ?_⟩
  · exact (hf.values hsafe h.ready).trans h.values
  · exact hnarrowed.kept _ hbalanced hbound
  · intro τ hτ hadmits
    exact h.admits τ hτ
      (((hf.decided hsafe h.ready).admits rfl τ hτ).mp hadmits).1
  · exact hsolutions.trans h.solutions

/-- **Where forward checking branches, the other search does too**, on the same
variable, and with the same value if that still shows. -/
theorem forks (h : b.Beside m e f) (hb : b.Methodical m.size line)
    (hattentive : b.Attentive e) (hattentive' : b.relaxed.Attentive f)
    (hf : b.relaxed.Picks f i w g') (hcourse : b.Descends true e flow g t) :
    ∃ v, b.Forks e i v flow t ∧ (w = v ∨ w ∉ e.search.arena.effective i) := by
  have hincomplete : e.search.arena.isComplete = false :=
    (Arena.isComplete_of_values h.values).symm.trans hf.incomplete
  obtain ⟨j, v, hforks⟩ :=
    hcourse.forks hb.legal h.maintained.ready h.maintained.whole hattentive
      hincomplete
  obtain ⟨g₀, he⟩ := hforks.picks
  obtain rfl : i = j := h.index hb he hf
  exact ⟨v, hforks, h.value hb he hf (hattentive _ .refl) (hattentive' _ .refl)⟩

/-- What is saved on a branch that both take, from what is saved between calls
side by side. -/
theorem saves (h : b.Beside m e f) (hb : b.Methodical m.size line)
    (he : b.Explores e d ok e') (hf : b.relaxed.Explores f d ok' f')
    (hsolutions : f'.search.solutions.size = e'.search.solutions.size)
    (hattentive : b.Attentive e) (hattentive' : b.relaxed.Attentive f)
    (hcourse : b.Descends ok e' flow g t)
    (hcourse' : b.relaxed.Descends ok' f' flow' g' t')
    (hbelow : ok' = true → b.Beside m e' f' → b.Attentive e' →
      b.relaxed.Attentive f' → b.Descends true e' flow g t →
      Search.Saves e'.search t f'.search t' flow flow') :
    Search.Saves e'.search t f'.search t' flow flow' := by
  obtain ⟨hstands, hfails⟩ := h.explores hb he hf hsolutions
  cases ok with
  | true =>
      obtain ⟨rfl, hbeside⟩ := hstands rfl
      exact hbelow rfl hbeside (hattentive.below he)
        (hattentive'.below hf) hcourse
  | false =>
      have hwasted := hcourse'.wasted hb.legal fun hok =>
        ⟨hf.ready hb.legal.isSafe h.ready hok, hfails rfl hok⟩
      cases hcourse with
      | failed => exact hwasted.saves hsolutions

/-- On the left branch as much has been found as before. -/
theorem saves_of_accept (h : b.Beside m e f) (hb : b.Methodical m.size line)
    (he : b.Explores e (.accept i v) ok e')
    (hf : b.relaxed.Explores f (.accept i v) ok' f')
    (hattentive : b.Attentive e) (hattentive' : b.relaxed.Attentive f)
    (hcourse : b.Descends ok e' flow g t)
    (hcourse' : b.relaxed.Descends ok' f' flow' g' t')
    (hbelow : ok' = true → b.Beside m e' f' → b.Attentive e' →
      b.relaxed.Attentive f' → b.Descends true e' flow g t →
      Search.Saves e'.search t f'.search t' flow flow') :
    Search.Saves e'.search t f'.search t' flow flow' :=
  h.saves hb he hf (by rw [he.solutions, hf.solutions, h.solutions]) hattentive
    hattentive' hcourse hcourse' hbelow

end Beside

/-- **Maintaining consistency saves nodes and backtracks**, below calls side by
side, if no value is overlooked. -/
theorem Descends.saves (h : b.relaxed.Descends ok f flow' g' t')
    (hb : b.Methodical m.size line) (hok : ok = true) (hbeside : b.Beside m e f)
    (hattentive : b.Attentive e) (hattentive' : b.relaxed.Attentive f)
    (hcourse : b.Descends true e flow g t) :
    Search.Saves e.search t f.search t' flow flow' := by
  -- Induction on the longer search; where it wastes its time the other one
  -- waits.
  induction h generalizing e flow g t with
  | failed => cases hok
  | recorded hcomplete hrecord =>
      have hcomplete' : e.search.arena.isComplete :=
        (Arena.isComplete_of_values hbeside.values).symm.trans hcomplete
      exact (Search.saves_of_record (hcourse.records hcomplete') hrecord
        hbeside.solutions).node
  | unnamed hincomplete hselect =>
      exact absurd hselect
        (hb.legal.ne_none hbeside.ready.sound.orderly.numbered hincomplete)
  | @exhausted d g₀ _ s _ _ hincomplete hselect hx hvalue =>
      have hdry : b.relaxed.RunsDry ⟨d + 1, g₀, s⟩ :=
        ⟨hincomplete, _, _, _, hselect, hx, hvalue⟩
      exact absurd (hdry.overlooks hb.legal.isSafe hbeside.ready hbeside.whole)
        (hattentive' _ .refl)
  | stopped hpicks haccept hbelow hleft hend ih =>
      have hf := Explores.left hpicks haccept
      obtain ⟨v, hforks, rfl | hw⟩ :=
        hbeside.forks hb hattentive hattentive' hpicks hcourse
      · cases hforks with
        | stopped hpicks₀ haccept₀ hbelow₀ _ hend₀ =>
            have hsaves :=
              hbeside.saves_of_accept hb (.left hpicks₀ haccept₀) hf hattentive
                hattentive' hbelow₀ hbelow ih
            exact (hsaves.draws (draws_accept haccept₀)
              (Search.draws_of_account hend₀)
              (draws_accept haccept) (Search.draws_of_account hend)).node
        | both hpicks₀ haccept₀ hbelow₀ =>
            have hsaves :=
              hbeside.saves_of_accept hb (.left hpicks₀ haccept₀) hf hattentive
                hattentive' hbelow₀ hbelow ih
            cases hsaves.flow
      · have hwasted := hbeside.wasted hb hf hw hbelow
        cases hwasted.flow
  | both hpicks haccept hbelow₁ hleft hbetween hrefute hbelow₂ hend ih₁ ih₂ =>
      have hf₁ := Explores.left hpicks haccept
      have hf₂ := Explores.right hpicks hleft hrefute
      have hdraws :=
        (Search.draws_of_account hbetween).trans (draws_refute hrefute)
      obtain ⟨v, hforks, rfl | hw⟩ :=
        hbeside.forks hb hattentive hattentive' hpicks hcourse
      · cases hforks with
        | stopped hpicks₀ haccept₀ hbelow₀ =>
            have hsaves :=
              hbeside.saves_of_accept hb (.left hpicks₀ haccept₀) hf₁ hattentive
                hattentive' hbelow₀ hbelow₁ ih₁
            cases hsaves.flow
        | both hpicks₀ haccept₀ hbelow₀ hleft₀ hbetween₀ hrefute₀
            hbelow₀' hend₀ =>
            have hdraws₀ :=
              (Search.draws_of_account hbetween₀).trans (draws_refute hrefute₀)
            have hsaves₁ :=
              hbeside.saves_of_accept hb (.left hpicks₀ haccept₀) hf₁ hattentive
                hattentive' hbelow₀ hbelow₁ ih₁
            have hsaves₂ :=
              hbeside.saves hb (.right hpicks₀ hleft₀ hrefute₀) hf₂
                (by rw [hdraws.solutions, hdraws₀.solutions, hsaves₁.solutions])
                hattentive hattentive' hbelow₀' hbelow₂ ih₂
            have hsaves :=
              hsaves₁.draws (draws_accept haccept₀) hdraws₀
                (draws_accept haccept) hdraws
            exact (hsaves.trans
              (hsaves₂.draws (.refl _) (Search.draws_of_account hend₀) (.refl _)
              (Search.draws_of_account hend))).node
      · have hwasted :=
          ((hbeside.wasted hb hf₁ hw hbelow₁).draws (draws_accept haccept)
            hdraws).node
        obtain ⟨rfl, hbeside'⟩ :=
          hbeside.waits hb hf₂ hw (congrArg Array.size hwasted.solutions)
        have hsaves :=
          ih₂ rfl hbeside' hattentive (hattentive'.below hf₂) hcourse
        exact (hsaves.waits hwasted).draws (.refl _) (.refl _) (.refl _)
          (Search.draws_of_account hend)

end Branching

/-! ## From the root -/

namespace Algorithm

variable {σ : Type} {b : Branching σ} {m : Arena} {g g' g₁ g₁' : σ} {r : Call σ}
  {s s' : Search} {line : List Nat}

/-- **The searches begin side by side.** -/
theorem Begins.beside (h : Begins b m g .maintainArcConsistency r)
    (hfull : b.propagator.closure = .full)
    (hposed : m.Posed b.propagator.network) (g' : σ) :
    b.Beside m r ⟨m.depth, g', .begin m⟩ := by
  have hmaintained := h.maintained hfull hposed
  have hbegins :
      Begins b.relaxed m g' .forwardChecking ⟨m.depth, g', .begin m⟩ :=
    .forwardChecking
  have hready := hbegins.ready hposed.fresh hposed.numbered hposed.within
  cases h with
  | maintainArcConsistency hroot =>
      have hp :=
        propagated_of_propagateAll hroot hposed.fresh hposed.numbered
          hposed.within
      refine ⟨hmaintained, hready, hp.later.size, hp.later.values.symm,
        ?_, ?_, ?_⟩
      · exact fun i v hv => hp.later.effective hv
      · exact fun τ hτ hadmits => (hp.admits hposed.within hτ).mpr hadmits
      · rw [(Search.draws_propagate hroot).solutions]

/-- What two explorations count, if no value is overlooked. -/
theorem Explored.dominates (h : Explored b m g .maintainArcConsistency g₁ s)
    (h' : Explored b.relaxed m g' .forwardChecking g₁' s')
    (hb : b.Methodical m.size line) (hposed : m.Posed b.propagator.network)
    (hattentive : ∀ e, Makes .maintainArcConsistency b m g e → ¬ b.Overlooks e)
    (hattentive' : ∀ e, Makes .forwardChecking b.relaxed m g' e →
      ¬ b.relaxed.Overlooks e) :
    s.tally.nodes ≤ s'.tally.nodes ∧
    s.tally.backtracks ≤ s'.tally.backtracks := by
  cases h with
  | failed hroot hend =>
      obtain ⟨_, hnodes, hbacktracks, _⟩ := counts_of_propagateAll hroot
      rw [Search.tally_of_account hend, hnodes, hbacktracks]
      exact ⟨Nat.zero_le _, Nat.zero_le _⟩
  | searched hbegins hdraws hsearch hend =>
      cases h' with
      | searched hbegins' _ hsearch' hend' =>
          have hkept := fun e hreaches =>
            hattentive e ((makes_of_begins hbegins).mpr hreaches)
          have hlooked := fun e hreaches =>
            hattentive' e ((makes_of_begins hbegins').mpr hreaches)
          have hcourse := Branching.descends_of_search hsearch
          have hcourse' := Branching.descends_of_search hsearch'
          cases hbegins' with
          | forwardChecking =>
              have hsaves :=
                hcourse'.saves hb rfl (hbegins.beside hb.closure hposed g')
                  hkept hlooked hcourse
              have hnodes := hsaves.nodes
              have hbacktracks := hsaves.backtracks
              rw [Search.tally_of_account hend, Search.tally_of_account hend']
              simp only [hdraws.drawn.nodes, hdraws.drawn.backtracks]
                at hnodes hbacktracks
              exact ⟨by omega, by omega⟩

/-- **Maintaining consistency dominates forward checking.**  Both solve an
instance under the same static order, value order and limit.  If neither
overlooks a value, the one that maintains consistency counts no more nodes and
no more backtracks than the other; and none is overlooked under the ascending
value order, or if no variable starts with 2047 values or more. -/
theorem maintaining_dominates {c : Instance} {net : Network}
    (hbuild : c.build = .ok (m, net)) {o : VariableOrder} (ho : o.IsStatic)
    (valueOrder : ValueOrder) (limit : Limit) (g g' : Random.Generator) :
    let keep := maintainArcConsistency.branching o.select valueOrder limit net
    let look := forwardChecking.branching o.select valueOrder limit net
    ∃ r r', maintainArcConsistency.solve o.select valueOrder limit net m g =
        .ok r ∧
      forwardChecking.solve o.select valueOrder limit net m g' = .ok r' ∧
      let dominates := r.outcome.tally.nodes ≤ r'.outcome.tally.nodes ∧
        r.outcome.tally.backtracks ≤ r'.outcome.tally.backtracks
      ((∀ e, maintainArcConsistency.Makes keep m g e → ¬ keep.Overlooks e) →
        (∀ e, forwardChecking.Makes look m g' e → ¬ look.Overlooks e) →
          dominates) ∧
      ((valueOrder = .ascending ∨
          ∀ i x, m.read i = .ok x → x.initial.size < 2047) →
        dominates) := by
  intro keep look
  have hposed : m.Posed net := Instance.posed_of_build hbuild
  have hsafe : o.select.IsSafe := o.isLegal.isSafe
  have hb : keep.Methodical m.size (o.line net m.size) :=
    ⟨o.isLegal, VariableOrder.goesAlong ho net m.size, rfl, hposed.symmetric⟩
  obtain ⟨g₁, s, hexplore, _, htrail, _⟩ :=
    explore_of_isFresh (b := keep) maintainArcConsistency g
      hsafe hposed.fresh hposed.numbered hposed.within
  obtain ⟨g₁', s', hexplore', _, htrail', _⟩ :=
    explore_of_isFresh (b := look) forwardChecking g'
      hsafe hposed.fresh hposed.numbered hposed.within
  have hexplored' : Explored keep.relaxed m g' .forwardChecking g₁' s' :=
    explored_of_explore hexplore'
  have hdominates :=
    (explored_of_explore hexplore).dominates hexplored' hb hposed
  refine ⟨_, _, solve_of_explore hexplore htrail,
    solve_of_explore hexplore' htrail', hdominates,
    fun hfew => hdominates (fun e hmakes => ?_) fun e hmakes => ?_⟩
  · exact (hmakes.ready hsafe hposed.fresh hposed.numbered
      hposed.within).not_overlooks hfew
  · exact (hmakes.ready hsafe hposed.fresh hposed.numbered
      hposed.within).not_overlooks hfew

/-- Two variables with one constraint between them, under the descending value
order. -/
theorem maintaining_dominates_of_two :
    let net := Instance.coupleNetwork
    let m := Instance.coupleArena
    let o : VariableOrder := .mostConstrainedFirst
    ∃ r r', maintainArcConsistency.solve o.select .descending .all net m
        (.ofSeed 7) = .ok r ∧
      forwardChecking.solve o.select .descending .all net m (.ofSeed 8) =
        .ok r' ∧
      r.outcome.tally.nodes ≤ r'.outcome.tally.nodes ∧
      r.outcome.tally.backtracks ≤ r'.outcome.tally.backtracks := by
  intro net m o
  have hbuild : Instance.couple.build = .ok (m, net) := Instance.build_couple
  obtain ⟨r, r', hr, hr', _, hdominates⟩ := maintaining_dominates hbuild
    (Or.inr rfl : o.IsStatic) .descending .all (.ofSeed 7) (.ofSeed 8)
  exact ⟨r, r', hr, hr', hdominates (.inr Instance.size_initial_couple)⟩

end Algorithm

end ConstraintNet
