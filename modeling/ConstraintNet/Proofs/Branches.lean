import ConstraintNet.Proofs.Decisions

/-!
# Both branches of a node

Whatever is searched below the two branches of a node, if it leaves variables
and trail as it found them, then so does the node.  The trail is rewound at the
end of each branch; the value comes off the variable by itself, and the choice
is retired after both.

`Course` says what a node does below itself: which of the two decisions let the
search go on, and with what state it did.
-/

namespace ConstraintNet

/-- Alike variables became of the same. -/
theorem Variable.Later.alike {x y z : Variable} {p m : Nat} (h : x.Later y p m)
    (hyz : y.Alike z) : x.Later z p m where
  id := hyz.id.trans h.id
  initial := hyz.initial.trans h.initial
  value := hyz.value.trans h.value
  tried := hyz.tried.trans h.tried
  pruned := hyz.pruned ▸ h.pruned
  marked := hyz.marked ▸ h.marked
  pruned_kind := hyz.pruned ▸ h.pruned_kind
  marked_kind := hyz.marked ▸ h.marked_kind
  domain v hv := h.domain v ((hyz.domain v).mp hv)
  excluded v hv := hyz.marked ▸ h.excluded v hv
  calm hx := ⟨hyz.pending.trans (h.calm hx).pending, fun v hv => hyz.pruned ▸
    (h.calm hx).not_pruned v ((hyz.domain v).mp hv)⟩
  settled hx := hyz.settled (h.settled hx)

/-- What restores a later workspace exactly, its trail included, is later as
well. -/
theorem Workspace.Later.alike {w u t : Workspace} (h : w.Later u)
    (harena : u.arena.Alike t.arena) (htrail : t.trail = u.trail) :
    w.Later t where
  size := harena.size.trans h.size
  trail := by
    obtain ⟨prunes, marks, hprunes, hmarks, hlt, hread⟩ := h.trail
    refine ⟨prunes, marks, htrail ▸ hprunes, htrail ▸ hmarks, hlt,
      fun i x hx => ?_⟩
    obtain ⟨y, hy, hxy⟩ := hread i x hx
    obtain ⟨z, hz, hyz⟩ := harena.read i y hy
    exact ⟨z, hz, hxy.alike hyz⟩

namespace Search

variable {s t : Search} {i : Nat} {x : Variable} {v : Int}

/-- Rewinding what was searched below a decision. -/
theorem rewind_eq {w : Workspace} (h : w.Later t.toWorkspace)
    (hsettled : ∀ i x, w.arena.read i = .ok x → x.Settled) :
    ∃ a, t.rewind w.trail.checkpoint =
        .ok ⟨⟨a, w.trail, t.tally⟩, t.solutions⟩ ∧
      w.arena.Alike a := by
  obtain ⟨a, hrewind, halike⟩ := Workspace.rewind_later h hsettled
  exact ⟨a, modify_eq (f := fun w' => w'.rewind w.trail.checkpoint) hrewind,
    halike⟩

/-- Taking the accepted value away. -/
theorem unassign_of_alike (hi : i < s.arena.size)
    (h : (s.arena.write i (x.assign v)).Alike t.arena) :
    ∃ y, t.unassign i = .ok (t.write i y) ∧
      (s.arena.write i (x.assign v).unassign).Alike (t.arena.write i y) := by
  obtain ⟨y, hy, hxy⟩ := h.read i _ (Arena.read_write_self hi _)
  refine ⟨y.unassign, unassign_eq hy, ?_⟩
  have hunassign : (x.assign v).unassign.Alike y.unassign :=
    { hxy with value := rfl }
  have := h.write ((Arena.size_write _ _ _).symm ▸ hi) hunassign
  rwa [Arena.write_write] at this

/-- Retiring the choice. -/
theorem retire_of_alike (hx : s.arena.read i = .ok x) (hvalue : x.value = none)
    (h : (s.arena.write i (x.assign v).unassign).Alike t.arena) :
    ∃ y, t.retire i = .ok (t.write i y) ∧
      s.arena.Alike (t.arena.write i y) := by
  have hi : i < s.arena.size := Arena.lt_of_read hx
  obtain ⟨y, hy, hxy⟩ := h.read i _ (Arena.read_write_self hi _)
  have htried : y.tried.pop? = some (v, x.tried) := by
    rw [hxy.tried]
    exact Choices.pop?_push x.tried v
  refine ⟨{ y with tried := x.tried },
    retire_eq hy (by rw [Variable.retire, htried]), ?_⟩
  have hretired : x.Alike { y with tried := x.tried } :=
    { hxy with tried := rfl, value := hxy.value.trans hvalue.symm }
  have := h.write ((Arena.size_write _ _ _).symm ▸ hi) hretired
  rwa [Arena.write_write, Arena.write_self hx] at this

end Search

namespace Branching

variable {σ : Type} {b : Branching σ}
  {below : σ → Search → Except Fault (Flow × σ × Search)} {s t : Search}
  {i : Nat} {x : Variable} {v : Int} {g : σ}

/-- What is searched below leaves variables and trail as it finds them. -/
def Restores (below : σ → Search → Except Fault (Flow × σ × Search)) (g : σ)
    (t : Search) : Prop :=
  ∃ flow g' r, below g t = .ok (flow, g', r) ∧ t.arena.Alike r.arena ∧
    r.trail = t.trail

/-- What a branch does below its decision: it searches there if the decision let
it. -/
def Visits (below : σ → Search → Except Fault (Flow × σ × Search)) (g : σ)
    (ok : Bool) (t : Search) (flow : Flow) (g' : σ) (r : Search) : Prop :=
  if ok then ∃ u, below g t = .ok (flow, g', u) ∧ r.solutions = u.solutions
  else flow = .goOn ∧ g' = g ∧ r.solutions = t.solutions

/-- Going below a decision and rewinding to the state `w` before it. -/
theorem descend_rewind {w : Workspace} (hlater : w.Later t.toWorkspace)
    (hsettled : ∀ i x, w.arena.read i = .ok x → x.Settled) {ok : Bool}
    (hbelow : ok = true → Restores below g t) :
    ∃ flow g' u r, descend below g ok t = .ok (flow, g', u) ∧
      u.rewind w.trail.checkpoint = .ok r ∧ w.arena.Alike r.arena ∧
      r.trail = w.trail ∧
      Visits below g ok t flow g' r := by
  cases ok with
  | true =>
      obtain ⟨flow, g', u, hrun, halike, htrail⟩ := hbelow rfl
      obtain ⟨a, hrewind, ha⟩ :=
        Search.rewind_eq (hlater.alike halike htrail) hsettled
      refine ⟨flow, g', u, _, ?_, hrewind, ha, rfl, ?_⟩
      · rw [descend, if_pos rfl, hrun]
      · rw [Visits, if_pos rfl]
        exact ⟨u, hrun, rfl⟩
  | false =>
      have hbacktrack : w.Later t.backtrack.toWorkspace :=
        ⟨hlater.size, hlater.trail⟩
      obtain ⟨a, hrewind, ha⟩ := Search.rewind_eq hbacktrack hsettled
      refine ⟨.goOn, g, t.backtrack, _, rfl, hrewind, ha, rfl, ?_⟩
      rw [Visits, if_neg Bool.false_ne_true]
      exact ⟨rfl, rfl, rfl⟩

/-- A left branch is an acceptance, a descent and a restoration, in this order,
whether or not the acceptance stood. -/
theorem left_eq (below : σ → Search → Except Fault (Flow × σ × Search))
    (i : Nat) (v : Int) (g : σ) (entry : Checkpoint) (s : Search) :
    b.left below i v g entry s = (do
      let (consistent, s) ← b.accept i v s
      let (flow, g, s) ← descend below g consistent s
      let s ← s.rewind entry
      return (flow, g, ← s.unassign i)) := by
  simp only [left, accept, bind_assoc]

/-- **The left branch** leaves the value as a choice without assignment. -/
theorem left_of_offers (hs : s.Sound b.propagator.network)
    (ho : s.arena.Offers i x v)
    (hbelow : ∀ t, b.accept i v s = .ok (true, t) → Restores below g t) :
    ∃ ok t, b.accept i v s = .ok (ok, t) ∧ t.solutions = s.solutions ∧
      Decided b.propagator.network s (fun τ => τ i = v) ok t ∧
      ∃ flow g' r, b.left below i v g s.trail.checkpoint s = .ok (flow, g', r) ∧
        (s.arena.write i (x.assign v).unassign).Alike r.arena ∧
        r.trail = s.trail ∧
        Visits below g ok t flow g' r := by
  have hi : i < s.arena.size := Arena.lt_of_read ho.read
  obtain ⟨ok, t, haccept, hsolutions, hlater, hdecided⟩ :=
    accept_of_offers hs ho
  have hsettled := (hs.orderly.write_assign ho.read ho.value ho.live).settled
  have hrestores : ok = true → Restores below g t := by
    intro heq
    subst heq
    exact hbelow t haccept
  obtain ⟨flow, g', u, r, hdescend, hrewind, halike, htrail, hvisits⟩ :=
    descend_rewind hlater hsettled hrestores
  obtain ⟨y, hunassign, hopened⟩ := Search.unassign_of_alike hi halike
  refine ⟨ok, t, haccept, hsolutions, hdecided, flow, g', r.write i y, ?_,
    hopened, htrail, hvisits⟩
  rw [left_eq]
  simp only [haccept, hdescend, bind, Except.bind, pure, Except.pure]
  rw [show s.trail.checkpoint =
    (s.write i (x.assign v)).trail.checkpoint from rfl, hrewind]
  simp only [hunassign]

/-- **The right branch**, after the left one, leaves everything as it finds
it. -/
theorem right_of_offers (hs : s.Sound b.propagator.network)
    (ho : s.arena.Offers i x v)
    (ht : (s.arena.write i (x.assign v).unassign).Alike t.arena)
    (hbelow : ∀ u, b.refute i v t = .ok (true, u) → Restores below g u) :
    ∃ ok u, b.refute i v t = .ok (ok, u) ∧ u.solutions = t.solutions ∧
      Decided b.propagator.network s (fun τ => τ i ≠ v) ok u ∧
      ∃ flow g' r, b.right below i v g t.trail.checkpoint t =
          .ok (flow, g', r) ∧
        t.arena.Alike r.arena ∧ r.trail = t.trail ∧
        Visits below g ok u flow g' r := by
  have hi : i < s.arena.size := Arena.lt_of_read ho.read
  obtain ⟨ok, u, hrefute, hsolutions, hlater, hdecided⟩ :=
    refute_of_offers (b := b) hs ho ht
  have hsettled : ∀ j z, t.arena.read j = .ok z → z.Settled := by
    intro j z hz
    obtain ⟨z', hz', hzz⟩ := ht.read_back hz
    rcases (Arena.read_write hi).mp hz' with ⟨rfl, rfl⟩ | ⟨_, hz'⟩
    · exact hzz.settled { hs.orderly.settled j x ho.read with }
    · exact hzz.settled (hs.orderly.settled j z' hz')
  have hrestores : ok = true → Restores below g u := by
    intro heq
    subst heq
    exact hbelow u hrefute
  obtain ⟨flow, g', u', r, hdescend, hrewind, halike, htrail, hvisits⟩ :=
    descend_rewind hlater hsettled hrestores
  refine ⟨ok, u, hrefute, hsolutions, hdecided, flow, g', r, ?_, halike,
    htrail, hvisits⟩
  simp only [right, hrefute, hdescend, hrewind, bind, Except.bind, pure,
    Except.pure]

/-- What a node that branches does below itself, and what it answers. -/
inductive Course (b : Branching σ)
    (below : σ → Search → Except Fault (Flow × σ × Search))
    (i : Nat) (v : Int) (g : σ) (s : Search) : Flow → σ → Search → Prop
  /-- The left branch met the limit. -/
  | stopped {t r r' : Search} {g' : σ}
      (haccept : b.accept i v s = .ok (true, t))
      (hsolutions : t.solutions = s.solutions)
      (hdecided : Decided b.propagator.network s (fun τ => τ i = v) true t)
      (hvisits : Visits below g true t .stop g' r)
      (hleft : b.left below i v g s.trail.checkpoint s = .ok (.stop, g', r))
      (hend : r'.solutions = r.solutions) : Course b below i v g s .stop g' r'
  /-- The left branch went on, and so the right one was searched too. -/
  | both {ok ok' : Bool} {t r t' r' r'' : Search} {g' g'' : σ} {flow : Flow}
      (haccept : b.accept i v s = .ok (ok, t))
      (hsolutions : t.solutions = s.solutions)
      (hdecided : Decided b.propagator.network s (fun τ => τ i = v) ok t)
      (hvisits : Visits below g ok t .goOn g' r)
      (hleft : b.left below i v g s.trail.checkpoint s = .ok (.goOn, g', r))
      (hrefute : b.refute i v r = .ok (ok', t'))
      (hsolutions' : t'.solutions = r.solutions)
      (hdecided' : Decided b.propagator.network s (fun τ => τ i ≠ v) ok' t')
      (hvisits' : Visits below g' ok' t' flow g'' r')
      (hend : r''.solutions = r'.solutions) :
      Course b below i v g s flow g'' r''

/-- **A node that branches** leaves variables and trail as it finds them, if the
searches below it do. -/
theorem branch_of_offers (hs : s.Sound b.propagator.network)
    (ho : s.arena.Offers i x v)
    (haccepted : ∀ t, b.accept i v s = .ok (true, t) → Restores below g t)
    (hrefuted : ∀ g' r t,
      b.left below i v g s.trail.checkpoint s = .ok (.goOn, g', r) →
      b.refute i v r = .ok (true, t) → Restores below g' t) :
    ∃ flow g' t, b.branch below i v g s.trail.checkpoint s = .ok (flow, g', t) ∧
      s.arena.Alike t.arena ∧ t.trail = s.trail ∧
      Course b below i v g s flow g' t := by
  obtain ⟨ok, t, haccept, hsolutions, hdecided, flow, g', r, hleft, hopened,
      htrail, hvisits⟩ :=
    left_of_offers hs ho haccepted
  cases flow with
  | stop =>
      have hok : ok = true := by
        cases ok with
        | true => rfl
        | false =>
            rw [Visits, if_neg Bool.false_ne_true] at hvisits
            cases hvisits.1
      subst hok
      obtain ⟨y, hretire, halike⟩ :=
        Search.retire_of_alike ho.read ho.value hopened
      refine ⟨.stop, g', r.write i y, ?_, halike, htrail,
        .stopped haccept hsolutions hdecided hvisits hleft rfl⟩
      have hcheck : (r.write i y).trail.checkpoint = s.trail.checkpoint :=
        congrArg Trail.checkpoint htrail
      simp only [branch, hleft, hretire, hcheck, if_true, bind, Except.bind,
        pure, Except.pure]
  | goOn =>
      have hrestores : ∀ u, b.refute i v r = .ok (true, u) →
          Restores below g' u :=
        fun u hu => hrefuted g' r u hleft hu
      obtain ⟨ok', t', hrefute, hsolutions', hdecided', flow, g'', r', hright,
        halike, htrail',
        hvisits'⟩ := right_of_offers hs ho hopened hrestores
      obtain ⟨y, hretire, halike'⟩ :=
        Search.retire_of_alike ho.read ho.value (hopened.trans halike)
      refine ⟨flow, g'', r'.write i y, ?_, halike', htrail'.trans htrail,
        .both haccept hsolutions hdecided hvisits hleft hrefute hsolutions'
          hdecided' hvisits' rfl⟩
      have hcheck : (r'.write i y).trail.checkpoint = s.trail.checkpoint :=
        congrArg Trail.checkpoint (htrail'.trans htrail)
      simp only [branch, hleft, hright, hretire, hcheck, if_true, bind,
        Except.bind, pure, Except.pure]

end Branching

end ConstraintNet
