import ConstraintNet.Proofs.Narrowing
import ConstraintNet.Proofs.Partition

/-!
# Wipeouts

A revision empties the tail of its arc only if it empties the head as well: a
value that is left at the head has a partner among the values left at the tail.
So it is enough to look at the head after each revision.  While propagation goes
on no variable is wiped out, and the flag that it ends with tells whether one
is.

No solution is lost on the way.  What propagation excludes has no partner across
some arc, in either direction, and a solution has partners across all arcs.
-/

namespace ConstraintNet

/-- Every variable shows something if none is wiped out. -/
theorem Arena.whole_iff {m : Arena} :
    m.Whole ↔ ∀ i x, m.read i = .ok x → x.isWipedOut = false := by
  constructor
  · intro h i x hx
    obtain ⟨v, hv⟩ := h i (lt_of_read hx)
    rw [effective_of_read hx] at hv
    exact Bool.eq_false_iff.mpr fun hwiped =>
      Variable.isWipedOut_iff.mp hwiped v hv
  · intro h i hi
    obtain ⟨x, hx⟩ := exists_read hi
    rw [effective_of_read hx]
    exact Variable.exists_mem_effective (h i x hx)

namespace Propagator

variable {p : Propagator} {seed : List Arc} {w u t : Workspace} {q q' : Agenda}
  {ok : Bool}

/-- A propagation passes an agenda and a workspace, one step after the other. -/
inductive Passes (p : Propagator) : Agenda → Workspace → Agenda →
    Workspace → Prop
  | here (q : Agenda) (w : Workspace) : Passes p q w q w
  | on {q q' q'' : Agenda} {w w' w'' : Workspace} {changed : Option Arc}
      (hstep : p.step q w = .ok (.going q' w' changed))
      (hpasses : Passes p q' w' q'' w'') :
      Passes p q w q'' w''

/-- What holds underway holds at all that a propagation passes. -/
theorem Underway.passes (h : Underway p seed w q u) (hcalm : w.arena.Calm)
    (hnet : p.network.Within w.arena.size) (hpasses : p.Passes q u q' t) :
    Underway p seed w q' t := by
  induction hpasses with
  | here => exact h
  | on hstep _ ih =>
      obtain ⟨s, hs, hstepped⟩ := step_of_calm (p := p) (h.later.calm hcalm)
        (fun a ha => h.later.size.symm ▸ h.waiting a ha)
      rw [hstep] at hs
      cases hs
      exact ih (h.leads hnet hstepped)

/-- No variable is emptied while propagation goes on. -/
theorem Underway.whole (h : Underway p seed w q u) (hw : w.arena.Whole) :
    u.arena.Whole := by
  intro i hi
  obtain ⟨v, hv⟩ := hw i (h.later.size ▸ hi)
  exact h.left i v hv

/-- The flag tells whether a variable was emptied. -/
theorem Propagated.eq_true_iff_whole (h : Propagated p seed w ok u)
    (hw : w.arena.Whole) : ok = true ↔ u.arena.Whole := by
  constructor
  · intro hok i hi
    obtain ⟨v, hv⟩ := hw i (h.later.size ▸ hi)
    exact h.left hok i v hv
  · intro hu
    cases ok with
    | true => rfl
    | false =>
        obtain ⟨i, hi, hempty⟩ := h.failed rfl
        obtain ⟨v, hv⟩ := hu i (h.later.size.symm ▸ hi)
        exact absurd hv (hempty v)

/-- **Propagation loses no solution, and fails just when it wipes a variable
out.**  This holds on any network, one-way arcs and arcs from a variable to
itself included, under both closures and from any arcs, of variables to which
anything was done before, if none of them is wiped out and no marks wait.  The
tail of an arc that is served is never wiped out, so that every failure is that
of a revision. -/
theorem propagate_eq_true_iff (p : Propagator) (seed : List Arc) (w : Workspace)
    (hnet : p.network.Within w.arena.size)
    (hseed : ∀ a ∈ seed, a.Within w.arena.size)
    (hvars : ∀ i x, w.arena.read i = .ok x →
      x.IsDerived ∧ x.pending = ∅ ∧ x.isWipedOut = false) :
    (∃ ok u, p.propagate seed w = .ok (ok, u) ∧ u.arena.size = w.arena.size ∧
      (∀ τ, w.arena.Admits τ → p.network.Holds τ → u.arena.Admits τ) ∧
      (ok = true ↔ ∀ i x, u.arena.read i = .ok x → x.isWipedOut = false) ∧
      (ok = false → ¬ ∃ τ, w.arena.Admits τ ∧ p.network.Holds τ)) ∧
    (∀ q u, p.Passes (.ofList seed) w q u → ∀ a rest, q.pop? = some (a, rest) →
      ∃ x, u.arena.read a.tail = .ok x ∧ x.isWipedOut = false) := by
  have hcalm : w.arena.Calm := fun i x hx =>
    (hvars i x hx).1.calm (hvars i x hx).2.1
  have hwhole : w.arena.Whole :=
    Arena.whole_iff.mpr fun i x hx => (hvars i x hx).2.2
  constructor
  · obtain ⟨ok, u, hrun, hpropagated⟩ := propagate_of_calm hcalm hnet hseed
    refine ⟨ok, u, hrun, hpropagated.later.size, ?_, ?_, ?_⟩
    · exact fun τ hτ hholds => (hpropagated.admits hnet hholds).mpr hτ
    · exact (hpropagated.eq_true_iff_whole hwhole).trans Arena.whole_iff
    · rintro rfl ⟨τ, hτ, hholds⟩
      exact hpropagated.not_admits hnet hholds hτ
  · intro q u hpasses a rest hpop
    have hunderway := (Underway.start hseed).passes hcalm hnet hpasses
    obtain ⟨htail, _⟩ :=
      hunderway.waiting a ((Agenda.mem_of_pop? hpop).mpr (Or.inl rfl))
    obtain ⟨x, hx⟩ := Arena.exists_read (hunderway.later.size.symm ▸ htail)
    exact ⟨x, hx, Arena.whole_iff.mp (hunderway.whole hwhole) _ x hx⟩

/-- Two variables, of which one was pruned and assigned and the other has a
mark, with a one-way arc between them, an arc from the second to itself, and an
arc without constraint to start from. The assignment of `1` to both is kept. -/
theorem propagate_eq_true_iff_of_two :
    let net := Network.ofConstraints [
      { first := 0, second := 1, pairs := [(1, 0), (1, 1), (2, 2)] },
      { first := 1, second := 1, pairs := [(1, 1), (0, 2)] }]
    let x : Variable := .fresh 0 (.ofList [0, 1, 2])
    let y : Variable := .fresh 1 (.ofList [0, 1, 2])
    ∃ x' y', x.performAll [.prune 0, .assign 1] = .ok x' ∧
      y.performAll [.mark (· != 2), .commit] = .ok y' ∧
      let w : Workspace := { arena := .ofList [x', y'] }
      let p : Propagator := ⟨net, .frontier⟩
      let seed : List Arc := [⟨1, 0⟩, ⟨0, 1⟩, ⟨1, 1⟩]
      (∃ ok u, p.propagate seed w = .ok (ok, u) ∧ u.arena.size = w.arena.size ∧
        (∀ τ, w.arena.Admits τ → p.network.Holds τ → u.arena.Admits τ) ∧
        (ok = true ↔ ∀ i x, u.arena.read i = .ok x → x.isWipedOut = false) ∧
        (ok = false → ¬ ∃ τ, w.arena.Admits τ ∧ p.network.Holds τ) ∧
        u.arena.Admits fun _ => 1) ∧
      (∀ q u, p.Passes (.ofList seed) w q u →
          ∀ a rest, q.pop? = some (a, rest) →
        ∃ x, u.arena.read a.tail = .ok x ∧ x.isWipedOut = false) := by
  intro net x y
  obtain ⟨x', hx', hxpending, hxleft, hxshown⟩ : ∃ x',
    x.performAll [.prune 0, .assign 1] = .ok x' ∧
      x'.pending.isEmpty ∧ x'.isWipedOut = false ∧ (1 : Int) ∈ x'.effective :=
    ⟨_, rfl, by decide +kernel, by decide +kernel, by decide +kernel⟩
  obtain ⟨y', hy', hypending, hyleft, hyshown⟩ : ∃ y',
      y.performAll [.mark (· != 2), .commit] = .ok y' ∧ y'.pending.isEmpty ∧
        y'.isWipedOut = false ∧ (1 : Int) ∈ y'.effective :=
    ⟨_, rfl, by decide +kernel, by decide +kernel, by decide +kernel⟩
  refine ⟨x', y', hx', hy', ?_⟩
  intro w p seed
  have hsize : w.arena.size = 2 := rfl
  have harcs : net.arcs = [⟨0, 1⟩, ⟨1, 1⟩] := by decide +kernel
  have hnet : net.Within w.arena.size := by
    intro a ha
    rw [harcs] at ha
    rw [hsize]
    revert a
    decide
  have hseed : ∀ a ∈ seed, a.Within w.arena.size := by
    rw [hsize]
    decide
  have hvars : ∀ i z, w.arena.read i = .ok z →
      z.IsDerived ∧ z.pending = ∅ ∧ z.isWipedOut = false := by
    intro i z hz
    match i, hz with
    | 0, hz =>
      cases hz
      exact ⟨⟨0, _, _, hx'⟩, Std.ExtTreeSet.isEmpty_iff.mp hxpending, hxleft⟩
    | 1, hz =>
      cases hz
      exact ⟨⟨1, _, _, hy'⟩, Std.ExtTreeSet.isEmpty_iff.mp hypending, hyleft⟩
  have hadmits : w.arena.Admits fun _ => 1 := by
    intro i hi
    match i, hi with
    | 0, _ => exact hxshown
    | 1, _ => exact hyshown
  have hholds : net.Holds fun _ => 1 :=
    ((Network.holds_empty _).insert (by decide)).insert (by decide)
  obtain ⟨⟨ok, u, hrun, hsame, hkept, hflag, hnone⟩, hpasses⟩ :=
    propagate_eq_true_iff p seed w hnet hseed hvars
  exact ⟨⟨ok, u, hrun, hsame, hkept, hflag, hnone, hkept _ hadmits hholds⟩,
    hpasses⟩

end Propagator

end ConstraintNet
