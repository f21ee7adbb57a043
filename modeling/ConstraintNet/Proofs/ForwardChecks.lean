import ConstraintNet.Proofs.Arrivals
import ConstraintNet.Proofs.Charges
import ConstraintNet.Proofs.Insertions

/-!
# Forward checking

Propagation under frontier closure, from the arcs that leave a variable with a
value, is one pass over its neighbours in ascending order.  At a neighbour that
shows a value which goes with it, the value stays and the neighbour keeps what
goes with it, in sight or not.  Nothing is pruned, so that no arc comes back on
the agenda.

At the first neighbour that shows no such value the pass ends: the value itself
is pruned, all that the neighbour has left is marked, and it is wiped out.

* `step_of_spares`, `step_of_not_spares` — the two ways in which a neighbour is
  served;
* `serves_of_value` — the pass over a list of neighbours.
-/

namespace ConstraintNet

/-- Of an ascending list, what is at most an element is all up to this
element. -/
theorem filter_le_of_ascending {front back : List Nat} {j : Nat}
    (h : (front ++ j :: back).Pairwise (· < ·)) :
    (front ++ j :: back).filter (· ≤ j) = front ++ [j] := by
  obtain ⟨_, hback, hbefore⟩ := List.pairwise_append.mp h
  have hpassed : front.filter (· ≤ j) = front :=
    List.filter_eq_self.mpr fun k hk =>
      decide_eq_true (Nat.le_of_lt (hbefore k hk j List.mem_cons_self))
  have hpast : back.filter (· ≤ j) = [] :=
    List.filter_eq_nil_iff.mpr fun k hk => by
      rw [decide_eq_true_eq]
      exact Nat.not_le_of_lt ((List.pairwise_cons.mp hback).1 k hk)
  rw [List.filter_append, hpassed, List.filter_cons_of_pos (by simp), hpast]

namespace Network

variable {net : Network} {i j k : Nat} {v : Int} {js ks : List Nat}
  {w u t : Workspace}

/-- The variable at `j` shows a value that goes with the value `v` of the
variable at `i`. -/
def Spares (net : Network) (m : Arena) (i : Nat) (v : Int) (j : Nat) : Prop :=
  ∃ z ∈ net.supports v ⟨i, j⟩, z ∈ m.effective j

/-- What checking the variables at `js` against the value `v` of the variable at
`i` makes of a workspace: of their live values they keep those that go with `v`,
no variable is pruned, and all others stay as they are. -/
structure Filtered (net : Network) (i : Nat) (v : Int) (js : List Nat)
    (w u : Workspace) : Prop where
  size : u.arena.size = w.arena.size
  read : ∀ j y, w.arena.read j = .ok y → ∃ y', u.arena.read j = .ok y' ∧
    y'.domain = y.domain ∧ y'.pruned = y.pruned ∧
    (j ∈ js → ∀ z, z ∈ y'.live ↔ z ∈ y.live ∧ z ∈ net.supports v ⟨i, j⟩) ∧
    (j ∉ js → y' = y)
  trail : u.trail.pruned = w.trail.pruned

/-- Checking no variables changes nothing. -/
theorem filtered_nil (net : Network) (i : Nat) (v : Int) (w : Workspace) :
    net.Filtered i v [] w w where
  size := rfl
  read _ y hy := ⟨y, hy, rfl, rfl, nofun, fun _ => rfl⟩
  trail := rfl

/-- Checks of different variables do not concern each other. -/
theorem Filtered.cons (h : net.Filtered i v [j] w u)
    (h' : net.Filtered i v js u t) (hj : j ∉ js) :
    net.Filtered i v (j :: js) w t where
  size := h'.size.trans h.size
  read k y hy := by
    obtain ⟨y', hy', hdomain, hpruned, hlive, hsame⟩ := h.read k y hy
    obtain ⟨y₂, hy₂, hdomain', hpruned', hlive', hsame'⟩ := h'.read k y' hy'
    refine ⟨y₂, hy₂, hdomain'.trans hdomain, hpruned'.trans hpruned,
      fun hk => ?_, fun hk => ?_⟩
    · by_cases hkj : k = j
      · subst hkj
        rw [hsame' hj]
        exact hlive (List.mem_singleton_self k)
      · have hk : k ∈ js := (List.mem_cons.mp hk).resolve_left hkj
        rw [← hsame fun h => hkj (List.mem_singleton.mp h)]
        exact hlive' hk
    · rw [List.mem_cons, not_or] at hk
      rw [hsame' hk.2, hsame fun h => hk.1 (List.mem_singleton.mp h)]
  trail := h'.trail.trans h.trail

/-- A variable that is not checked is read as it was. -/
theorem Filtered.read_of_notMem (h : net.Filtered i v js w u) {y : Variable}
    (hy : w.arena.read k = .ok y) (hk : k ∉ js) : u.arena.read k = .ok y := by
  obtain ⟨y', hy', _, _, _, hsame⟩ := h.read k y hy
  rw [hy', hsame hk]

/-- Whether it shows a value that goes with the one assigned is as it was,
too. -/
theorem Filtered.spares_iff (h : net.Filtered i v js w u)
    (hk : k < w.arena.size) (hjs : k ∉ js) :
    net.Spares u.arena i v k ↔ net.Spares w.arena i v k := by
  obtain ⟨y, hy⟩ := Arena.exists_read hk
  rw [Spares, Spares, Arena.effective_of_read hy,
    Arena.effective_of_read (h.read_of_notMem hy hjs)]

/-- The supports on an arc are those of its constraint. -/
theorem supports_of_find? {a : Arc} {c : Constraint} (hc : net.find? a = some c)
    (v : Int) : net.supports v a = c.supports v := by
  rw [supports, hc]
  rfl

end Network

/-- A variable with a live value shows this value only. -/
theorem Variable.mem_effective_of_value {x : Variable} {v : Int}
    (hvalue : x.value = some v) (hlive : v ∈ x.live) {u : Int} :
    u ∈ x.effective ↔ u = v := by
  rw [Variable.mem_effective, hvalue]
  constructor
  · exact fun h => h.2 v rfl
  · rintro rfl
    exact ⟨hlive, fun w hw => Option.some.inj hw⟩

namespace Propagator

variable {net : Network} {q rest : Agenda} {w u : Workspace} {i j : Nat}
  {x : Variable} {v : Int} {js : List Nat} {ok : Bool}

section

variable (hcalm : w.arena.Calm) (hx : w.arena.read i = .ok x)
  (hvalue : x.value = some v) (hlive : v ∈ x.live)
  (hpop : q.pop? = some (⟨i, j⟩, rest)) (hij : i ≠ j)
  (hfind : (net.find? ⟨i, j⟩).isSome) (hj : j < w.arena.size)

include hcalm hx hvalue hlive hpop hij hfind hj

/-- **A neighbour that is spared keeps what goes with the value**, and nothing
else happens. -/
theorem step_of_spares (hspares : net.Spares w.arena i v j) :
    ∃ u changed, Propagator.step ⟨net, .frontier⟩ q w =
        .ok (.going rest u changed) ∧
      net.Filtered i v [j] w u ∧ u.arena.Calm := by
  obtain ⟨c, hc⟩ := Option.isSome_iff_exists.mp hfind
  obtain ⟨y, hy⟩ := Arena.exists_read hj
  obtain ⟨lost, gone, x', y', u, hrevise, h⟩ :=
    Network.revise_semijoined hij hc hx hy (hcalm _ x hx) (hcalm _ y hy)
  obtain ⟨z, hz, hzy⟩ := hspares
  rw [Network.supports_of_find? hc] at hz
  rw [Arena.effective_of_read hy] at hzy
  have hnone : lost = [] := by
    rw [List.eq_nil_iff_forall_not_mem]
    intro s hs
    obtain ⟨hshown, hmisses⟩ := (h.mem_lost s).mp hs
    rw [Variable.mem_effective_of_value hvalue hlive] at hshown
    exact hmisses z (hshown ▸ hz) hzy
  obtain rfl : x' = x := h.pruned.same hnone
  have hgone : ∀ s, s ∈ gone ↔ s ∈ y.live ∧ s ∉ c.supports v := by
    intro s
    rw [h.mem_gone]
    simp only [Variable.mem_effective_of_value hvalue hlive, forall_eq]
  have hfiltered : net.Filtered i v [j] w u := by
    refine ⟨h.size, fun k s hs => ?_,
      Track.ext_entries (by rw [h.trail_pruned, hnone]; rfl)⟩
    by_cases hkj : k = j
    · subst hkj
      obtain rfl := Arena.read_unique hs hy
      refine ⟨y', h.head, h.hidden.domain, h.hidden.pruned, fun _ t => ?_,
        fun hk => absurd (List.mem_singleton_self k) hk⟩
      rw [h.hidden.mem_live, hgone, Network.supports_of_find? hc,
        and_congr_right_iff]
      intro ht
      rw [not_and, Classical.not_not]
      exact ⟨fun hall => hall ht, fun ht' _ => ht'⟩
    · have hread : u.arena.read k = .ok s := by
        by_cases hki : k = i
        · subst hki
          rw [Arena.read_unique hs hx]
          exact h.tail
        · rw [h.frame k hki hkj, hs]
      exact ⟨s, hread, rfl, rfl,
        fun hk => absurd (List.mem_singleton.mp hk) hkj, fun _ => rfl⟩
  have hstep := step_of_revise (p := ⟨net, .frontier⟩) hpop hx
    (Bool.eq_false_iff.mpr fun hwiped => Variable.isWipedOut_iff.mp hwiped v
      ((Variable.mem_effective_of_value hvalue hlive).mpr rfl))
      hrevise h.head hj
  have hleft : y'.isWipedOut = false := by
    obtain ⟨s, _, hs⟩ :=
      h.exists_support ((Variable.mem_effective_of_value hvalue hlive).mpr rfl)
    exact Bool.eq_false_iff.mpr fun hwiped =>
      Variable.isWipedOut_iff.mp hwiped s hs
  have hasleep :
      Propagator.awakened ⟨net, .frontier⟩ ⟨i, j⟩ ⟨lost.length, gone.length⟩ =
        [] := by
    simp [awakened, hnone]
  rw [hasleep, hleft, if_neg Bool.false_ne_true] at hstep
  have hcalm' : u.arena.Calm := Network.calm_revise hcalm hrevise
  by_cases hsame : (⟨lost.length, gone.length⟩ : Revision).isUnchanged
  · rw [if_pos hsame] at hstep
    exact ⟨u, none, hstep, hfiltered, hcalm'⟩
  · rw [if_neg hsame] at hstep
    exact ⟨u, some ⟨i, j⟩, hstep, hfiltered, hcalm'⟩

/-- **A neighbour that is not spared is wiped out**, and propagation ends. -/
theorem step_of_not_spares (hspares : ¬ net.Spares w.arena i v j) :
    ∃ u, Propagator.step ⟨net, .frontier⟩ q w =
      .ok (.failed u (some ⟨i, j⟩)) := by
  obtain ⟨c, hc⟩ := Option.isSome_iff_exists.mp hfind
  obtain ⟨y, hy⟩ := Arena.exists_read hj
  obtain ⟨lost, gone, x', y', u, hrevise, h⟩ :=
    Network.revise_semijoined hij hc hx hy (hcalm _ x hx) (hcalm _ y hy)
  have hshown : v ∈ x.effective :=
    (Variable.mem_effective_of_value hvalue hlive).mpr rfl
  have hlost : v ∈ lost := (h.mem_lost v).mpr ⟨hshown, fun z hz hzy => hspares
    ⟨z, (Network.supports_of_find? hc v).symm ▸ hz,
      (Arena.effective_of_read hy).symm ▸ hzy⟩⟩
  -- The tail showed nothing but `v`, so that no value of the head goes with
  -- what is left there.
  have hwiped : y'.isWipedOut = true := by
    rw [Variable.isWipedOut_iff]
    intro z hz
    obtain ⟨s, hs, _⟩ := h.exists_partner (Variable.mem_effective.mp hz).1
    obtain ⟨hs, hkept⟩ := (h.pruned.mem_effective s).mp hs
    rw [Variable.mem_effective_of_value hvalue hlive] at hs
    exact hkept (hs ▸ hlost)
  have hchanged : (⟨lost.length, gone.length⟩ : Revision).isUnchanged =
      false := by
    have hpositive := List.length_pos_of_mem hlost
    simp only [Revision.isUnchanged, Bool.and_eq_false_iff, beq_eq_false_iff_ne]
    exact .inl (by omega)
  have hstep := step_of_revise (p := ⟨net, .frontier⟩) hpop hx
    (Bool.eq_false_iff.mpr fun hnone =>
      Variable.isWipedOut_iff.mp hnone v hshown) hrevise h.head hj
  rw [hchanged, if_neg Bool.false_ne_true, hwiped, if_pos rfl] at hstep
  exact ⟨u.wipeout, hstep⟩

end

/-- **The arcs from a variable with a live value are served in their order**,
all of them if every head is spared, and else up to the first whose head is
not. -/
theorem serves_of_value (hcalm : w.arena.Calm) (hx : w.arena.read i = .ok x)
    (hvalue : x.value = some v) (hlive : v ∈ x.live) (hnodup : js.Nodup)
    (hq : q.toList = js.map (Arc.mk i))
    (hjs : ∀ j ∈ js, i ≠ j ∧ (net.find? ⟨i, j⟩).isSome ∧ j < w.arena.size) :
    (∃ u, (∀ j ∈ js, net.Spares w.arena i v j) ∧
      Serves ⟨net, .frontier⟩ q w (js.map (Arc.mk i)) true u ∧
      net.Filtered i v js w u) ∨
    ∃ front j back u, js = front ++ j :: back ∧
      (∀ k ∈ front, net.Spares w.arena i v k) ∧
      ¬ net.Spares w.arena i v j ∧
      Serves ⟨net, .frontier⟩ q w ((front ++ [j]).map (Arc.mk i)) false u := by
  induction js generalizing q w with
  | nil =>
      have hsettled : Propagator.step ⟨net, .frontier⟩ q w = .ok .settled := by
        simp only [step, Agenda.pop?_eq_none.mpr hq]
      exact .inl ⟨w, List.forall_mem_nil _, .settled hsettled,
        net.filtered_nil i v w⟩
  | cons j js ih =>
      obtain ⟨hj, hrest⟩ := List.forall_mem_cons.mp hjs
      obtain ⟨hij, hfind, hsize⟩ := hj
      obtain ⟨hnew, hnodup⟩ := List.nodup_cons.mp hnodup
      obtain ⟨rest, hpop, hq⟩ := Agenda.exists_pop? hq
      by_cases hspares : net.Spares w.arena i v j
      · obtain ⟨u, changed, hstep, hfiltered, hcalm'⟩ :=
          step_of_spares hcalm hx hvalue hlive hpop hij hfind hsize hspares
        have hspares_iff : ∀ k ∈ js,
            (net.Spares u.arena i v k ↔ net.Spares w.arena i v k) := fun k hk =>
          hfiltered.spares_iff (hrest k hk).2.2 fun hkj =>
            hnew (List.mem_singleton.mp hkj ▸ hk)
        have hx' : u.arena.read i = .ok x :=
          hfiltered.read_of_notMem hx fun h => hij (List.mem_singleton.mp h)
        rcases ih hcalm' hx' hnodup hq fun k hk =>
          hfiltered.size.symm ▸ hrest k hk with
          ⟨t, hall, hserves, hfiltered'⟩ | ⟨front, k, back, t, rfl, hfront,
            hk, hserves⟩
        · refine .inl ⟨t, ?_, .going hpop hstep hserves,
            hfiltered.cons hfiltered' hnew⟩
          exact List.forall_mem_cons.mpr
            ⟨hspares, fun k hk => (hspares_iff k hk).mp (hall k hk)⟩
        · refine .inr ⟨j :: front, k, back, t, rfl, ?_, ?_,
            .going hpop hstep hserves⟩
          · exact List.forall_mem_cons.mpr ⟨hspares, fun l hl =>
              (hspares_iff l (List.mem_append_left _ hl)).mp (hfront l hl)⟩
          · rwa [← hspares_iff k (List.mem_append_right _ List.mem_cons_self)]
      · obtain ⟨u, hstep⟩ :=
          step_of_not_spares hcalm hx hvalue hlive hpop hij hfind hsize hspares
        exact .inr ⟨[], j, js, u, rfl, List.forall_mem_nil _, hspares,
          .emptied hstep⟩

/-- Each revision of arcs that lead to neighbours counts. -/
theorem Serves.revisions_add
    (h : Serves ⟨net, .frontier⟩ q w (js.map (Arc.mk i)) ok u)
    (hjs : ∀ j ∈ js, j ∈ net.neighbors i) :
    u.tally.revisions = w.tally.revisions + js.length := by
  rw [h.counted.revisions, List.countP_eq_length.mpr, List.length_map]
  intro a ha
  obtain ⟨j, hj, rfl⟩ := List.mem_map.mp ha
  exact decide_eq_true
    (Network.mem_arcs.mpr (Network.mem_neighbors.mp (hjs j hj)))

/-- **Frontier closure after an assignment is forward checking.**  Say that the
variable at `i` has the live value `v` and no arc to itself, on any network, and
that anything was done before to the variables, if no marks wait.  Propagation
from the arcs that leave `i` answers yes if and only if each neighbour shows a
value that goes with `v`.  Then it has revised the arc to each neighbour once;
of their live values the neighbours keep just those that go with `v`, nothing is
pruned, and all others stay as they are.  Else it has revised the arcs up to the
first neighbour that shows no value that goes with `v`, and no more. -/
theorem propagate_checks_forward (net : Network) (w : Workspace) {i : Nat}
    {x : Variable} {v : Int} (hnet : net.Within w.arena.size)
    (hself : net.find? ⟨i, i⟩ = none)
    (hvars : ∀ j y, w.arena.read j = .ok y → y.IsDerived ∧ y.pending = ∅)
    (hx : w.arena.read i = .ok x) (hvalue : x.value = some v)
    (hlive : v ∈ x.live) :
    ∃ ok u, propagate ⟨net, .frontier⟩ (net.arcsFrom i) w = .ok (ok, u) ∧
      (ok = true ↔ ∀ j ∈ net.neighbors i, net.Spares w.arena i v j) ∧
      (ok = true → net.Filtered i v (net.neighbors i) w u ∧
        Serves ⟨net, .frontier⟩ (.ofList (net.arcsFrom i)) w
          (net.arcsFrom i) true u ∧
        u.tally.revisions = w.tally.revisions + net.degree i) ∧
      (ok = false → ∃ j ∈ net.neighbors i, ¬ net.Spares w.arena i v j ∧
        (∀ k ∈ net.neighbors i, k < j → net.Spares w.arena i v k) ∧
        Serves ⟨net, .frontier⟩ (.ofList (net.arcsFrom i)) w
          (((net.neighbors i).filter (· ≤ j)).map (Arc.mk i)) false u ∧
        u.tally.revisions = w.tally.revisions +
          ((net.neighbors i).filter (· ≤ j)).length) := by
  have hcalm : w.arena.Calm := fun j y hy =>
    (hvars j y hy).1.calm (hvars j y hy).2
  have hascending := net.neighbors_ascending i
  have hnodup : (net.neighbors i).Nodup := hascending.imp Nat.ne_of_lt
  have hjs : ∀ j ∈ net.neighbors i,
      i ≠ j ∧ (net.find? ⟨i, j⟩).isSome ∧ j < w.arena.size := by
    intro j hj
    have hfind := Network.mem_neighbors.mp hj
    refine ⟨?_, hfind, (hnet _ (Network.mem_arcs.mpr hfind)).2⟩
    rintro rfl
    rw [hself] at hfind
    cases hfind
  have hq : (Agenda.ofList (net.arcsFrom i)).toList =
      (net.neighbors i).map (Arc.mk i) :=
    Agenda.toList_ofList (List.pairwise_map.mpr
      (hnodup.imp fun hne heq => hne (congrArg Arc.head heq)))
  rcases serves_of_value hcalm hx hvalue hlive hnodup hq hjs with
    ⟨u, hall, hserves, hfiltered⟩ | ⟨front, j, back, u, hsplit, hfront,
      hj, hserves⟩
  · refine ⟨true, u, hserves.propagate_eq, iff_of_true rfl hall,
      fun _ => ⟨hfiltered, hserves, ?_⟩, nofun⟩
    rw [Network.degree_eq_length]
    exact hserves.revisions_add fun _ => id
  · have hmem : j ∈ net.neighbors i :=
      hsplit ▸ List.mem_append_right _ List.mem_cons_self
    have hreached : (net.neighbors i).filter (· ≤ j) = front ++ [j] := by
      rw [hsplit] at hascending ⊢
      exact filter_le_of_ascending hascending
    refine ⟨false, u, hserves.propagate_eq, iff_of_false Bool.false_ne_true
      fun hall => hj (hall j hmem), nofun,
        fun _ => ⟨j, hmem, hj, fun k hk hkj => ?_, ?_, ?_⟩⟩
    · have hk' : k ∈ front ++ [j] :=
        hreached ▸ List.mem_filter.mpr ⟨hk, decide_eq_true (Nat.le_of_lt hkj)⟩
      rw [List.mem_append, List.mem_singleton] at hk'
      exact hfront k (hk'.resolve_right (Nat.ne_of_lt hkj))
    · rwa [hreached]
    · rw [hreached]
      refine hserves.revisions_add fun k hk => ?_
      rw [← hreached] at hk
      exact (List.mem_filter.mp hk).1

/-- The middle one of three variables has a value, and so has the last one.  If
the two go together, both neighbours are checked and filtered; if not, the first
one is, and propagation ends at the last. -/
theorem propagate_checks_forward_of_three :
    let net := Network.ofConstraints [
      { first := 1, second := 0, pairs := [(0, 0), (1, 1)] },
      { first := 1, second := 2, pairs := [(0, 0), (1, 1)] }]
    let w (v : Int) : Workspace :=
      { arena := .ofList
          [.fresh 0 (.ofList [0, 1]),
            (Variable.fresh 1 (.ofList [0, 1])).assign v,
            (Variable.fresh 2 (.ofList [0, 1])).assign 1] }
    (∃ u, propagate ⟨net, .frontier⟩ (net.arcsFrom 1) (w 1) = .ok (true, u) ∧
      net.Filtered 1 1 [0, 2] (w 1) u ∧ u.tally.revisions = 2) ∧
    ∃ u, propagate ⟨net, .frontier⟩ (net.arcsFrom 1) (w 0) = .ok (false, u) ∧
      Serves ⟨net, .frontier⟩ (.ofList (net.arcsFrom 1)) (w 0)
        [⟨1, 0⟩, ⟨1, 2⟩] false u ∧
      u.tally.revisions = 2 := by
  intro net w
  have harcs : net.arcs = [⟨1, 0⟩, ⟨1, 2⟩] := by decide +kernel
  have hneighbors : net.neighbors 1 = [0, 2] := by decide +kernel
  have hself : net.find? ⟨1, 1⟩ = none := by decide +kernel
  have hnet : net.Within 3 := by
    intro a ha
    rw [harcs] at ha
    revert a
    decide
  have hvars : ∀ v j y, (w v).arena.read j = .ok y →
      y.IsDerived ∧ y.pending = ∅ := by
    intro v j y hy
    match j, hy with
    | 0, hy =>
      cases hy
      exact ⟨⟨0, _, [], rfl⟩, rfl⟩
    | 1, hy =>
      cases hy
      exact ⟨⟨1, _, [.assign v], rfl⟩, rfl⟩
    | 2, hy =>
      cases hy
      exact ⟨⟨2, _, [.assign 1], rfl⟩, rfl⟩
  constructor
  · obtain ⟨ok, u, hrun, hok, hyes, _⟩ :=
      propagate_checks_forward net (w 1) hnet hself (hvars 1)
        (x := (Variable.fresh 1 (.ofList [0, 1])).assign 1) rfl rfl
        (by decide +kernel)
    have hspares : ∀ j ∈ net.neighbors 1, net.Spares (w 1).arena 1 1 j := by
      rw [hneighbors]
      have hshown : ∀ j ∈ [0, 2], (1 : Int) ∈ net.supports 1 ⟨1, j⟩ ∧
          1 ∈ (w 1).arena.effective j := by
        decide +kernel
      exact fun j hj => ⟨1, hshown j hj⟩
    obtain rfl := hok.mpr hspares
    obtain ⟨hfiltered, _, hcount⟩ := hyes rfl
    rw [hneighbors] at hfiltered
    exact ⟨u, hrun, hfiltered,
      hcount.trans (by rw [Network.degree_eq_length, hneighbors]; rfl)⟩
  · obtain ⟨ok, u, hrun, hok, _, hno⟩ :=
      propagate_checks_forward net (w 0) hnet hself (hvars 0)
        (x := (Variable.fresh 1 (.ofList [0, 1])).assign 0) rfl rfl
        (by decide +kernel)
    have hlast : ¬ net.Spares (w 0).arena 1 0 2 := by
      intro hspares
      obtain ⟨z, hz, hshown⟩ := hspares
      obtain rfl : z = 1 := ((Variable.mem_effective_of_value
        (x := (Variable.fresh 2 (.ofList [0, 1])).assign 1) rfl
        (by decide +kernel)).mp hshown)
      revert hz
      decide +kernel
    have hfirst : net.Spares (w 0).arena 1 0 0 :=
      ⟨0, by decide +kernel, by decide +kernel⟩
    have hfalse : ok = false :=
      Bool.eq_false_iff.mpr fun h =>
        hlast (hok.mp h 2 (by rw [hneighbors]; decide))
    subst hfalse
    obtain ⟨j, hj, hnot, _, hserves, hcount⟩ := hno rfl
    rw [hneighbors] at hj hserves hcount
    have hj2 : j = 2 := by
      rcases List.mem_cons.mp hj with rfl | hj
      · exact absurd hfirst hnot
      · exact List.mem_singleton.mp hj
    subst hj2
    exact ⟨u, hrun, hserves, hcount⟩

end Propagator

end ConstraintNet
