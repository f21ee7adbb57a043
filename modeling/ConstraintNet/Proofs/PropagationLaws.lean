import ConstraintNet.Proofs.RevisionLaws
import ConstraintNet.Propagation

/-!
# What propagation leaves

The steps of propagation are told apart once, by `Stepped`; each later fact is
an invariant that one step keeps, carried through the run by `run_of_step`.

`Propagated` collects what holds of every propagation, whatever its closure and
the order of its agenda.  It excludes no value of a family in which every value
has partners across all arcs, so in particular no solution.  If it fails, some
variable has nothing left.  If it succeeds, it has emptied no variable, and at
the head of each arc that it started from it has left nothing but values with a
partner at the tail.
-/

namespace ConstraintNet

namespace Agenda

variable {q r : Agenda} {a b : Arc}

/-- A push adds the arc, unless it waits already. -/
theorem mem_push : b ∈ (q.push a).toList ↔ b ∈ q.toList ∨ b = a := by
  rw [toList_push]
  by_cases h : a ∈ q.toList
  · rw [if_pos h]
    exact ⟨Or.inl, fun hb => hb.elim id fun hba => hba ▸ h⟩
  · rw [if_neg h, List.mem_append, List.mem_singleton]

/-- Pushing several adds all of them. -/
theorem mem_pushAll {l : List Arc} :
    b ∈ (q.pushAll l).toList ↔ b ∈ q.toList ∨ b ∈ l := by
  induction l generalizing q with
  | nil => simp [pushAll]
  | cons a l ih =>
      rw [show q.pushAll (a :: l) = (q.push a).pushAll l from rfl, ih, mem_push,
        List.mem_cons, or_assoc]

/-- An agenda that is made from a list has the arcs of the list, each once. -/
theorem mem_ofList {l : List Arc} : b ∈ (ofList l).toList ↔ b ∈ l := by
  rw [ofList, mem_pushAll, toList_empty]
  simp

/-- The arc that is taken is the only one that no longer waits. -/
theorem mem_of_pop? (h : q.pop? = some (a, r)) :
    b ∈ q.toList ↔ b = a ∨ b ∈ r.toList := by
  rw [toList_pop? h, List.mem_cons]

end Agenda

/-- Every variable is calm. -/
def Arena.Calm (m : Arena) : Prop := ∀ i x, m.read i = .ok x → x.Calm

theorem Workspace.Later.calm {w u : Workspace} (h : w.Later u)
    (hw : w.arena.Calm) : u.arena.Calm := by
  intro i y hy
  obtain ⟨x, _, _, hx, hxy⟩ := h.read_back hy
  exact hxy.calm (hw i x hx)

/-- An arc between two variables of an arena of `n` variables. -/
def Arc.Within (a : Arc) (n : Nat) : Prop := a.tail < n ∧ a.head < n

instance (a : Arc) (n : Nat) : Decidable (a.Within n) :=
  inferInstanceAs (Decidable (_ ∧ _))

/-- A network whose arcs run between the variables of an arena of `n`
variables. -/
def Network.Within (net : Network) (n : Nat) : Prop :=
  ∀ a ∈ net.arcs, a.Within n

/-- An arc that has a constraint is one of the network. -/
theorem Network.mem_arcs_of_find? {net : Network} {a : Arc} {c : Constraint}
    (h : net.find? a = some c) : a ∈ net.arcs := by
  rw [mem_arcs, h]
  rfl

/-- The arcs into a variable are those that it is the head of. -/
theorem Network.mem_arcsInto {net : Network} {a : Arc} {i : Nat} :
    a ∈ net.arcsInto i ↔ a ∈ net.arcs ∧ a.head = i := by
  rw [arcsInto, List.mem_map]
  constructor
  · intro hparts
    obtain ⟨j, hj, rfl⟩ := hparts
    exact ⟨mem_arcs.mpr (mem_incident.mp hj), rfl⟩
  · intro hparts
    obtain ⟨ha, rfl⟩ := hparts
    exact ⟨a.tail, mem_incident.mpr (mem_arcs.mp ha), rfl⟩

/-- The arcs from a variable are those that it is the tail of. -/
theorem Network.mem_arcsFrom {net : Network} {a : Arc} {i : Nat} :
    a ∈ net.arcsFrom i ↔ a ∈ net.arcs ∧ a.tail = i := by
  rw [arcsFrom, List.mem_map]
  constructor
  · intro hparts
    obtain ⟨j, hj, rfl⟩ := hparts
    exact ⟨mem_arcs.mpr (mem_neighbors.mp hj), rfl⟩
  · intro hparts
    obtain ⟨ha, rfl⟩ := hparts
    exact ⟨a.head, mem_neighbors.mpr (mem_arcs.mp ha), rfl⟩

/-- A family of values in which every value has partners across all arcs, from
the tail to the head and from the head to the tail. -/
def Network.Balanced (net : Network) (F : Nat → Int → Prop) : Prop :=
  ∀ a c, net.find? a = some c →
    (∀ v, F a.tail v → ∃ z, F a.head z ∧ (v, z) ∈ c.pairs) ∧
    (∀ z, F a.head z → ∃ v, F a.tail v ∧ (v, z) ∈ c.pairs)

/-- An arena that shows all values of a family. -/
def Arena.Shows (m : Arena) (F : Nat → Int → Prop) : Prop :=
  ∀ i v, F i v → v ∈ m.effective i

/-- A revision excludes no value of a balanced family. -/
theorem Revised.shows {c : Constraint} {a : Arc} {w u : Workspace}
    {r : Revision} (h : Revised c a w r u) {net : Network}
    (hc : net.find? a = some c) {F : Nat → Int → Prop} (hF : net.Balanced F)
    (hw : w.arena.Shows F) : u.arena.Shows F := by
  obtain ⟨hforth, hback⟩ := hF a c hc
  have hsupports : ∀ v, F a.tail v → w.arena.Supports c a v := by
    intro v hv
    obtain ⟨z, hz, hvz⟩ := hforth v hv
    exact ⟨hw a.tail v hv, z, hw a.head z hz, hvz⟩
  have hpartner : ∀ z, F a.head z →
      ∃ v, w.arena.Supports c a v ∧ (v, z) ∈ c.pairs := by
    intro z hz
    obtain ⟨v, hv, hvz⟩ := hback z hz
    exact ⟨v, hsupports v hv, hvz⟩
  intro i v hv
  by_cases hih : i = a.head
  · subst hih
    exact (h.head v).mpr ⟨hw _ v hv, hpartner v hv,
      fun heq => hsupports v (heq ▸ hv)⟩
  · by_cases hit : i = a.tail
    · subst hit
      exact (h.tail v).mpr ⟨hsupports v hv, fun heq => absurd heq hih⟩
    · rw [Arena.effective, h.frame i hit hih]
      exact hw i v hv

/-- What is left at the head leaves something at the tail. -/
theorem Revised.exists_tail {c : Constraint} {a : Arc} {w u : Workspace}
    {r : Revision} (h : Revised c a w r u) {y : Int}
    (hy : y ∈ u.arena.effective a.head) :
    ∃ v, v ∈ u.arena.effective a.tail := by
  by_cases heq : a.tail = a.head
  · exact ⟨y, heq ▸ hy⟩
  · obtain ⟨_, ⟨z, hz, _⟩, _⟩ := (h.head y).mp hy
    exact ⟨z, (h.tail z).mpr ⟨hz, fun he => absurd he heq⟩⟩

namespace Propagator

variable {p : Propagator}

/-- What one step can come to, at calm variables. -/
inductive Stepped (p : Propagator) (q : Agenda) (w : Workspace) : Step → Prop
  | settled (hnil : q.toList = []) : Stepped p q w .settled
  | barren {a : Arc} {rest : Agenda} (hpop : q.pop? = some (a, rest))
      (hempty : ∀ v, v ∉ w.arena.effective a.tail) :
      Stepped p q w (.failed w.wipeout none)
  | free {a : Arc} {rest : Agenda} (hpop : q.pop? = some (a, rest))
      (hfind : p.network.find? a = none) : Stepped p q w (.going rest w none)
  | idle {a : Arc} {rest : Agenda} {c : Constraint} {r : Revision}
      {u : Workspace}
      (hpop : q.pop? = some (a, rest)) (hfind : p.network.find? a = some c)
      (hrevised : Revised c a w r u) (hsame : r.isUnchanged) :
      Stepped p q w (.going rest u none)
  | emptied {a : Arc} {rest : Agenda} {c : Constraint} {r : Revision}
      {u : Workspace}
      (hpop : q.pop? = some (a, rest)) (hfind : p.network.find? a = some c)
      (hrevised : Revised c a w r u)
      (hempty : ∀ v, v ∉ u.arena.effective a.head) :
      Stepped p q w (.failed u.wipeout (some a))
  | changed {a : Arc} {rest : Agenda} {c : Constraint} {r : Revision}
      {u : Workspace}
      (hpop : q.pop? = some (a, rest)) (hfind : p.network.find? a = some c)
      (hrevised : Revised c a w r u) {y : Int}
      (hleft : y ∈ u.arena.effective a.head) :
      Stepped p q w (.going (rest.pushAll (p.awakened a r)) u (some a))

/-- What a step comes to, once the revision that it makes is known. -/
theorem step_of_revise {q rest : Agenda} {w u : Workspace} {a : Arc}
    {x y : Variable} {r : Revision} (hpop : q.pop? = some (a, rest))
    (hx : w.arena.read a.tail = .ok x) (hleft : x.isWipedOut = false)
    (hrevise : p.network.revise a w = .ok (r, u))
    (hy : u.arena.read a.head = .ok y) (hhead : a.head < w.arena.size) :
    p.step q w = if r.isUnchanged then .ok (.going rest u none) else
      if y.isWipedOut then .ok (.failed u.wipeout (some a)) else
        .ok (.going (rest.pushAll (p.awakened a r)) u (some a)) := by
  have htail := Arena.lt_of_read hx
  have hwithin : ¬ (w.arena.size ≤ a.tail ∨ w.arena.size ≤ a.head) := by omega
  simp only [step, hpop, if_neg hwithin, hx, hleft, hrevise, hy, bind,
    Except.bind, pure, Except.pure]
  rfl

/-- **A step succeeds** at calm variables, if the first waiting arc is within
the arena. -/
theorem step_of_calm {q : Agenda} {w : Workspace} (hcalm : w.arena.Calm)
    (hq : ∀ a ∈ q.toList, a.Within w.arena.size) :
    ∃ s, p.step q w = .ok s ∧ Stepped p q w s := by
  cases hpop : q.pop? with
  | none =>
      refine ⟨.settled, ?_, .settled (Agenda.pop?_eq_none.mp hpop)⟩
      simp only [step, hpop]
  | some ar =>
      obtain ⟨a, rest⟩ := ar
      obtain ⟨htail, hhead⟩ := hq a ((Agenda.mem_of_pop? hpop).mpr (Or.inl rfl))
      obtain ⟨x, hx⟩ := Arena.exists_read htail
      obtain ⟨y, hy⟩ := Arena.exists_read hhead
      have hwithin :
          ¬ (w.arena.size ≤ a.tail ∨ w.arena.size ≤ a.head) := by omega
      cases hwiped : x.isWipedOut with
      | true =>
          refine ⟨.failed w.wipeout none, ?_, .barren hpop fun v hv => ?_⟩
          · simp only [step, hpop, if_neg hwithin, hx, hwiped, if_true, bind,
              Except.bind, pure, Except.pure]
          · rw [Arena.effective_of_read hx] at hv
            exact Variable.isWipedOut_iff.mp hwiped v hv
      | false =>
          cases hfind : p.network.find? a with
          | none =>
              refine ⟨.going rest w none, ?_, .free hpop hfind⟩
              simp only [step, hpop, if_neg hwithin, hx, hwiped, bind,
                Except.bind, pure,
                Except.pure, Network.revise_eq_of_find?_eq_none hfind]
              rfl
          | some c =>
              obtain ⟨r, u, hrevise, hrevised⟩ :=
                Network.revise_of_calm hfind hx hy (hcalm _ x hx) (hcalm _ y hy)
              obtain ⟨z, hz⟩ :=
                Arena.exists_read (hrevised.later.size.symm ▸ hhead)
              have hstep := step_of_revise hpop hx hwiped hrevise hz hhead
              by_cases hsame : r.isUnchanged
              · rw [if_pos hsame] at hstep
                exact ⟨_, hstep, .idle hpop hfind hrevised hsame⟩
              · rw [if_neg hsame] at hstep
                cases hz' : z.isWipedOut with
                | true =>
                    rw [hz', if_pos rfl] at hstep
                    refine ⟨_, hstep, .emptied hpop hfind hrevised fun v hv =>
                      ?_⟩
                    rw [Arena.effective_of_read hz] at hv
                    exact Variable.isWipedOut_iff.mp hz' v hv
                | false =>
                    rw [hz', if_neg Bool.false_ne_true] at hstep
                    obtain ⟨v, hv⟩ := Variable.exists_mem_effective hz'
                    rw [← Arena.effective_of_read hz] at hv
                    exact ⟨_, hstep, .changed hpop hfind hrevised hv⟩

/-- Where a step from `w` leads: on to an agenda and a workspace of which `I`
holds, or to an end of which `Ends` holds. -/
def Step.Leads (I : Agenda → Workspace → Prop) (Ends : Bool → Workspace → Prop)
    (w : Workspace) : Step → Prop
  | .settled => Ends true w
  | .failed u _ => Ends false u
  | .going q u _ => I q u

/-- **What every step keeps, the run keeps.**  If every step from where `I`
holds succeeds and leads on to where `I` holds or to a fit end, then the run
succeeds and has a fit end. -/
theorem run_of_step {β : Type} (observe : Arc → Arena → β → β)
    (I : Agenda → Workspace → Prop) (Ends : Bool → Workspace → Prop)
    (hstep : ∀ q w, I q w → ∃ s, p.step q w = .ok s ∧ s.Leads I Ends w)
    (q : Agenda) (w : Workspace) (seen : β) (hI : I q w) :
    ∃ ok u seen', p.run observe q w seen = .ok (ok, u, seen') ∧ Ends ok u := by
  induction q, w, seen using run.induct p observe with
  | case1 q w seen e he =>
      obtain ⟨s, hs, _⟩ := hstep q w hI
      rw [he] at hs
      cases hs
  | case2 q w seen h =>
      obtain ⟨s, hs, hleads⟩ := hstep q w hI
      rw [h] at hs
      cases hs
      exact ⟨true, w, seen, by rw [run, h], hleads⟩
  | case3 q w seen u changed h =>
      obtain ⟨s, hs, hleads⟩ := hstep q w hI
      rw [h] at hs
      cases hs
      exact ⟨false, u, notice observe u seen changed, by rw [run, h], hleads⟩
  | case4 q w seen q' w' changed h ih =>
      obtain ⟨s, hs, hleads⟩ := hstep q w hI
      rw [h] at hs
      cases hs
      obtain ⟨ok, u, seen', hrun, hends⟩ := ih hleads
      refine ⟨ok, u, seen', ?_, hends⟩
      rw [run, h]
      exact hrun

/-- What holds of the workspace `u` and the agenda `q` on the way of a
propagation that began with the arcs `seed` at `w`. -/
structure Underway (p : Propagator) (seed : List Arc) (w : Workspace)
    (q : Agenda) (u : Workspace) : Prop where
  later : w.Later u
  waiting : ∀ a ∈ q.toList, a.Within w.arena.size
  shows : ∀ F, p.network.Balanced F → w.arena.Shows F → u.arena.Shows F
  left : ∀ i v, v ∈ w.arena.effective i → ∃ z, z ∈ u.arena.effective i
  served : ∀ a ∈ seed, a ∉ q.toList → ∀ c, p.network.find? a = some c →
    ∀ z ∈ u.arena.effective a.head,
      ∃ v ∈ w.arena.effective a.tail, (v, z) ∈ c.pairs

/-- What a propagation that began with the arcs `seed` at `w` leaves. -/
structure Propagated (p : Propagator) (seed : List Arc) (w : Workspace)
    (ok : Bool) (u : Workspace) : Prop where
  later : w.Later u
  shows : ∀ F, p.network.Balanced F → w.arena.Shows F → u.arena.Shows F
  failed : ok = false → ∃ i, i < w.arena.size ∧ ∀ v, v ∉ u.arena.effective i
  left : ok = true → ∀ i v, v ∈ w.arena.effective i →
    ∃ z, z ∈ u.arena.effective i
  served : ok = true → ∀ a ∈ seed, ∀ c, p.network.find? a = some c →
    ∀ z ∈ u.arena.effective a.head,
      ∃ v ∈ w.arena.effective a.tail, (v, z) ∈ c.pairs

/-- A wipeout is counted and changes nothing else. -/
theorem later_wipeout {w u : Workspace} (h : w.Later u) : w.Later u.wipeout :=
  ⟨h.size, h.trail⟩

section

variable {seed : List Arc} {w u t : Workspace} {q q' rest : Agenda} {a : Arc}

/-- At the start everything that propagation was asked for waits, and nothing
was excluded. -/
theorem Underway.start (hseed : ∀ a ∈ seed, a.Within w.arena.size) :
    Underway p seed w (.ofList seed) w where
  later := .refl w
  waiting a ha := hseed a (Agenda.mem_ofList.mp ha)
  shows _ _ hw := hw
  left _ v hv := ⟨v, hv⟩
  served _ ha hnot := absurd (Agenda.mem_ofList.mpr ha) hnot

/-- An arc without constraint is served by taking it off the agenda. -/
theorem Underway.free (h : Underway p seed w q u)
    (hpop : q.pop? = some (a, rest)) (hfind : p.network.find? a = none) :
    Underway p seed w rest u where
  later := h.later
  waiting b hb := h.waiting b ((Agenda.mem_of_pop? hpop).mpr (Or.inr hb))
  shows := h.shows
  left := h.left
  served b hb hnot c hc := by
    refine h.served b hb (fun hq => ?_) c hc
    rcases (Agenda.mem_of_pop? hpop).mp hq with rfl | hrest
    · rw [hfind] at hc
      cases hc
    · exact hnot hrest

/-- A revision that empties no variable goes on, with what waits and maybe more
arcs of the network. -/
theorem Underway.revised (h : Underway p seed w q u)
    (hnet : p.network.Within w.arena.size) (hpop : q.pop? = some (a, rest))
    {c : Constraint} (hfind : p.network.find? a = some c) {r : Revision}
    (hrevised : Revised c a u r t)
    (hleft : ∀ i v, v ∈ u.arena.effective i → ∃ z, z ∈ t.arena.effective i)
    (hrest : ∀ b ∈ rest.toList, b ∈ q'.toList)
    (hmore : ∀ b ∈ q'.toList, b ∈ rest.toList ∨ b ∈ p.network.arcs) :
    Underway p seed w q' t where
  later := h.later.trans hrevised.later
  waiting b hb := by
    rcases hmore b hb with hb | hb
    · exact h.waiting b ((Agenda.mem_of_pop? hpop).mpr (Or.inr hb))
    · exact hnet b hb
  shows F hF hw := hrevised.shows hfind hF (h.shows F hF hw)
  left i v hv := by
    obtain ⟨z, hz⟩ := h.left i v hv
    exact hleft i z hz
  served b hb hnot d hd z hz := by
    by_cases hba : b = a
    · subst hba
      rw [hfind] at hd
      cases hd
      obtain ⟨_, ⟨v, hv, hvz⟩, _⟩ := (hrevised.head z).mp hz
      exact ⟨v, h.later.effective hv.1, hvz⟩
    · have hnotq : b ∉ q.toList := fun hq =>
        ((Agenda.mem_of_pop? hpop).mp hq).elim hba fun hr => hnot (hrest b hr)
      exact h.served b hb hnotq d hd z (hrevised.later.effective hz)

/-- What a revision leaves of the variables, if it leaves something at the
head. -/
theorem exists_left_of_revised {c : Constraint} {r : Revision}
    (hrevised : Revised c a u r t) {y : Int} (hy : y ∈ t.arena.effective a.head)
    (i : Nat) (v : Int) (hv : v ∈ u.arena.effective i) :
    ∃ z, z ∈ t.arena.effective i := by
  by_cases hih : i = a.head
  · exact ⟨y, hih ▸ hy⟩
  · by_cases hit : i = a.tail
    · subst hit
      exact hrevised.exists_tail hy
    · rw [Arena.effective, hrevised.frame i hit hih]
      exact ⟨v, hv⟩

/-- **A step underway leads on**, or to the end of the propagation. -/
theorem Underway.leads (h : Underway p seed w q u)
    (hnet : p.network.Within w.arena.size) {s : Step} (hs : Stepped p q u s) :
    s.Leads (Underway p seed w) (Propagated p seed w) u := by
  have htail : ∀ {a rest}, q.pop? = some (a, rest) → a.Within w.arena.size :=
    fun hpop => h.waiting _ ((Agenda.mem_of_pop? hpop).mpr (Or.inl rfl))
  cases hs with
  | settled hnil =>
      exact {
        later := h.later
        shows := h.shows
        failed := fun hok => (nomatch hok)
        left := fun _ => h.left
        served := fun _ a ha => h.served a ha (by simp [hnil]) }
  | barren hpop hempty =>
      exact {
        later := later_wipeout h.later
        shows := h.shows
        failed := fun _ => ⟨_, (htail hpop).1, hempty⟩
        left := fun hok => (nomatch hok)
        served := fun hok => (nomatch hok) }
  | free hpop hfind => exact h.free hpop hfind
  | idle hpop hfind hrevised hsame =>
      exact h.revised hnet hpop hfind hrevised
        (fun i v hv => ⟨v, hrevised.effective_of_isUnchanged hsame hv⟩)
        (fun b hb => hb) (fun b hb => Or.inl hb)
  | emptied hpop hfind hrevised hempty =>
      exact {
        later := later_wipeout (h.later.trans hrevised.later)
        shows := fun F hF hw => hrevised.shows hfind hF (h.shows F hF hw)
        failed := fun _ => ⟨_, (htail hpop).2, hempty⟩
        left := fun hok => (nomatch hok)
        served := fun hok => (nomatch hok) }
  | changed hpop hfind hrevised hleft =>
      refine h.revised hnet hpop hfind hrevised
        (exists_left_of_revised hrevised hleft)
        (fun b hb => Agenda.mem_pushAll.mpr (Or.inl hb)) (fun b hb => ?_)
      refine (Agenda.mem_pushAll.mp hb).imp id fun hb => ?_
      unfold awakened at hb
      grind [Network.mem_arcsInto]

end

/-- **Propagation succeeds** at calm variables, from arcs within the arena. -/
theorem propagate_of_calm {seed : List Arc} {w : Workspace}
    (hcalm : w.arena.Calm) (hnet : p.network.Within w.arena.size)
    (hseed : ∀ a ∈ seed, a.Within w.arena.size) :
    ∃ ok u, p.propagate seed w = .ok (ok, u) ∧ Propagated p seed w ok u := by
  obtain ⟨ok, u, _, hrun, hends⟩ :=
    run_of_step (fun _ _ _ => ()) (Underway p seed w)
      (Propagated p seed w) (fun q u hu => by
        obtain ⟨s, hs, hstepped⟩ := step_of_calm (hu.later.calm hcalm)
          (fun a ha => hu.later.size.symm ▸ hu.waiting a ha)
        exact ⟨s, hs, hu.leads hnet hstepped⟩) (.ofList seed) w ()
          (.start hseed)
  exact ⟨ok, u, by simp only [propagate, hrun, Except.map], hends⟩

end Propagator

end ConstraintNet
