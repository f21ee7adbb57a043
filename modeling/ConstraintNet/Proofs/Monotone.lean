import Mathlib
import ConstraintNet.Proofs.Facsimiles
import ConstraintNet.Proofs.Insertions
import ConstraintNet.Proofs.Mirrors

/-!
# Values matter by their order only

A function on the values sends one problem to another: it is applied to every
value that a variable starts with, and to both values of every pair.  If it is
increasing where it is applied, then the two problems are answered alike, with
the function applied to every value of a solution; if it is decreasing, then
they are as long as the value order is turned around.

There is one proviso.  What an engine overlooks depends on the trees of the
domains too, so neither run may overlook a value, or else both must start with
trees of the same shape.  They do if their domains were filled in the same
order.
-/

namespace ConstraintNet

open Relator (BiUnique)

/-- A value of a set goes with what it is sent to. -/
def Sends (f : Int → Int) (V : Set Int) (v w : Int) : Prop := v ∈ V ∧ f v = w

namespace ValueOrder

variable {f : Int → Int} {V : Set Int}

/-- The order turned around. -/
def opposite : ValueOrder → ValueOrder
  | ascending => descending
  | descending => ascending

/-- An increasing function carries each order over to itself. -/
theorem carries_of_strictMonoOn (hf : StrictMonoOn f V) (o : ValueOrder) :
    o.Carries (Sends f V) o := by
  rintro v w v' w' ⟨hv, rfl⟩ ⟨hv', rfl⟩
  cases o with
  | ascending => exact (hf.lt_iff_lt hv hv').symm
  | descending => exact (hf.lt_iff_lt hv' hv).symm

/-- A decreasing function carries each order over to the other. -/
theorem carries_of_strictAntiOn (hf : StrictAntiOn f V) (o : ValueOrder) :
    o.Carries (Sends f V) o.opposite := by
  rintro v w v' w' ⟨hv, rfl⟩ ⟨hv', rfl⟩
  cases o with
  | ascending => exact (hf.lt_iff_gt hv' hv).symm
  | descending => exact (hf.lt_iff_gt hv hv').symm

end ValueOrder

/-! ## Solutions -/

/-- The solution with a function applied to its values. -/
def Solution.mapped (f : Int → Int) (s : Solution) : Solution :=
  ⟨s.assignments.map fun a => ⟨a.index, f a.value⟩⟩

/-- The outcome with a function applied to the values of its solutions. -/
def Outcome.mapped (f : Int → Int) (o : Outcome) : Outcome :=
  { o with solutions := o.solutions.map (·.mapped f) }

/-- A solution that is renamed by a function is the solution with the function
applied. -/
theorem Solution.Renamed.eq_mapped {f : Int → Int} {V : Set Int}
    {s t : Solution} (h : s.Renamed (Sends f V) t) : t = s.mapped f := by
  have hassignments :=
    map_eq_of_forall₂ (g := id)
      (f := fun a : Assignment => ⟨a.index, f a.value⟩)
      h fun a b hab => by
        obtain ⟨hindex, _, hvalue⟩ := hab
        rw [hindex.symm, hvalue]
        rfl
  rw [List.map_id] at hassignments
  exact congrArg Solution.mk hassignments

/-! ## Networks -/

/-- The constraint with a function applied to both values of each pair. -/
def Constraint.mapped (f : Int → Int) (c : Constraint) : Constraint :=
  { first := c.first, second := c.second, pairs := c.pairs.map (Prod.map f f) }

/-- The insertion of the constraint with a function applied to its values. -/
def Insertion.mapped (f : Int → Int) : Insertion → Insertion
  | directed c => directed (c.mapped f)
  | symmetric c => symmetric (c.mapped f)

/-- The parts of an insertion, one constraint or two, are mapped one by one. -/
theorem Insertion.parts_mapped (f : Int → Int) (i : Insertion) :
    (i.mapped f).parts = i.parts.map (·.mapped f) := by
  cases i with
  | directed c => rfl
  | symmetric c =>
      have htransposed : (c.mapped f).transposed = c.transposed.mapped f :=
        Constraint.ext_pairs rfl rfl
          (by simp [Constraint.mapped, Constraint.transposed])
      exact congrArg (fun d => [d, c.mapped f]) htransposed

/-- The same arcs, each with what a function sends its pairs to. -/
structure Network.MappedBy (f : Int → Int) (net net' : Network) : Prop where
  arcs : net'.arcs = net.arcs
  pairs : ∀ a c d, net.find? a = some c → net'.find? a = some d →
    ∀ p, p ∈ d.pairs ↔ ∃ q ∈ c.pairs, Prod.map f f q = p

namespace Network

variable {f : Int → Int} {V : Set Int} {net net' : Network}

/-- The values of the pairs that a network lists. -/
def listed (net : Network) : Set Int :=
  {v | ∃ a c, net.find? a = some c ∧ ∃ p ∈ c.pairs, v = p.1 ∨ v = p.2}

/-- Networks are renamed by a function that keeps their values apart. -/
theorem MappedBy.renamed (h : net.MappedBy f net') (hf : V.InjOn f)
    (hV : net.listed ⊆ V) : net.Renamed (Sends f V) net' where
  arcs := h.arcs
  allows a u u' v v' hu hv := by
    obtain ⟨hu, rfl⟩ := hu
    obtain ⟨hv, rfl⟩ := hv
    rw [Network.allows, Network.allows]
    rcases cases_of_rel (find?_of_arcs h.arcs (h.pairs a)) with
      ⟨hc, hd⟩ | ⟨c, d, hc, hd, hcd⟩
    · rw [hc, hd]
      rfl
    · rw [hc, hd, Option.elim_some, Option.elim_some, Bool.eq_iff_iff,
        Constraint.allows_iff, Constraint.allows_iff, hcd]
      constructor
      · rintro ⟨⟨x, y⟩, hmem, hxy⟩
        obtain ⟨hx, hy⟩ := Prod.mk.inj hxy
        have hxV : x ∈ V := hV ⟨a, c, hc, _, hmem, .inl rfl⟩
        have hyV : y ∈ V := hV ⟨a, c, hc, _, hmem, .inr rfl⟩
        rw [← hf hxV hu hx, ← hf hyV hv hy]
        exact hmem
      · exact fun hmem => ⟨_, hmem, rfl⟩

/-- **Sending constraints on and then putting them in** gives the network that
they would have made, sent on, if the function keeps the values apart that they
list. -/
theorem mappedBy_ofInsertions {l : List Insertion} (hf : V.InjOn f)
    (hV : ∀ c ∈ l.flatMap Insertion.parts, ∀ p ∈ c.pairs, p.1 ∈ V ∧ p.2 ∈ V) :
    (ofInsertions l).MappedBy f (ofInsertions (l.map (·.mapped f))) := by
  have hmeets : (ofInsertions l).Meets (l.flatMap Insertion.parts) :=
    ofInsertions_eq l ▸ meets_ofConstraints _
  have hmapped : (ofInsertions (l.map (·.mapped f))).Meets
      ((l.flatMap Insertion.parts).map (·.mapped f)) := by
    have hparts : (l.map (·.mapped f)).flatMap Insertion.parts =
        (l.flatMap Insertion.parts).map (·.mapped f) := by
      simp only [List.flatMap_map, List.map_flatMap, Insertion.parts_mapped]
    rw [ofInsertions_eq, hparts]
    exact meets_ofConstraints _
  have hcarried : ∀ a, ((ofInsertions (l.map (·.mapped f))).find? a).isSome ↔
      ((ofInsertions l).find? a).isSome := by
    intro a
    rw [hmapped.carried, hmeets.carried]
    simp only [List.mem_map, exists_exists_and_eq_and]
    exact Iff.rfl
  refine ⟨arcs_eq_of_isSome hcarried, fun a c d hc hd => ?_⟩
  rintro ⟨u, v⟩
  rw [hmapped.listed a d hd, List.forall_mem_map]
  constructor
  · intro hall
    obtain ⟨b, hb, hba⟩ := (hmeets.carried a).mp (by rw [hc]; rfl)
    obtain ⟨q, hq, hquv⟩ := List.mem_map.mp (hall b hb hba)
    -- The pair that one constraint lists is the pair that they all list.
    refine ⟨q, (hmeets.listed a c hc q.1 q.2).mpr fun e he hea => ?_, hquv⟩
    obtain ⟨q', hq', hquv'⟩ := List.mem_map.mp (hall e he hea)
    obtain ⟨hfirst, hsecond⟩ := Prod.mk.inj (hquv'.trans hquv.symm)
    have heq : q' = q :=
      Prod.ext (hf (hV e he q' hq').1 (hV b hb q hq).1 hfirst)
        (hf (hV e he q' hq').2 (hV b hb q hq).2 hsecond)
    exact heq ▸ hq'
  · rintro ⟨q, hq, hquv⟩ e he hea
    exact List.mem_map.mpr ⟨q, (hmeets.listed a c hc q.1 q.2).mp hq e he hea,
      hquv⟩

end Network

/-! ## Variables -/

/-- The variable at the same place that starts with what a function sends the
values to. -/
structure Variable.MappedBy (f : Int → Int) (x y : Variable) : Prop where
  id : y.id = x.id
  initial : ∀ w, w ∈ y.initial ↔ ∃ v, v ∈ x.initial ∧ f v = w

namespace Variable

variable {f : Int → Int} {V : Set Int} {x y : Variable}

/-- Fresh variables are renamed by a function. -/
theorem MappedBy.renamed (h : x.MappedBy f y) (hx : x.IsFresh) (hy : y.IsFresh)
    (hV : ∀ v, v ∈ x.initial → v ∈ V) : x.Renamed (Sends f V) y where
  id := h.id
  domain := by
    have hinitial : Paired (Sends f V) (· ∈ x.initial) (· ∈ y.initial) :=
      ⟨fun v hv => ⟨f v, (h.initial _).mpr ⟨v, hv, rfl⟩, hV v hv, rfl⟩,
        fun w hw => by
        obtain ⟨v, hv, hvw⟩ := (h.initial w).mp hw
        exact ⟨v, hv, hV v hv, hvw⟩⟩
    exact hinitial.congr hx.mem_domain hy.mem_domain
  value := by
    rw [hx.value, hy.value]
    exact .none
  tried := by
    rw [hx.tried, hy.tried]
    exact .nil
  marked := by
    rw [hx.marked, hy.marked]
    exact Exclusion.Stack.renamed_empty _
  pending := ⟨hx.pending, hy.pending⟩

/-- Fresh renamed variables are copies if their domains are trees of one shape;
there are no prunes whose order could differ. -/
theorem Renamed.copies_of_isFresh {P : Int → Int → Prop} (h : x.Renamed P y)
    (hx : x.IsFresh) (hy : y.IsFresh) (hshape : x.domain.Copies P y.domain) :
    x.Copies P y :=
  { h with
    shape := hshape
    pruned := by
      rw [hx.pruned, hy.pruned]
      exact .nil }

/-- A function sends a variable to no more values than it has. -/
theorem MappedBy.size_le (h : x.MappedBy f y) :
    y.initial.size ≤ x.initial.size := by
  have hsub : y.initial.toList ⊆ x.initial.toList.map f := fun w hw =>
    List.mem_map.mpr ((h.initial w).mp hw)
  have hnodup : y.initial.toList.Nodup := y.initial.values.nodup
  have hle := (List.subperm_of_subset hnodup hsub).length_le
  rwa [List.length_map] at hle

end Variable

namespace Arena

variable {f : Int → Int} {V : Set Int} {m k : Arena} {ls : List (List Int)}

/-- The values that some variable starts with. -/
def initials (m : Arena) : Set Int :=
  {v | ∃ i x, m.read i = .ok x ∧ v ∈ x.initial}

/-- The values that occur in a problem. -/
def occurring (m : Arena) (net : Network) : Set Int := m.initials ∪ net.listed

/-- Fresh variables in their places, each filled with the values of a list in
turn. -/
def filled (ls : List (List Int)) : Arena := .ofList (ls.mapIdx Variable.new)

/-- Where the variables of a filled arena are read, and what they are filled
with. -/
theorem read_filled {i : Nat} {x : Variable} :
    (filled ls).read i = .ok x ↔
    ∃ l, ls[i]? = some l ∧ Variable.new i l = x := by
  rw [read_eq_ok, filled, ofList, List.getElem?_toArray, List.getElem?_mapIdx,
    Option.map_eq_some_iff]

/-- A filled arena is fresh. -/
theorem isFresh_filled (ls : List (List Int)) : (filled ls).IsFresh := by
  intro i x hx
  obtain ⟨l, _, rfl⟩ := read_filled.mp hx
  exact Variable.isFresh_fresh _ _

/-- Its variables have the ids of their places. -/
theorem isNumbered_filled (ls : List (List Int)) : (filled ls).IsNumbered := by
  intro i x hx
  obtain ⟨l, _, rfl⟩ := read_filled.mp hx
  rfl

/-- It has one variable for each list. -/
theorem size_filled (ls : List (List Int)) : (filled ls).size = ls.length := by
  simp [filled, ofList, size]

/-- Variables of two arenas that are filled with lists and with what a function
sends these to. -/
theorem matched_filled {R : Variable → Variable → Prop}
    (hR : ∀ i l, l ∈ ls → R (.new i l) (.new i (l.map f))) :
    (filled ls).Matched R (filled (ls.map (·.map f))) where
  size := by rw [size_filled, size_filled, List.length_map]
  read i x y hx hy := by
    obtain ⟨l, hl, rfl⟩ := read_filled.mp hx
    obtain ⟨l', hl', rfl⟩ := read_filled.mp hy
    rw [List.getElem?_map, hl] at hl'
    cases hl'
    exact hR i l (List.mem_of_getElem? hl)

/-- Filling with what a function sends the lists to gives variables that the
function sends the others to, whatever the function. -/
theorem mappedBy_filled (f : Int → Int) (ls : List (List Int)) :
    (filled ls).Matched (Variable.MappedBy f) (filled (ls.map (·.map f))) :=
  matched_filled fun i l _ => ⟨rfl, fun w => by
    simp only [Variable.new, Variable.fresh, Domain.mem_ofList, List.mem_map]⟩

/-- **Domains filled in the same order have trees of the same shape.** -/
theorem copies_filled (hf : StrictMonoOn f V) (hV : ∀ l ∈ ls, ∀ v ∈ l, v ∈ V) :
    (filled ls).Matched (fun x y => x.domain.Copies (Sends f V) y.domain)
      (filled (ls.map (·.map f))) := by
  refine matched_filled fun i l hl =>
    .ofList (ValueOrder.carries_of_strictMonoOn hf .ascending) ?_
  rw [List.forall₂_map_right_iff, List.forall₂_same]
  exact fun v hv => ⟨hV l hl v hv, rfl⟩

/-- Variables that correspond to those in their places are in their places. -/
theorem Matched.isNumbered {R : Variable → Variable → Prop} (h : m.Matched R k)
    (hm : m.IsNumbered) (hid : ∀ x y, R x y → y.id = x.id) : k.IsNumbered := by
  intro i y hy
  obtain ⟨x, hx⟩ := Arena.exists_read (h.size ▸ lt_of_read hy : i < m.size)
  rw [hid x y (h.read i x y hx hy), hm i x hx]

/-- Fresh variables are renamed by a function on the values that occur. -/
theorem Matched.renamed (h : m.Matched (Variable.MappedBy f) k) (hm : m.IsFresh)
    (hk : k.IsFresh) (hV : m.initials ⊆ V) :
    m.Matched (Variable.Renamed (Sends f V)) k :=
  ⟨h.size, fun i x y hx hy =>
    (h.read i x y hx hy).renamed (hm i x hx) (hk i y hy) fun _ hv =>
    hV ⟨i, x, hx, hv⟩⟩

end Arena

/-! ## Engines -/

namespace Engine

variable {e : Engine} {m k : Arena} {net net' : Network} {f : Int → Int}
  {P : Int → Int → Prop} {V : Set Int}

/-- The engine under another value order. -/
def under (o : ValueOrder) (e : Engine) : Engine := { e with valueOrder := o }

/-- What stays the same while the engine searches. -/
def branching (e : Engine) (net : Network) : Branching Random.Generator :=
  e.algorithm.branching e.variableOrder.select e.valueOrder e.limit net

/-- The engine overlooks no value. -/
def Heeds (e : Engine) (m : Arena) (net : Network) : Prop :=
  ∀ c, e.algorithm.Makes (e.branching net) m e.generator c →
    ¬ (e.branching net).Overlooks c

/-- One engine answers one problem and another engine the other, with a function
applied to the values of the solutions; the counts are the same, and so is what
is left of the generators. -/
def AnswersMapped (f : Int → Int) (e e' : Engine) (m k : Arena)
    (net net' : Network) : Prop :=
  ∃ outcome a a' g, e.solveBuilt m net =
      .ok (outcome, a, { e with generator := g }) ∧
    e'.solveBuilt k net' = .ok (outcome.mapped f, a',
      { e' with generator := g })

/-- A renaming of the network renames what stays the same during a search, under
the opposite value order where it reverses the values. -/
theorem branching_renamed (hP : BiUnique P) (hnet : net.Renamed P net')
    (e : Engine) (o : ValueOrder) :
    (e.branching net).Renamed P ((e.under o).branching net') where
  propagator := ⟨hnet, rfl⟩
  selector h g :=
    VariableOrder.select_of_matched hP h hnet.arcs e.variableOrder g
  limit := rfl

/-- What the engine answers is what it explores. -/
theorem solveBuilt_of_explore {g : Random.Generator} {s : Search}
    (hnumbered : m.IsNumbered) (hnet : net.Within m.size)
    (h : e.algorithm.explore (e.branching net) m e.generator = .ok (g, s))
    (htrail : s.trail = ∅) :
    e.solveBuilt m net =
      .ok (⟨s.solutions.toList, s.tally⟩, s.arena,
        { e with generator := g }) := by
  rw [solveBuilt, check_of_within hnumbered hnet]
  simp only [Algorithm.solve_of_explore h htrail]

/-- Explorations that go together answer alike. -/
theorem answersMapped_of_jointly (o : ValueOrder) (hm : m.IsFresh)
    (hk : k.IsFresh) (hnumbered : m.IsNumbered) (hnumbered' : k.IsNumbered)
    (hnet : net.Within m.size) (hnet' : net'.Within k.size)
    (h : Jointly (fun p q => p.1 = q.1 ∧
      List.Forall₂ (Solution.Renamed (Sends f V)) p.2.solutions.toList
        q.2.solutions.toList ∧ q.2.tally =
          p.2.tally) (e.algorithm.explore (e.branching net) m e.generator)
            (e.algorithm.explore ((e.under o).branching net') k e.generator)) :
    e.AnswersMapped f (e.under o) m k net net' := by
  have hsafe := e.variableOrder.isLegal.isSafe
  obtain ⟨g, s, hs, _, htrail, _⟩ :=
    Algorithm.explore_of_isFresh (b := e.branching net) e.algorithm
      e.generator hsafe hm hnumbered hnet
  obtain ⟨g', t, ht, _, htrail', _⟩ := Algorithm.explore_of_isFresh
    (b := (e.under o).branching net') e.algorithm e.generator hsafe hk
    hnumbered' hnet'
  obtain ⟨rfl, hsolutions, htally⟩ := h _ _ hs ht
  have hmapped : t.solutions.toList = s.solutions.toList.map (·.mapped f) := by
    have := map_eq_of_forall₂ (g := id) hsolutions fun _ _ hst => hst.eq_mapped
    rwa [List.map_id] at this
  refine ⟨⟨s.solutions.toList, s.tally⟩, s.arena, t.arena, g,
    solveBuilt_of_explore hnumbered hnet hs htrail, ?_⟩
  rw [solveBuilt_of_explore (e := e.under o) hnumbered' hnet' ht htrail',
    hmapped, htally]
  rfl

/-- **Values matter by their order only.**  A function sends fresh variables and
a network to others.  If it is increasing on the values that occur, then the
engine answers alike, provided that each domain has a tree of the same shape or
that neither run overlooks a value.  If it is decreasing, then the engine and
the one under the opposite value order answer alike, provided that neither run
overlooks a value.  None is overlooked under the ascending value order, or if no
variable starts with 2047 values or more. -/
theorem solveBuilt_of_mapped (e : Engine) (hm : m.IsFresh) (hk : k.IsFresh)
    (hnumbered : m.IsNumbered) (hnet : net.Within m.size)
    (hvariables : m.Matched (Variable.MappedBy f) k)
    (hpairs : net.MappedBy f net') :
    let V := m.occurring net
    (StrictMonoOn f V →
      m.Matched (fun x y => x.domain.Copies (Sends f V) y.domain) k ∨
        e.Heeds m net ∧ e.Heeds k net' →
      e.AnswersMapped f e m k net net') ∧
    (StrictAntiOn f V →
      e.Heeds m net ∧ (e.under e.valueOrder.opposite).Heeds k net' →
      e.AnswersMapped f (e.under e.valueOrder.opposite) m k net net') ∧
    ∀ o, o = .ascending ∨ (∀ i x, m.read i = .ok x → x.initial.size < 2047) →
      (e.under o).Heeds m net ∧ (e.under o).Heeds k net' := by
  intro V
  have hsafe := e.variableOrder.isLegal.isSafe
  have hnumbered' : k.IsNumbered :=
    hvariables.isNumbered hnumbered fun _ _ hxy => hxy.id
  have hnet' : net'.Within k.size := by
    intro a ha
    rw [hvariables.size]
    exact hnet a (hpairs.arcs ▸ ha)
  have hrenamed : m.Matched (Variable.Renamed (Sends f V)) k :=
    hvariables.renamed hm hk Set.subset_union_left
  have hnetworks : V.InjOn f → net.Renamed (Sends f V) net' := fun hf =>
    hpairs.renamed hf Set.subset_union_right
  -- Two runs that heed all values, under orders that go together.
  have hmirrored : ∀ o, V.InjOn f → e.valueOrder.Carries (Sends f V) o →
      e.Heeds m net ∧ (e.under o).Heeds k net' →
      e.AnswersMapped f (e.under o) m k net net' := by
    intro o hf horder hheeds
    refine answersMapped_of_jointly (V := V) o hm hk hnumbered hnumbered'
      hnet hnet' ?_
    exact Algorithm.explore_mirrored
      (branching_renamed horder.biUnique (hnetworks hf) e o) horder
      hsafe hsafe hm hk hnumbered hnumbered' hnet hnet' hrenamed
        hheeds.1 hheeds.2
  refine ⟨fun hf hruns => ?_, fun hf hheeds => ?_,
    fun o hfew => ⟨fun c hc => ?_, fun c hc => ?_⟩⟩
  · rcases hruns with hshapes | hheeds
    · have hP : Domain.Ordered (Sends f V) :=
        ValueOrder.carries_of_strictMonoOn hf .ascending
      have hcopies : m.Matched (Variable.Copies (Sends f V)) k :=
        ⟨hvariables.size,
          fun i x y hx hy =>
            (hrenamed.read i x y hx hy).copies_of_isFresh (hm i x hx)
              (hk i y hy)
            (hshapes.read i x y hx hy)⟩
      refine answersMapped_of_jointly (V := V) e.valueOrder hm hk hnumbered
        hnumbered' hnet hnet' ?_
      intro p q hp hq
      obtain ⟨hstate, hst⟩ := Algorithm.explore_copied hP
        (branching_renamed hP.biUnique (hnetworks hf.injOn) e e.valueOrder) rfl
        _ _ hcopies
        p q hp hq
      exact ⟨hstate, hst.solutions, hst.workspace.tally⟩
    · exact hmirrored e.valueOrder hf.injOn
        (ValueOrder.carries_of_strictMonoOn hf _) hheeds
  · exact hmirrored _ hf.injOn (ValueOrder.carries_of_strictAntiOn hf _) hheeds
  · exact (hc.ready hsafe hm hnumbered hnet).not_overlooks hfew
  · refine (hc.ready hsafe hk hnumbered' hnet').not_overlooks
      (hfew.imp_right fun hfew i y hy => ?_)
    obtain ⟨x, hx⟩ :=
      Arena.exists_read (hvariables.size ▸ Arena.lt_of_read hy : i < m.size)
    exact Nat.lt_of_le_of_lt (hvariables.read i x y hx hy).size_le (hfew i x hx)

/-- Two variables with one constraint between them, their values multiplied by
ten and negated. -/
theorem solveBuilt_of_mapped_of_two :
    let l : List Insertion :=
      [.symmetric { first := 0, second := 1, pairs := [(0, 1), (1, 2)] }]
    let ls : List (List Int) := [[0, 1], [0, 1, 2]]
    let e : Engine :=
      ⟨.maintainArcConsistency, .random, .descending, .all, .ofSeed 7⟩
    let e' : Engine :=
      ⟨.maintainArcConsistency, .random, .ascending, .all, .ofSeed 7⟩
    let answers (f : Int → Int) := fun e' => e.AnswersMapped f e' (.filled ls)
      (.filled (ls.map (·.map f))) (.ofInsertions l)
        (.ofInsertions (l.map (·.mapped f)))
    answers (10 * ·) e ∧ answers (- ·) e' := by
  intro l ls e e' answers
  have hnet : (Network.ofInsertions l).Within (Arena.filled ls).size := by
    have harcs : (Network.ofInsertions l).arcs =
      [⟨0, 1⟩, ⟨1, 0⟩] := by decide +kernel
    intro a ha
    rw [harcs] at ha
    revert a
    decide
  have hinsertions : ∀ f : Int → Int, Function.Injective f →
      (Network.ofInsertions l).MappedBy f
        (.ofInsertions (l.map (·.mapped f))) := fun f hf =>
    Network.mappedBy_ofInsertions (V := Set.univ) (Set.injOn_of_injective hf)
      fun _ _ _ _ =>
      ⟨trivial, trivial⟩
  have hfew : ∀ i x, (Arena.filled ls).read i = .ok x →
      x.initial.size < 2047 := by
    have hsizes : ∀ x ∈ ls.mapIdx Variable.new,
      x.initial.size < 2047 := by decide +kernel
    exact fun i x hx => hsizes x (Arena.mem_of_read_ofList hx)
  constructor
  · have hten : StrictMono fun v : Int =>
      10 * v := fun a b hab => by simp only; omega
    obtain ⟨hincreasing, _⟩ := solveBuilt_of_mapped e (Arena.isFresh_filled ls)
      (Arena.isFresh_filled _) (Arena.isNumbered_filled ls) hnet
      (Arena.mappedBy_filled (10 * ·) ls)
      (hinsertions _ hten.injective)
    refine hincreasing (hten.strictMonoOn _) (.inl ?_)
    refine Arena.copies_filled (hten.strictMonoOn _) fun l hl v hv => .inl ?_
    obtain ⟨i, hi⟩ := List.getElem?_of_mem hl
    exact ⟨i, .new i l, Arena.read_filled.mpr ⟨l, hi, rfl⟩,
      Domain.mem_ofList.mpr hv⟩
  · have hneg : StrictAnti fun v : Int => - v :=
      fun a b hab => by simp only; omega
    obtain ⟨_, hdecreasing, hheeds⟩ :=
      solveBuilt_of_mapped e (Arena.isFresh_filled ls)
        (Arena.isFresh_filled _) (Arena.isNumbered_filled ls) hnet
        (Arena.mappedBy_filled (- ·) ls)
        (hinsertions _ hneg.injective)
    exact hdecreasing (hneg.strictAntiOn _)
      ⟨(hheeds .descending (.inr hfew)).1, (hheeds .ascending (.inl rfl)).2⟩

end Engine

end ConstraintNet
