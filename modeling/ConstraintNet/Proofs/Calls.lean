import Mathlib.Logic.Relation
import ConstraintNet.Proofs.Branches

/-!
# The calls of a search

A search calls itself below each decision that propagation lets stand.  `Enters`
relates a call to those it makes, `Reaches` to all calls below it.

A call gives up when variables without a value are left and the orders name none
of them, or no value to try.  It should do so only where no value is left to
try, but a value order that overlooks values gives up too early, and then loses
every assignment that it still admitted.

`answers_of_sound` is the main theorem: a call succeeds, leaves variables and
trail as it found them, and finds, each once, the assignments that it admits,
that hold on the network and that no call below it loses.
-/

namespace ConstraintNet

/-- A variable order that picks none but variables without a value. -/
def Selector.IsSafe {σ : Type} (select : Selector σ) : Prop :=
  ∀ m net g i g', (∀ j x, m.read j = .ok x → x.id = j) → m.isComplete = false →
    select m net g = (some i, g') → ∃ x, m.read i = .ok x ∧ x.value = none

/-- What a value order selects is live, and no open choice has tried it. -/
theorem ValueOrder.mem_of_select {o : ValueOrder} {x : Variable} {v : Int}
    (h : o.select x = some v) : v ∈ x.live ∧ v ∉ x.tried.values := by
  have hfound : v ∈ x.domain ∧
      (!x.marked.contains v && !x.wasTried v) = true := by
    cases o with
    | ascending =>
        rw [select, Variable.smallestUntried?, Domain.findUp?_eq] at h
        have htests := List.find?_some h
        exact ⟨List.mem_of_find?_eq_some h, htests⟩
    | descending =>
        rw [select, Variable.largestUntried?, Domain.findDown?_eq] at h
        have htests := List.find?_some h
        exact ⟨Domain.mem_of_mem_walk (List.mem_of_find?_eq_some h), htests⟩
  obtain ⟨hdomain, htests⟩ := hfound
  simp only [Bool.and_eq_true, Bool.not_eq_true', ← Bool.not_eq_true] at htests
  exact ⟨Variable.mem_live.mpr
    ⟨hdomain, fun hm => htests.1 (decide_eq_true hm)⟩,
    fun ht => htests.2 (Choices.contains_iff.mpr ht)⟩

/-- One call of a search: how deep it may go, the state of the variable order
and what the search has come to. -/
structure Call (σ : Type) where
  depth : Nat
  state : σ
  search : Search

namespace Branching

variable {σ : Type} {b : Branching σ} {c c' : Call σ} {d : Nat} {g g' : σ}
  {s t : Search} {i : Nat} {v : Int} {τ : Nat → Int}

/-- The call branches on variable `i` and the value `v`, and the variable order
goes on with the state `g`. -/
structure Picks (b : Branching σ) (c : Call σ) (i : Nat) (v : Int) (g : σ) :
    Prop where
  incomplete : c.search.arena.isComplete = false
  selected : b.selector c.search.arena b.propagator.network c.state =
    (some i, g)
  offered : ∃ x, c.search.arena.read i = .ok x ∧ b.valueOrder.select x = some v

/-- Variables without a value are left, but the call does not branch. -/
def GivesUp (b : Branching σ) (c : Call σ) : Prop :=
  c.search.arena.isComplete = false ∧ ∀ i v g, ¬ b.Picks c i v g

/-- A call and one that it makes, on its left or on its right branch. -/
inductive Enters (b : Branching σ) : Call σ → Call σ → Prop
  | left {d : Nat} {g g' : σ} {s t : Search} {i : Nat} {v : Int}
      (hpicks : b.Picks ⟨d + 1, g, s⟩ i v g')
      (haccept : b.accept i v s.node = .ok (true, t)) :
      Enters b ⟨d + 1, g, s⟩ ⟨d, g', t⟩
  | right {d : Nat} {g g' g'' : σ} {s r t : Search} {i : Nat} {v : Int}
      (hpicks : b.Picks ⟨d + 1, g, s⟩ i v g')
      (hleft : b.left (b.search d) i v g' s.node.trail.checkpoint s.node =
        .ok (.goOn, g'', r))
      (hrefute : b.refute i v r = .ok (true, t)) :
      Enters b ⟨d + 1, g, s⟩ ⟨d, g'', t⟩

/-- A call and one below it, or the call itself. -/
def Reaches (b : Branching σ) : Call σ → Call σ → Prop :=
  Relation.ReflTransGen b.Enters

/-- Some call below, or the call itself, gives up while it admits the
assignment. -/
def Loses (b : Branching σ) (c : Call σ) (τ : Nat → Int) : Prop :=
  ∃ c', b.Reaches c c' ∧ b.GivesUp c' ∧ c'.search.arena.Admits τ

/-- The assignments that a call should find. -/
def Wanted (b : Branching σ) (c : Call σ) (τ : Nat → Int) : Prop :=
  c.search.arena.Admits τ ∧ b.propagator.network.Holds τ ∧ ¬ b.Loses c τ

/-- What a call answers. -/
structure Answers (b : Branching σ) (c : Call σ) (flow : Flow) (t : Search) :
    Prop where
  alike : c.search.arena.Alike t.arena
  trail : t.trail = c.search.trail
  found : ∃ l, t.solutions.toList = c.search.solutions.toList ++ l ∧
    Enumerates c.search.arena.size (b.Wanted c) (flow = .goOn) l
  narrows : ∀ τ, b.propagator.network.Holds τ → b.Loses c τ →
    c.search.arena.Admits τ
  unlimited : b.limit = .all → flow = .goOn

/-- A call branches one way only. -/
theorem Picks.unique {i' : Nat} {v' : Int} {g'' : σ} (h : b.Picks c i v g)
    (h' : b.Picks c i' v' g'') : i' = i ∧ v' = v ∧ g'' = g := by
  have hselected := h.selected.symm.trans h'.selected
  simp only [Prod.mk.injEq, Option.some.injEq] at hselected
  obtain ⟨rfl, rfl⟩ := hselected
  obtain ⟨x, hx, hv⟩ := h.offered
  obtain ⟨x', hx', hv'⟩ := h'.offered
  rw [Arena.read_unique hx' hx, hv] at hv'
  exact ⟨rfl, (Option.some.inj hv').symm, rfl⟩

/-- A safe selector picks a variable that has no value, and the value that is
picked is live and untried. -/
theorem Picks.offers (h : b.Picks c i v g) (hsafe : b.selector.IsSafe)
    (hs : c.search.arena.Orderly) : ∃ x, c.search.arena.Offers i x v := by
  obtain ⟨x, hx, hv⟩ := h.offered
  obtain ⟨x', hx', hvalue⟩ :=
    hsafe _ _ _ i g hs.numbered h.incomplete h.selected
  obtain ⟨hlive, huntried⟩ := ValueOrder.mem_of_select hv
  exact ⟨x, hx, Arena.read_unique hx' hx ▸ hvalue, hlive, huntried⟩

/-- Below a call that does not branch there is only the call itself. -/
theorem reaches_of_not_picks (h : ∀ i v g, ¬ b.Picks c i v g) :
    b.Reaches c c' ↔ c' = c := by
  constructor
  · intro hreaches
    rcases Relation.ReflTransGen.cases_head hreaches with heq | ⟨e, henters, _⟩
    · exact heq.symm
    · cases henters with
      | left hpicks => exact absurd hpicks (h _ _ _)
      | right hpicks => exact absurd hpicks (h _ _ _)
  · rintro rfl
    exact .refl

/-- Nothing is picked when all variables have values. -/
theorem not_picks_of_isComplete (h : c.search.arena.isComplete) (i : Nat)
    (v : Int) (g : σ) : ¬ b.Picks c i v g := by
  intro hpicks
  rw [hpicks.incomplete] at h
  cases h

/-- A call that does not branch loses what it admits, if variables without a
value are left. -/
theorem loses_of_givesUp (h : b.GivesUp c) :
    b.Loses c τ ↔ c.search.arena.Admits τ := by
  constructor
  · rintro ⟨c', hreaches, _, hadmits⟩
    exact (reaches_of_not_picks h.2).mp hreaches ▸ hadmits
  · exact fun hadmits => ⟨c, .refl, h, hadmits⟩

/-- A call at a complete node loses nothing. -/
theorem not_loses_of_isComplete (h : c.search.arena.isComplete) :
    ¬ b.Loses c τ := by
  rintro ⟨c', hreaches, hgives, _⟩
  obtain rfl := (reaches_of_not_picks (not_picks_of_isComplete h)).mp hreaches
  rw [hgives.1] at h
  cases h

/-- Below a call that branches are the call itself and what is below the calls
it makes. -/
theorem reaches_of_picks (h : b.Picks ⟨d + 1, g, s⟩ i v g') :
    b.Reaches ⟨d + 1, g, s⟩ c' ↔ c' = ⟨d + 1, g, s⟩ ∨
      (∃ t, b.accept i v s.node = .ok (true, t) ∧ b.Reaches ⟨d, g', t⟩ c') ∨
      (∃ g'' r t, b.left (b.search d) i v g' s.node.trail.checkpoint s.node =
          .ok (.goOn, g'', r) ∧
        b.refute i v r = .ok (true, t) ∧ b.Reaches ⟨d, g'', t⟩ c') := by
  constructor
  · intro hreaches
    rcases Relation.ReflTransGen.cases_head hreaches with
      heq | ⟨e, henters, hrest⟩
    · exact Or.inl heq.symm
    · cases henters with
      | left hpicks haccept =>
          obtain ⟨rfl, rfl, rfl⟩ := h.unique hpicks
          exact Or.inr (Or.inl ⟨_, haccept, hrest⟩)
      | right hpicks hleft hrefute =>
          obtain ⟨rfl, rfl, rfl⟩ := h.unique hpicks
          exact Or.inr (Or.inr ⟨_, _, _, hleft, hrefute, hrest⟩)
  · rintro (rfl | ⟨t, haccept, hreaches⟩ |
      ⟨g'', r, t, hleft, hrefute, hreaches⟩)
    · exact .refl
    · exact Relation.ReflTransGen.head (.left h haccept) hreaches
    · exact Relation.ReflTransGen.head (.right h hleft hrefute) hreaches

/-- If its left branch met the limit, these are below that branch. -/
theorem reaches_of_stopped {g'' : σ} {r : Search}
    (hpicks : b.Picks ⟨d + 1, g, s⟩ i v g')
    (haccept : b.accept i v s.node = .ok (true, t))
    (hleft : b.left (b.search d) i v g' s.node.trail.checkpoint s.node =
      .ok (.stop, g'', r)) :
    b.Reaches ⟨d + 1, g, s⟩ c' ↔
    c' = ⟨d + 1, g, s⟩ ∨ b.Reaches ⟨d, g', t⟩ c' := by
  rw [reaches_of_picks hpicks, haccept, hleft]
  simp

/-- If not, they are below the branches that stand. -/
theorem reaches_of_both {g₁ : σ} {r₁ t₁ t₂ : Search} {ok₁ ok₂ : Bool}
    (hpicks : b.Picks ⟨d + 1, g, s⟩ i v g')
    (haccept : b.accept i v s.node = .ok (ok₁, t₁))
    (hleft : b.left (b.search d) i v g' s.node.trail.checkpoint s.node =
      .ok (.goOn, g₁, r₁))
    (hrefute : b.refute i v r₁ = .ok (ok₂, t₂)) :
    b.Reaches ⟨d + 1, g, s⟩ c' ↔ c' = ⟨d + 1, g, s⟩ ∨
      (ok₁ = true ∧ b.Reaches ⟨d, g', t₁⟩ c') ∨
      (ok₂ = true ∧ b.Reaches ⟨d, g₁, t₂⟩ c') := by
  rw [reaches_of_picks hpicks, haccept, hleft]
  refine or_congr Iff.rfl (or_congr ?_ ?_)
  · constructor
    · rintro ⟨t, ht, hreaches⟩
      cases ht
      exact ⟨rfl, hreaches⟩
    · rintro ⟨rfl, hreaches⟩
      exact ⟨t₁, rfl, hreaches⟩
  · constructor
    · rintro ⟨g, r, t, hr, ht, hreaches⟩
      cases hr
      rw [hrefute] at ht
      cases ht
      exact ⟨rfl, hreaches⟩
    · rintro ⟨rfl, hreaches⟩
      exact ⟨g₁, r₁, t₂, rfl, hrefute, hreaches⟩

/-! ## What a call answers -/

/-- All variables in place and with values make one solution, which holds. -/
theorem exists_assignment (hs : s.Sound b.propagator.network)
    (hcomplete : s.arena.isComplete) :
    ∃ τ, Solution.ofArena? s.arena = some (.tabulate s.arena.size τ) ∧
      b.propagator.network.Holds τ ∧ s.arena.Admits τ ∧
      ∀ ρ, s.arena.Admits ρ → ∀ i, i < s.arena.size → ρ i = τ i := by
  let τ : Nat → Int := fun i =>
    ((s.arena.read i).toOption.bind (·.value)).getD 0
  have hvalue : ∀ i x, s.arena.read i = .ok x → x.value = some (τ i) := by
    intro i x hx
    obtain ⟨v, hv⟩ :=
      Option.isSome_iff_exists.mp (Arena.isComplete_iff.mp hcomplete i x hx)
    have hτ : τ i = v := by
      simp only [τ, hx, Except.toOption, Option.bind_some, hv, Option.getD_some]
    rw [hτ]
    exact hv
  have hadmits : s.arena.Admits τ := by
    intro i hi
    obtain ⟨x, hx⟩ := Arena.exists_read hi
    rw [Arena.effective_of_read hx, Variable.mem_effective]
    refine ⟨hs.orderly.live i x _ hx (hvalue i x hx), fun u hu => ?_⟩
    rw [hvalue i x hx] at hu
    exact Option.some.inj hu
  refine ⟨τ, ?_, ?_, hadmits, ?_⟩
  · exact Solution.ofArena?_eq fun i x hx =>
      ⟨hs.orderly.numbered i x hx, hvalue i x hx⟩
  · intro a c hc
    obtain ⟨htail, hhead⟩ := hs.within a (Network.mem_arcs_of_find? hc)
    obtain ⟨x, hx⟩ := Arena.exists_read htail
    exact hs.agrees a c hc x _ hx (hvalue _ x hx) _ (hadmits _ hhead)
  · intro ρ hρ i hi
    obtain ⟨x, hx⟩ := Arena.exists_read hi
    have := hρ i hi
    rw [Arena.effective_of_read hx, Variable.mem_effective] at this
    exact this.2 _ (hvalue i x hx)

/-- Recording a solution succeeds at a complete node. -/
theorem record_of_isComplete (hs : s.Sound b.propagator.network)
    (hcomplete : s.arena.isComplete) (limit : Limit) :
    ∃ flow t τ, s.record b.propagator.network limit = .ok (flow, t) ∧
      t.toWorkspace = s.toWorkspace ∧
      t.solutions.toList = s.solutions.toList ++ [.tabulate s.arena.size τ] ∧
      b.propagator.network.Holds τ ∧ s.arena.Admits τ ∧
      (∀ ρ, s.arena.Admits ρ → ∀ i, i < s.arena.size → ρ i = τ i) ∧
      (limit = .all → flow = .goOn) := by
  obtain ⟨τ, hsolution, hholds, hadmits, honly⟩ :=
    exists_assignment hs hcomplete
  have hsatisfies := (Solution.satisfies_tabulate hs.within).mpr hholds
  let solutions := s.solutions.push (.tabulate s.arena.size τ)
  refine ⟨if limit.isReached solutions.size then .stop else .goOn,
    ⟨s.toWorkspace, solutions⟩, τ, ?_, rfl, Array.toList_push, hholds, hadmits,
    honly, ?_⟩
  · simp only [Search.record, hsolution, hsatisfies, if_true, solutions]
  · intro heq
    subst heq
    rfl

/-- What is found below a decision. -/
theorem Visits.found {Choice : (Nat → Int) → Prop} {ok : Bool} {flow : Flow}
    {r : Search} (h : Visits (b.search d) g ok t flow g' r)
    (hdecided : Decided b.propagator.network s Choice ok t)
    (hanswers : ∀ u, ok = true → b.search d g t = .ok (flow, g', u) →
      b.Answers ⟨d, g, t⟩ flow u) :
    (∃ l, r.solutions.toList = t.solutions.toList ++ l ∧
      Enumerates s.arena.size (fun τ =>
          s.arena.Admits τ ∧ b.propagator.network.Holds τ ∧
        Choice τ ∧ ¬ (ok = true ∧ b.Loses ⟨d, g, t⟩ τ)) (flow = .goOn) l) ∧
    (b.limit = .all → flow = .goOn) := by
  cases ok with
  | true =>
      rw [Visits, if_pos rfl] at h
      obtain ⟨u, hrun, hsolutions⟩ := h
      have ha := hanswers u rfl hrun
      obtain ⟨l, hl, henumerates⟩ := ha.found
      refine ⟨⟨l, hsolutions ▸ hl,
        hdecided.size ▸ henumerates.congr fun τ => ?_⟩, ha.unlimited⟩
      simp only [Wanted, true_and]
      constructor
      · intro hparts
        obtain ⟨hadmits, hholds, hlost⟩ := hparts
        obtain ⟨hs, hchoice⟩ := (hdecided.admits rfl τ hholds).mp hadmits
        exact ⟨hs, hholds, hchoice, hlost⟩
      · intro hparts
        obtain ⟨hs, hholds, hchoice, hlost⟩ := hparts
        exact ⟨(hdecided.admits rfl τ hholds).mpr ⟨hs, hchoice⟩, hholds, hlost⟩
  | false =>
      rw [Visits, if_neg Bool.false_ne_true] at h
      obtain ⟨hflow, _, hsolutions⟩ := h
      refine ⟨⟨[], by rw [hsolutions, List.append_nil], .nil fun τ hτ => ?_⟩,
        fun _ => hflow⟩
      exact hdecided.failed rfl τ hτ.2.1 hτ.1 hτ.2.2.1

/-- What is lost below a decision was admitted and goes with it. -/
theorem Visits.narrows {Choice : (Nat → Int) → Prop} {ok : Bool} {flow : Flow}
    {r : Search} (h : Visits (b.search d) g ok t flow g' r)
    (hdecided : Decided b.propagator.network s Choice ok t)
    (hanswers : ∀ u, ok = true → b.search d g t = .ok (flow, g', u) →
      b.Answers ⟨d, g, t⟩ flow u)
    (hholds : b.propagator.network.Holds τ)
    (hlost : ok = true ∧ b.Loses ⟨d, g, t⟩ τ) :
    s.arena.Admits τ ∧ Choice τ := by
  obtain ⟨rfl, hlost⟩ := hlost
  rw [Visits, if_pos rfl] at h
  obtain ⟨u, hrun, _⟩ := h
  exact (hdecided.admits rfl τ hholds).mp
    ((hanswers u rfl hrun).narrows τ hholds hlost)

/-- A call whose left branch met the limit loses what that branch loses. -/
theorem loses_of_stopped {g'' : σ} {r : Search}
    (hpicks : b.Picks ⟨d + 1, g, s⟩ i v g')
    (haccept : b.accept i v s.node = .ok (true, t))
    (hleft : b.left (b.search d) i v g' s.node.trail.checkpoint s.node =
      .ok (.stop, g'', r)) :
    b.Loses ⟨d + 1, g, s⟩ τ ↔ b.Loses ⟨d, g', t⟩ τ := by
  have hgoes : ¬ b.GivesUp ⟨d + 1, g, s⟩ := fun h => h.2 _ _ _ hpicks
  constructor
  · rintro ⟨c', hreaches, hlost⟩
    rcases (reaches_of_stopped hpicks haccept hleft).mp hreaches with
      rfl | hreaches
    · exact absurd hlost.1 hgoes
    · exact ⟨c', hreaches, hlost⟩
  · rintro ⟨c', hreaches, hlost⟩
    exact ⟨c', (reaches_of_stopped hpicks haccept hleft).mpr (Or.inr hreaches),
      hlost⟩

/-- A call that searched both branches loses what one of them loses. -/
theorem loses_of_both {g₁ : σ} {r₁ t₁ t₂ : Search} {ok₁ ok₂ : Bool}
    (hpicks : b.Picks ⟨d + 1, g, s⟩ i v g')
    (haccept : b.accept i v s.node = .ok (ok₁, t₁))
    (hleft : b.left (b.search d) i v g' s.node.trail.checkpoint s.node =
      .ok (.goOn, g₁, r₁))
    (hrefute : b.refute i v r₁ = .ok (ok₂, t₂)) :
    b.Loses ⟨d + 1, g, s⟩ τ ↔
      (ok₁ = true ∧ b.Loses ⟨d, g', t₁⟩ τ) ∨
      (ok₂ = true ∧ b.Loses ⟨d, g₁, t₂⟩ τ) := by
  have hgoes : ¬ b.GivesUp ⟨d + 1, g, s⟩ := fun h => h.2 _ _ _ hpicks
  have hbelow : ∀ c', b.Reaches ⟨d + 1, g, s⟩ c' ↔ c' = ⟨d + 1, g, s⟩ ∨
      (ok₁ = true ∧ b.Reaches ⟨d, g', t₁⟩ c') ∨
      (ok₂ = true ∧ b.Reaches ⟨d, g₁, t₂⟩ c') :=
    fun c' => reaches_of_both hpicks haccept hleft hrefute
  constructor
  · rintro ⟨c', hreaches, hlost⟩
    rcases (hbelow c').mp hreaches with rfl | ⟨hok, hreaches⟩ | ⟨hok, hreaches⟩
    · exact absurd hlost.1 hgoes
    · exact Or.inl ⟨hok, c', hreaches, hlost⟩
    · exact Or.inr ⟨hok, c', hreaches, hlost⟩
  · rintro (⟨hok, c', hreaches, hlost⟩ | ⟨hok, c', hreaches, hlost⟩)
    · exact ⟨c', (hbelow c').mpr (Or.inr (Or.inl ⟨hok, hreaches⟩)), hlost⟩
    · exact ⟨c', (hbelow c').mpr (Or.inr (Or.inr ⟨hok, hreaches⟩)), hlost⟩

/-- The answer of a call that branches, from those of the calls it makes. -/
theorem answers_of_course (hpicks : b.Picks ⟨d + 1, g, s⟩ i v g') {g'' : σ}
    {flow : Flow} (hcourse : Course b (b.search d) i v g' s.node flow g'' t)
    (hanswers : ∀ g t flow g' u, t.Sound b.propagator.network →
      t.arena.depth < s.arena.depth → b.search d g t = .ok (flow, g', u) →
      b.Answers ⟨d, g, t⟩ flow u)
    (halike : s.arena.Alike t.arena) (htrail : t.trail = s.trail) :
    b.Answers ⟨d + 1, g, s⟩ flow t := by
  cases hcourse with
  | @stopped t₁ r₁ _ _ haccept hsolutions hdecided hvisits hleft hend =>
      have hbelow : ∀ u, true = true → b.search d g' t₁ = .ok (.stop, g'', u) →
          b.Answers ⟨d, g', t₁⟩ .stop u := fun u _ hu =>
        hanswers g' t₁ _ _ u (hdecided.sound rfl) hdecided.depth hu
      obtain ⟨⟨l, hl, henumerates⟩, hlimit⟩ := hvisits.found hdecided hbelow
      refine ⟨halike, htrail, ⟨l, ?_, ?_⟩, fun τ hholds hlost => ?_, hlimit⟩
      · rw [hend, hl, hsolutions]
        rfl
      · have hstopped :=
          henumerates.stopped (W := b.Wanted ⟨d + 1, g, s⟩) fun τ hτ =>
            ⟨hτ.1, hτ.2.1, fun hlost =>
              hτ.2.2.2 ⟨rfl, (loses_of_stopped hpicks haccept hleft).mp hlost⟩⟩
        exact { hstopped with complete := by simp }
      · exact (hvisits.narrows hdecided hbelow hholds
          ⟨rfl, (loses_of_stopped hpicks haccept hleft).mp hlost⟩).1
  | @both ok₁ ok₂ t₁ r₁ t₂ r₂ _ g₁ _ _ haccept hsolutions hdecided hvisits
      hleft hrefute hsolutions' hdecided' hvisits' hend =>
      have hbelow : ∀ u, ok₁ = true → b.search d g' t₁ = .ok (.goOn, g₁, u) →
          b.Answers ⟨d, g', t₁⟩ .goOn u := fun u hok hu =>
        hanswers g' t₁ _ _ u (hdecided.sound hok) hdecided.depth hu
      have hbelow' : ∀ u, ok₂ = true → b.search d g₁ t₂ = .ok (flow, g'', u) →
          b.Answers ⟨d, g₁, t₂⟩ flow u := fun u hok hu =>
        hanswers g₁ t₂ _ _ u (hdecided'.sound hok) hdecided'.depth hu
      have hloses : ∀ τ, b.Loses ⟨d + 1, g, s⟩ τ ↔
          (ok₁ = true ∧ b.Loses ⟨d, g', t₁⟩ τ) ∨
          (ok₂ = true ∧ b.Loses ⟨d, g₁, t₂⟩ τ) :=
        fun τ => loses_of_both hpicks haccept hleft hrefute
      obtain ⟨⟨l, hl, henumerates⟩, _⟩ := hvisits.found hdecided hbelow
      obtain ⟨⟨l', hl', henumerates'⟩, hlimit⟩ :=
        hvisits'.found hdecided' hbelow'
      refine ⟨halike, htrail, ⟨l ++ l', ?_, ?_⟩,
        fun τ hholds hlost => ?_, hlimit⟩
      · rw [hend, hl', hsolutions', hl, hsolutions, List.append_assoc]
        rfl
      · obtain ⟨x, hx, _⟩ := hpicks.offered
        refine henumerates.append henumerates' rfl ?_ fun τ => ?_
        · rintro τ ρ ⟨_, _, hτ, _⟩ ⟨_, _, hρ, _⟩
          exact ⟨i, Arena.lt_of_read hx, fun heq => hρ (heq ▸ hτ)⟩
        · constructor
          · intro hparts
            obtain ⟨hadmits, hholds, hlost⟩ := hparts
            rw [hloses τ, not_or] at hlost
            by_cases hτ : τ i = v
            · exact Or.inl ⟨hadmits, hholds, hτ, hlost.1⟩
            · exact Or.inr ⟨hadmits, hholds, hτ, hlost.2⟩
          · rintro (⟨hadmits, hholds, hτ, hlost⟩ | ⟨hadmits, hholds, hτ, hlost⟩)
            · refine ⟨hadmits, hholds, fun h => ?_⟩
              rcases (hloses τ).mp h with h | h
              · exact hlost h
              · exact (hvisits'.narrows hdecided' hbelow' hholds h).2 hτ
            · refine ⟨hadmits, hholds, fun h => ?_⟩
              rcases (hloses τ).mp h with h | h
              · exact hτ (hvisits.narrows hdecided hbelow hholds h).2
              · exact hlost h
      · rcases (hloses τ).mp hlost with h | h
        · exact (hvisits.narrows hdecided hbelow hholds h).1
        · exact (hvisits'.narrows hdecided' hbelow' hholds h).1

/-- A call that gives up answers nothing, and loses what it admits. -/
theorem answers_of_givesUp (h : b.GivesUp ⟨d, g, s⟩)
    (halike : t.arena = s.arena) (htrail : t.trail = s.trail)
    (hsolutions : t.solutions = s.solutions) : b.Answers ⟨d, g, s⟩ .goOn t where
  alike := halike ▸ .refl s.arena
  trail := htrail
  found := by
    refine ⟨[], by rw [hsolutions, List.append_nil], .nil fun τ hτ => ?_⟩
    exact hτ.2.2 ((loses_of_givesUp h).mpr hτ.1)
  narrows τ _ hlost := (loses_of_givesUp h).mp hlost
  unlimited _ := rfl

/-! The four ways in which a call ends. -/

/-- A call on a complete assignment ends as the record of its solution does. -/
theorem search_of_isComplete {flow : Flow} (h : s.node.arena.isComplete)
    (hrecord : s.node.record b.propagator.network b.limit = .ok (flow, t)) :
    b.search (d + 1) g s = .ok (flow, g, t) := by
  simp only [search, h, if_true, hrecord, bind, Except.bind, pure, Except.pure]

/-- A call whose selector names no variable ends there. -/
theorem search_of_none (h : s.node.arena.isComplete = false)
    (hselect : b.selector s.node.arena b.propagator.network g = (none, g')) :
    b.search (d + 1) g s = .ok (.goOn, g', s.node) := by
  simp only [search, h, hselect, bind, Except.bind, pure, Except.pure]
  rfl

/-- A call whose value order names no value counts a backtrack and ends. -/
theorem search_of_no_value {x : Variable} (h : s.node.arena.isComplete = false)
    (hselect : b.selector s.node.arena b.propagator.network g = (some i, g'))
    (hx : s.node.arena.read i = .ok x) (hvalue : b.valueOrder.select x = none) :
    b.search (d + 1) g s = .ok (.goOn, g', s.node.backtrack) := by
  simp only [search, h, hselect, hx, hvalue, bind, Except.bind, pure,
    Except.pure]
  rfl

/-- A call that picks a variable and a value branches on them. -/
theorem search_of_picks (h : b.Picks ⟨d + 1, g, s⟩ i v g') :
    b.search (d + 1) g s = b.branch (b.search d) i v g' s.node.trail.checkpoint
      s.node := by
  obtain ⟨x, hx, hv⟩ := h.offered
  have hincomplete : s.node.arena.isComplete = false := h.incomplete
  have hselect : b.selector s.node.arena b.propagator.network g =
    (some i, g') := h.selected
  have hread : s.node.arena.read i = .ok x := hx
  simp only [search, hincomplete, hselect, hread, hv, bind, Except.bind]
  rfl

/-- The answer of a call that branches, if all calls one level below answer. -/
theorem answers_of_picks (hsafe : b.selector.IsSafe)
    (hs : s.node.Sound b.propagator.network)
    (hpicks : b.Picks ⟨d + 1, g, s⟩ i v g')
    (hbelow : ∀ g t, t.Sound b.propagator.network →
      t.arena.depth < s.arena.depth →
      ∃ flow g' u, b.search d g t = .ok (flow, g', u) ∧
        b.Answers ⟨d, g, t⟩ flow u) :
    ∃ flow g'' t, b.search (d + 1) g s = .ok (flow, g'', t) ∧
      b.Answers ⟨d + 1, g, s⟩ flow t := by
  obtain ⟨x, ho⟩ := hpicks.offers hsafe hs.orderly
  have hrestores : ∀ g t, t.Sound b.propagator.network →
      t.arena.depth < s.arena.depth →
      Restores (b.search d) g t := by
    intro g t ht hlt
    obtain ⟨flow, g', u, hu, ha⟩ := hbelow g t ht hlt
    exact ⟨flow, g', u, hu, ha.alike, ha.trail⟩
  have haccepted : ∀ t, b.accept i v s.node = .ok (true, t) →
      Restores (b.search d) g' t := by
    intro t ht
    have hdecided := decided_of_accept hs ho ht
    exact hrestores g' t (hdecided.sound rfl) hdecided.depth
  have hrefuted : ∀ g'' r t,
      b.left (b.search d) i v g' s.node.trail.checkpoint s.node =
        .ok (.goOn, g'', r) →
      b.refute i v r = .ok (true, t) → Restores (b.search d) g'' t := by
    intro g'' r t hr ht
    obtain ⟨_, _, _, _, _, _, _, _, hleft, hopened, _⟩ :=
      left_of_offers hs ho haccepted
    rw [hr] at hleft
    cases hleft
    have hdecided := decided_of_refute hs ho hopened ht
    exact hrestores g'' t (hdecided.sound rfl) hdecided.depth
  obtain ⟨flow, g'', t, hbranch, halike, htrail, hcourse⟩ :=
    branch_of_offers hs ho haccepted hrefuted
  refine ⟨flow, g'', t, (search_of_picks hpicks).trans hbranch,
    answers_of_course hpicks hcourse ?_ halike htrail⟩
  intro g t flow g' u ht hlt hu
  obtain ⟨flow', g'', u', hu', ha⟩ := hbelow g t ht hlt
  rw [hu] at hu'
  cases hu'
  exact ha

/-- **Every call succeeds and answers**, if it may go as deep as the variables
have untried values, whatever the limit and whatever the variable order does
with its state. -/
theorem answers_of_sound (hsafe : b.selector.IsSafe) :
    ∀ (d : Nat) (g : σ) (s : Search),
    s.Sound b.propagator.network → s.arena.depth ≤ d →
    ∃ flow g' t, b.search d g s = .ok (flow, g', t) ∧
      b.Answers ⟨d, g, s⟩ flow t := by
  intro d
  induction d with
  | zero =>
      intro g s _ hdepth
      rw [Arena.depth_eq] at hdepth
      omega
  | succ d ih =>
      intro g s hs hdepth
      have hsound : s.node.Sound b.propagator.network := hs.node
      cases hcomplete : s.node.arena.isComplete with
      | true =>
          obtain ⟨flow, t, τ, hrecord, hworkspace, hsolutions, hholds, hadmits,
              honly, hlimit⟩ :=
            record_of_isComplete hsound hcomplete b.limit
          have hnone : ∀ ρ, ¬ b.Loses ⟨d + 1, g, s⟩ ρ := fun ρ =>
            not_loses_of_isComplete hcomplete
          refine ⟨flow, g, t, search_of_isComplete hcomplete hrecord, ?_, ?_,
            ⟨_, hsolutions, List.pairwise_singleton _ _, fun sol hsol => ?_,
              fun _ ρ hρ => ?_⟩,
            fun ρ _ h => absurd h (hnone ρ), hlimit⟩
          · rw [hworkspace]
            exact .refl s.arena
          · rw [hworkspace]
            rfl
          · exact ⟨τ, ⟨hadmits, hholds, hnone τ⟩, List.mem_singleton.mp hsol⟩
          · exact List.mem_singleton.mpr
              (Solution.tabulate_congr (honly ρ hρ.1))
      | false =>
          cases hselect : b.selector s.node.arena b.propagator.network g with
          | mk index g' =>
              cases index with
              | none =>
                  refine ⟨.goOn, g', s.node, search_of_none hcomplete hselect,
                    answers_of_givesUp ⟨hcomplete, fun i v g'' hpicks => ?_⟩
                      rfl rfl rfl⟩
                  have := hselect.symm.trans hpicks.selected
                  cases this
              | some i =>
                  obtain ⟨x, hx, _⟩ :=
                    hsafe _ _ _ i g' hsound.orderly.numbered hcomplete hselect
                  cases hvalue : b.valueOrder.select x with
                  | none =>
                      refine ⟨.goOn, g', s.node.backtrack,
                        search_of_no_value hcomplete hselect hx hvalue,
                        answers_of_givesUp ⟨hcomplete, fun j v g'' hpicks => ?_⟩
                          rfl rfl rfl⟩
                      have := hselect.symm.trans hpicks.selected
                      cases this
                      obtain ⟨y, hy, hv⟩ := hpicks.offered
                      rw [Arena.read_unique hy hx, hvalue] at hv
                      cases hv
                  | some v =>
                      refine answers_of_picks hsafe hsound
                        ⟨hcomplete, hselect, x, hx, hvalue⟩ ?_
                      exact fun g t ht hlt => ih g t ht (by omega)

end Branching

end ConstraintNet
