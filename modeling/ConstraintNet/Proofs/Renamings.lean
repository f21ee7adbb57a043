import ConstraintNet.Proofs.Decisions
import ConstraintNet.Proofs.Matching
import ConstraintNet.Proofs.Pairings
import ConstraintNet.Proofs.Reruns

/-!
# Variables under other names of values

A variable is a renamed one of another when the values that it shows, the values
that it tried and the batches of its marks go with those of the other, under a
pairing of values.  What is asked of a variable without regard to the order of
values has the same answer at both: sizes, supports, and which variable comes
next.

`Jointly` relates two results where both are there.  Propagation is carried
through it for every relation that is kept by revisions and makes renamed
variables of related ones.
-/

namespace ConstraintNet

open Relator (BiUnique)

/-- Two results that are related if both are there. -/
def Jointly {α β : Type} (R : α → β → Prop) (x : Except Fault α)
    (y : Except Fault β) : Prop :=
  ∀ a b, x = .ok a → y = .ok b → R a b

namespace Jointly

variable {α β γ δ : Type} {R : α → β → Prop} {S : γ → δ → Prop}
  {x : Except Fault α} {y : Except Fault β}

/-- Two results that are there are related as they should be. -/
theorem ok {a : α} {b : β} (h : R a b) : Jointly R (.ok a) (.ok b) := by
  intro a' b' ha hb
  cases ha
  cases hb
  exact h

theorem refl (x : Except Fault α) : Jointly (· = ·) x x := by
  intro a b ha hb
  rw [ha] at hb
  exact Except.ok.inj hb

/-- One step after another: if the first steps agree where both succeed, and the
second ones on all that is related, so do both together. -/
theorem bind (h : Jointly R x y) {f : α → Except Fault γ}
    {f' : β → Except Fault δ}
    (hf : ∀ a b, x = .ok a → y = .ok b → R a b → Jointly S (f a) (f' b)) :
    Jointly S (x >>= f) (y >>= f') := by
  intro c d hc hd
  obtain ⟨a, ha, hc⟩ := of_bind_eq_ok hc
  obtain ⟨b, hb, hd⟩ := of_bind_eq_ok hd
  exact hf a b ha hb (h a b ha hb) c d hc hd

/-- What is related stays so when it is looked at in related ways. -/
theorem map (h : Jointly R x y) {f : α → γ} {f' : β → δ}
    (hf : ∀ a b, R a b → S (f a) (f' b)) : Jointly S (x.map f) (y.map f') := by
  intro c d hc hd
  obtain ⟨a, ha, rfl⟩ := of_map_eq_ok hc
  obtain ⟨b, hb, rfl⟩ := of_map_eq_ok hd
  exact hf a b (h a b ha hb)

/-- An operation repeated along a list. -/
theorem foldlM {ι : Type} {f : α → ι → Except Fault α}
    {f' : β → ι → Except Fault β}
    (hf : ∀ i a b, R a b → Jointly R (f a i) (f' b i)) (l : List ι) :
    ∀ {a : α} {b : β}, R a b → Jointly R (l.foldlM f a) (l.foldlM f' b) := by
  induction l with
  | nil => exact fun h => .ok h
  | cons i l ih =>
      intro a b h
      rw [List.foldlM_cons, List.foldlM_cons]
      exact (hf i a b h).bind fun _ _ _ _ h => ih h

end Jointly

/-! ## Stacks of exclusions -/

namespace Exclusion.Stack

/-- Stacks whose batches go together, one by one. -/
structure Renamed (P : Int → Int → Prop) (t u : Stack) : Prop where
  batches : List.Forall₂ (fun l m => Paired P (· ∈ l) (· ∈ m))
    t.batches u.batches
  excluded : Paired P (· ∈ t.excluded) (· ∈ u.excluded)

variable {P : Int → Int → Prop} {t u t' u' : Stack} {l m : List Int}
  {b b' : Bool}

theorem renamed_empty (kind : Kind) : (empty kind).Renamed P (empty kind) :=
  ⟨.nil, Paired.empty.congr (by simp [empty]) (by simp [empty])⟩

/-- Batches that go together are pushed alike, and what was excluded before goes
together with what was. -/
theorem Renamed.push (h : t.Renamed P u) (hlm : Paired P (· ∈ l) (· ∈ m)) :
    Jointly (Same (Renamed P)) (t.push l) (u.push m) := by
  rintro ⟨b, t'⟩ ⟨b', u'⟩ ht hu
  have hempty : m.isEmpty = l.isEmpty := by
    rw [Bool.eq_iff_iff, List.isEmpty_iff, List.isEmpty_iff,
      List.eq_nil_iff_forall_not_mem, List.eq_nil_iff_forall_not_mem]
    constructor
    · intro hm a ha
      obtain ⟨b, hb, _⟩ := hlm.forth a ha
      exact hm b hb
    · intro hl b hb
      obtain ⟨a, ha, _⟩ := hlm.back b hb
      exact hl a ha
  obtain ⟨rfl, ht'⟩ := of_push_eq_ok ht
  obtain ⟨rfl, hu'⟩ := of_push_eq_ok hu
  refine ⟨by rw [hempty], ?_,
    (hlm.or h.excluded).congr (fun _ => mem_excluded_push ht)
    fun _ => mem_excluded_push hu⟩
  rw [ht', hu', hempty]
  split
  · exact h.batches
  · exact .cons hlm h.batches

/-- Stacks that go together have excluded equally many values. -/
theorem Renamed.size (h : t.Renamed P u) (hP : BiUnique P) :
    u.size = t.size := by
  have hnodup : ∀ s : Std.ExtTreeSet Int, s.toList.Nodup := fun s =>
    (ValueSet.ofTree s).nodup
  have hlists : Paired P (· ∈ t.excluded.toList) (· ∈ u.excluded.toList) :=
    h.excluded.congr (fun _ => Std.ExtTreeSet.mem_toList) fun _ =>
      Std.ExtTreeSet.mem_toList
  rw [Stack.size,
    Stack.size, ← Std.ExtTreeSet.length_toList, ← Std.ExtTreeSet.length_toList]
  exact hlists.length_eq hP (hnodup _) (hnodup _)

end Exclusion.Stack

/-! ## Variables -/

/-- What one variable shows and remembers goes with what the other does. -/
structure Variable.Renamed (P : Int → Int → Prop) (x y : Variable) : Prop where
  id : y.id = x.id
  domain : Paired P (· ∈ x.domain) (· ∈ y.domain)
  value : Option.Rel P x.value y.value
  tried : List.Forall₂ P x.tried.values y.tried.values
  marked : x.marked.Renamed P y.marked
  pending : x.pending = ∅ ∧ y.pending = ∅

namespace ValueSet

variable {P : Int → Int → Prop} {s t : ValueSet}

/-- Sets whose members are paired off have the same size. -/
theorem size_of_paired (hP : BiUnique P) (h : Paired P (· ∈ s) (· ∈ t)) :
    t.size = s.size :=
  Paired.length_eq hP h s.nodup t.nodup

end ValueSet

namespace Variable.Renamed

variable {P : Int → Int → Prop} {x y : Variable} {a b : Int}
  {supported supported' : Int → Bool}

/-- What is live of one variable goes with what is live of the other. -/
theorem live (h : x.Renamed P y) (hP : BiUnique P) :
    Paired P (· ∈ x.live) (· ∈ y.live) :=
  (h.domain.sep fun _ _ hab => not_congr (h.marked.excluded.iff hP hab)).congr
    (fun _ => mem_live) fun _ => mem_live

/-- A value is live just when its partner is. -/
theorem isLive (h : x.Renamed P y) (hP : BiUnique P) (hab : P a b) :
    y.isLive b = x.isLive a := by
  rw [Bool.eq_iff_iff, isLive_iff, isLive_iff]
  exact ((h.live hP).iff hP hab).symm

/-- One variable is assigned just when the other is. -/
theorem isAssigned (h : x.Renamed P y) : y.isAssigned = x.isAssigned := by
  rw [Variable.isAssigned, Variable.isAssigned]
  rcases cases_of_rel h.value with ⟨hx, hy⟩ | ⟨u, w, hx, hy, _⟩
  · rw [hx, hy]
  · rw [hx, hy]
    rfl

/-- What shows of one goes with what shows of the other: all live values, or the
value assigned if it is live. -/
theorem effective (h : x.Renamed P y) (hP : BiUnique P) :
    Paired P (· ∈ x.effective) (· ∈ y.effective) := by
  refine ((h.live hP).sep (p := fun v => ∀ u, x.value = some u → v = u)
    (q := fun v => ∀ u, y.value = some u → v = u) fun a b hab =>
      ?_).congr (fun _ => mem_effective)
    fun _ => mem_effective
  rcases cases_of_rel h.value with ⟨hx, hy⟩ | ⟨u, w, hx, hy, huw⟩
  · simp [hx, hy]
  · rw [hx, hy]
    simp only [Option.some.injEq, forall_eq']
    exact ⟨fun he => hP.2 hab (he ▸ huw), fun he => hP.1 hab (he ▸ huw)⟩

/-- So equally many values show. -/
theorem effectiveSize (h : x.Renamed P y) (hP : BiUnique P) :
    y.effectiveSize = x.effectiveSize := by
  rw [Variable.effectiveSize, Variable.effectiveSize]
  rcases cases_of_rel h.value with ⟨hx, hy⟩ | ⟨u, w, hx, hy, huw⟩
  · rw [hx, hy]
    exact ValueSet.size_of_paired hP (h.live hP)
  · rw [hx, hy]
    exact congrArg Bool.toNat (h.isLive hP huw)

/-- And one is wiped out just when the other is. -/
theorem isWipedOut (h : x.Renamed P y) (hP : BiUnique P) :
    y.isWipedOut = x.isWipedOut := by
  have heffective := h.effective hP
  rw [Bool.eq_iff_iff, isWipedOut_iff, isWipedOut_iff]
  constructor
  · intro hy a ha
    obtain ⟨b, hb, _⟩ := heffective.forth a ha
    exact hy b hb
  · intro hx b hb
    obtain ⟨a, ha, _⟩ := heffective.back b hb
    exact hx a ha

/-- Candidates that go together support alike. -/
theorem hasSupport (h : x.Renamed P y) (hP : BiUnique P) {l m : List Int}
    (hlm : ∀ a b, P a b → (a ∈ l ↔ b ∈ m)) :
    y.hasSupport m = x.hasSupport l := by
  have heffective := h.effective hP
  rw [Bool.eq_iff_iff, hasSupport_iff, hasSupport_iff]
  constructor
  · rintro ⟨b, hm, hb⟩
    obtain ⟨a, ha, hab⟩ := heffective.back b hb
    exact ⟨a, (hlm a b hab).mpr hm, ha⟩
  · rintro ⟨a, hl, ha⟩
    obtain ⟨b, hb, hab⟩ := heffective.forth a ha
    exact ⟨b, (hlm a b hab).mp hl, hb⟩

/-- A value was tried just when its partner was. -/
theorem wasTried (h : x.Renamed P y) (hP : BiUnique P) (hab : P a b) :
    y.wasTried b = x.wasTried a := by
  rw [Bool.eq_iff_iff, Variable.wasTried, Variable.wasTried,
    Choices.contains_iff, Choices.contains_iff]
  exact (List.rel_mem hP hab h.tried).symm

/-- A value is marked just when its partner is. -/
theorem isMarked (h : x.Renamed P y) (hP : BiUnique P) (hab : P a b) :
    y.marked.contains b = x.marked.contains a := by
  rw [Bool.eq_iff_iff, Exclusion.Stack.contains, Exclusion.Stack.contains,
    decide_eq_true_eq, decide_eq_true_eq]
  exact (h.marked.excluded.iff hP hab).symm

/-- Equally many values are left to try. -/
theorem untried (h : x.Renamed P y) (hP : BiUnique P) :
    y.untried = x.untried := by
  refine ValueSet.size_of_paired hP ((h.domain.sep (p := fun v => !x.wasTried v)
    (q := fun v => !y.wasTried v) fun a b hab => ?_).congr ?_ ?_)
  · rw [h.wasTried hP hab]
  · exact fun _ => ValueSet.mem_filter
  · exact fun _ => ValueSet.mem_filter

/-- What lacks support in one variable goes with what lacks it in the other. -/
theorem unsupported (h : x.Renamed P y) (hP : BiUnique P)
    (hsupported : ∀ a b, P a b → supported' b = supported a) :
    Paired P (· ∈ x.unsupported supported) (· ∈ y.unsupported supported') :=
  ((h.live hP).sep (p := fun v => !supported v) (q := fun v => !supported' v)
    fun a b hab => by
    rw [hsupported a b hab]).congr (fun _ => ValueSet.mem_filter) fun _ =>
      ValueSet.mem_filter

/-! ### What keeps variables renamed -/

/-- Hiding what lacks support marks values that go together, in one batch
each. -/
theorem hideUnsupported (h : x.Renamed P y) (hP : BiUnique P)
    (hsupported : ∀ a b, P a b → supported' b = supported a) :
    Jointly (Same (Variable.Renamed P)) (x.hideUnsupported supported)
      (y.hideUnsupported supported') := by
  have hempty : x.pending.isEmpty = true ∧ y.pending.isEmpty = true :=
    ⟨Std.ExtTreeSet.isEmpty_iff.mpr h.pending.1,
      Std.ExtTreeSet.isEmpty_iff.mpr h.pending.2⟩
  rw [Variable.hideUnsupported, Variable.hideUnsupported, if_pos hempty.1,
    if_pos hempty.2]
  have hpush := h.marked.push (h.unsupported hP hsupported)
  rintro ⟨b, x'⟩ ⟨b', y'⟩ hx hy
  split at hx
  · rename_i flag marked hpushed
    cases hx
    split at hy
    · rename_i flag' marked' hpushed'
      cases hy
      obtain ⟨hflag, hmarked⟩ := hpush _ _ hpushed hpushed'
      exact ⟨hflag, { h with marked := hmarked }⟩
    · cases hy
  · cases hx

theorem assign (h : x.Renamed P y) (hab : P a b) :
    (x.assign a).Renamed P (y.assign b) :=
  { h with value := .some hab, tried := .cons hab h.tried }

theorem unassign (h : x.Renamed P y) : x.unassign.Renamed P y.unassign :=
  { h with value := .none }

/-- What variables look alike does not matter. -/
theorem of_alike (h : x.Renamed P y) {x' y' : Variable} (hx : x.Alike x')
    (hy : y.Alike y') : x'.Renamed P y' where
  id := by rw [hy.id, hx.id, h.id]
  domain := h.domain.congr hx.domain hy.domain
  value := by
    rw [hx.value, hy.value]
    exact h.value
  tried := by
    rw [hx.tried, hy.tried]
    exact h.tried
  marked := by
    rw [hx.marked, hy.marked]
    exact h.marked
  pending := ⟨hx.pending.trans h.pending.1, hy.pending.trans h.pending.2⟩

end Variable.Renamed

/-! ## Arenas -/

/-- Arenas whose variables are related, each to the one at its position. -/
structure Arena.Matched (R : Variable → Variable → Prop) (m k : Arena) :
    Prop where
  size : k.size = m.size
  read : ∀ i x y, m.read i = .ok x → k.read i = .ok y → R x y

namespace Arena.Matched

variable {R : Variable → Variable → Prop} {P : Int → Int → Prop} {m k : Arena}
  {i : Nat} {x y : Variable}

theorem imp {R' : Variable → Variable → Prop} (h : m.Matched R k)
    (hR : ∀ x y, R x y → R' x y) : m.Matched R' k :=
  ⟨h.size, fun i x y hx hy => hR x y (h.read i x y hx hy)⟩

/-- Each variable of the one arena has its counterpart in the other. -/
theorem exists_read (h : m.Matched R k) (hx : m.read i = .ok x) :
    ∃ y, k.read i = .ok y ∧ R x y := by
  obtain ⟨y, hy⟩ := Arena.exists_read (h.size.symm ▸ lt_of_read hx : i < k.size)
  exact ⟨y, hy, h.read i x y hx hy⟩

/-- What is read at one position is related. -/
theorem reads (h : m.Matched R k) (i : Nat) : Jointly R (m.read i) (k.read i) :=
  fun x y hx hy => h.read i x y hx hy

/-- Related variables may be written to the same position. -/
theorem write (h : m.Matched R k) (hi : i < m.size) (hxy : R x y) :
    (m.write i x).Matched R (k.write i y) where
  size := by rw [size_write, size_write, h.size]
  read j z z' hz hz' := by
    rcases (read_write hi).mp hz with ⟨rfl, rfl⟩ | ⟨hne, hz⟩
    · rw [read_write_self (h.size.symm ▸ hi)] at hz'
      cases hz'
      exact hxy
    · rw [read_write_of_ne (Ne.symm hne)] at hz'
      exact h.read j z z' hz hz'

/-- Operations that keep related variables related do the same to the arenas. -/
theorem adjust {α : Type} {f f' : Variable → Except Fault (α × Variable)}
    (h : m.Matched R k) (i : Nat)
    (hf : ∀ x y, m.read i = .ok x → k.read i = .ok y → R x y →
      Jointly (Same R) (f x) (f' y)) :
    Jointly (Same (Matched R)) (m.adjust i f) (k.adjust i f') := by
  rw [adjust_eq_bind, adjust_eq_bind]
  refine (h.reads i).bind fun x y hx hy hxy =>
    (hf x y hx hy hxy).map fun p q hpq => ?_
  exact ⟨hpq.1, h.write (lt_of_read hx) hpq.2⟩

theorem modify {f f' : Variable → Except Fault Variable} (h : m.Matched R k)
    (i : Nat) (hf : ∀ x y, R x y → Jointly R (f x) (f' y)) :
    Jointly (Matched R) (m.modify i f) (k.modify i f') := by
  rw [modify_eq_bind, modify_eq_bind]
  refine (h.reads i).bind fun x y hx _ hxy =>
    (hf x y hxy).map fun x' y' hxy' => ?_
  exact h.write (lt_of_read hx) hxy'

/-- What the variables look alike does not matter to a relation that does not
see it. -/
theorem of_alike (h : m.Matched R k) {m' k' : Arena} (hm : m.Alike m')
    (hk : k.Alike k')
    (hR : ∀ x y x' y', R x y → x.Alike x' → y.Alike y' → R x' y') :
    m'.Matched R k' where
  size := by rw [hk.size, hm.size, h.size]
  read i x' y' hx' hy' := by
    obtain ⟨x, hx, hxx'⟩ := hm.read_back hx'
    obtain ⟨y, hy, hyy'⟩ := hk.read_back hy'
    exact hR x y x' y' (h.read i x y hx hy) hxx' hyy'

/-! ### What is read off the variables -/

/-- Listed in order, the variables are related one by one. -/
theorem toList (h : m.Matched R k) : List.Forall₂ R m.toList k.toList := by
  refine List.forall₂_iff_get.mpr
    ⟨h.size.symm, fun i hm hk => h.read i _ _ ?_ ?_⟩
  · exact getElem?_toList.mp (List.getElem?_eq_getElem hm)
  · exact getElem?_toList.mp (List.getElem?_eq_getElem hk)

/-- One arena is complete just when the other is. -/
theorem isComplete (h : m.Matched (Variable.Renamed P) k) :
    k.isComplete = m.isComplete := by
  rw [Bool.eq_iff_iff, isComplete_iff, isComplete_iff]
  constructor
  · intro hk i x hx
    obtain ⟨y, hy, hxy⟩ := h.exists_read hx
    exact hxy.isAssigned ▸ hk i y hy
  · intro hm i y hy
    obtain ⟨x, hx⟩ := Arena.exists_read (h.size ▸ lt_of_read hy : i < m.size)
    exact (h.read i x y hx hy).isAssigned.trans (hm i x hx)

/-- The variables without value are the same ones on both sides. -/
theorem unassigned (h : m.Matched (Variable.Renamed P) k) :
    List.Forall₂ (Variable.Renamed P) m.unassigned k.unassigned :=
  List.rel_filter (fun _ _ hxy => by simp only [hxy.isAssigned]) h.toList

/-- A search may go as deep in the one as in the other. -/
theorem depth (h : m.Matched (Variable.Renamed P) k) (hP : BiUnique P) :
    k.depth = m.depth := by
  have huntried : ∀ i x y, m.read i = .ok x → k.read i = .ok y →
      y.untried = x.untried :=
    fun i x y hx hy => (h.read i x y hx hy).untried hP
  apply Nat.le_antisymm
  · exact depth_le h.size fun i x y hx hy => Nat.le_of_eq (huntried i x y hx hy)
  · exact depth_le h.size.symm fun i y x hy hx =>
      Nat.le_of_eq (huntried i x y hx hy).symm

end Arena.Matched

/-! ## Orders -/

/-- **A variable order asks nothing about values but how many there are.** -/
theorem VariableOrder.select_of_matched {P : Int → Int → Prop} {m k : Arena}
    {net net' : Network} (hP : BiUnique P)
    (h : m.Matched (Variable.Renamed P) k) (harcs : net'.arcs = net.arcs)
    (o : VariableOrder) (g : Random.Generator) :
    o.select k net' g = o.select m net g := by
  have hids : k.unassigned.map Variable.id = m.unassigned.map Variable.id :=
    map_eq_of_forall₂ h.unassigned fun _ _ hxy => hxy.id
  have hnumbers : ∀ number : Variable → Nat,
      (∀ x y : Variable, x.Renamed P y → number y = number x) →
      k.unassigned.map (fun x => (x.id, number x)) = m.unassigned.map fun x =>
        (x.id, number x) :=
    fun number hnumber => map_eq_of_forall₂ h.unassigned fun x y hxy => by
      rw [hxy.id, hnumber x y hxy]
  rw [select_of_arcs harcs]
  cases o with
  | ascending =>
      simp only [select, Arena.firstUnassigned?_eq, ← List.head?_map, hids]
  | smallestDomainFirst =>
      simp only [select, least?, hnumbers _ fun x y hxy => hxy.effectiveSize hP]
  | mostConstrainedFirst =>
      simp only [select, greatest?,
          hnumbers (fun x => net.degree x.id) fun x y hxy => by
        rw [hxy.id]]
  | random => simp only [select, hids]

/-- **A value order tries values that go together in the same order**, if the
pairing carries it over. -/
theorem ValueOrder.rightful_renamed {P : Int → Int → Prop} {o o' : ValueOrder}
    {x y : Variable} (hP : o.Carries P o') (h : x.Renamed P y) :
    List.Forall₂ P (o.rightful x) (o'.rightful y) := by
  have hunique := hP.biUnique
  refine Paired.forall₂ hunique (fun _ _ => Before.asymm)
    (fun _ _ => Before.asymm) hP ?_
    ((o.pairwise_line x.domain).filter _) ((o'.pairwise_line y.domain).filter _)
  refine ((h.live hunique).sep fun a b hab => ?_).congr (fun _ => mem_rightful)
    fun _ => mem_rightful
  exact not_congr (List.rel_mem hunique hab h.tried)

/-! ## Solutions -/

/-- The same variables with values that go together. -/
def Solution.Renamed (P : Int → Int → Prop) (s t : Solution) : Prop :=
  List.Forall₂ (fun a b => b.index = a.index ∧ P a.value b.value) s.assignments
    t.assignments

namespace Solution

variable {P : Int → Int → Prop} {m k : Arena} {l l' : List Assignment}

/-- Sorting by the variables puts values that go together in the same place,
since it never looks at the values. -/
theorem renamed_ofList
    (h : List.Forall₂ (fun a b : Assignment =>
      b.index = a.index ∧ P a.value b.value) l l') :
    (ofList l).Renamed P (ofList l') := by
  -- Both lists are one list of pairs, and sorting looks at what both parts of a
  -- pair share.
  have hzip : ∀ p ∈ l.zip l', p.2.index = p.1.index ∧ P p.1.value p.2.value :=
    fun p hp =>
      List.forall₂_zip h hp
  have hfst : (l.zip l').map Prod.fst = l :=
    List.map_fst_zip (Nat.le_of_eq h.length_eq)
  have hsnd : (l.zip l').map Prod.snd = l' :=
    List.map_snd_zip (Nat.le_of_eq h.length_eq.symm)
  let before (a b : Assignment) : Bool := a.index ≤ b.index
  let sorted := (l.zip l').mergeSort fun p q => before p.1 q.1
  have hleft : (ofList l).assignments = sorted.map Prod.fst := by
    have hmap : sorted.map Prod.fst =
        ((l.zip l').map Prod.fst).mergeSort before :=
      List.map_mergeSort fun _ _ _ _ => rfl
    rw [hmap, hfst]
    rfl
  have hright : (ofList l').assignments = sorted.map Prod.snd := by
    have hmap : sorted.map Prod.snd =
        ((l.zip l').map Prod.snd).mergeSort before :=
      List.map_mergeSort fun p hp q hq => by
        simp only [before, (hzip p hp).1, (hzip q hq).1]
    rw [hmap, hsnd]
    rfl
  rw [Renamed, hleft, hright, List.forall₂_map_left_iff,
    List.forall₂_map_right_iff, List.forall₂_same]
  exact fun p hp => hzip p (List.mem_mergeSort.mp hp)

/-- What renamed variables make up, if each has a value. -/
theorem ofArena?_renamed (h : m.Matched (Variable.Renamed P) k) :
    Option.Rel (Renamed P) (ofArena? m) (ofArena? k) := by
  rw [ofArena?, ofArena?, h.isComplete]
  split
  · refine .some
      (renamed_ofList (List.rel_filterMap (fun x y hxy => ?_) h.toList))
    rcases cases_of_rel hxy.value with ⟨hx, hy⟩ | ⟨a, b, hx, hy, hab⟩
    · rw [hx, hy]
      exact .none
    · rw [hx, hy]
      exact .some ⟨hxy.id, hab⟩
  · exact .none

end Solution

end ConstraintNet
