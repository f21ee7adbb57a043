import ConstraintNet.Proofs.Rewordings
import ConstraintNet.Proofs.Tokens

/-!
# What an instance is refused for

An instance can be built when all its bounds fit and all its blocks are valid.
If not, it is refused for the first bounds that do not fit, and for a block only
if all bounds do; of the block, the first index is looked at before the second
one, and whether they agree comes last.

`RefusedAt` says of a list that it is refused for its first member that is not
good. Both passes come down to it, the one over the bounds and the one over the
blocks.

Bounds and indices may be any integers here.  Where they are those of 64 bits,
words of 128 bits hold the number of values between bounds, and words of 32 bits
hold every index that names a variable.
-/

namespace ConstraintNet

/-! ## The first member that is not good -/

section

variable {α : Type} {Good : α → Prop} {Refused : Nat → α → Refusal → Prop}
  {l : List α} {a : α} {k : Nat} {why : Refusal}

/-- A list, numbered from `k` on, is refused for its first member that is not
good. -/
def RefusedAt (Good : α → Prop) (Refused : Nat → α → Refusal → Prop) (k : Nat)
    (l : List α) (why : Refusal) : Prop :=
  ∃ front a rest, l = front ++ a :: rest ∧ (∀ d ∈ front, Good d) ∧
    Refused (k + front.length) a why

theorem not_refusedAt_nil : ¬ RefusedAt Good Refused k [] why := by
  rintro ⟨front, a, rest, hl, _⟩
  cases front <;> cases hl

/-- A list is refused for its head, or for its tail once the head is good. -/
theorem refusedAt_cons : RefusedAt Good Refused k (a :: l) why ↔
    Refused k a why ∨ Good a ∧ RefusedAt Good Refused (k + 1) l why := by
  constructor
  · rintro ⟨front, d, rest, hl, hfront, hd⟩
    cases front with
    | nil =>
        cases hl
        exact .inl hd
    | cons d front =>
        cases hl
        obtain ⟨hgood, hfront⟩ := List.forall_mem_cons.mp hfront
        refine .inr ⟨hgood, front, _, rest, rfl, hfront, ?_⟩
        rwa [List.length_cons, ← Nat.add_assoc, Nat.add_right_comm] at hd
  · rintro (ha | ⟨hgood, front, d, rest, rfl, hfront, hd⟩)
    · exact ⟨[], a, l, rfl, List.forall_mem_nil _, ha⟩
    · refine ⟨a :: front, d, rest, rfl,
        List.forall_mem_cons.mpr ⟨hgood, hfront⟩, ?_⟩
      rwa [List.length_cons, ← Nat.add_assoc, Nat.add_right_comm]

end

namespace Instance

/-! ## Bounds -/

/-- Bounds that a variable may have. -/
structure BoundsFit (p : Int × Int) : Prop where
  ordered : p.1 ≤ p.2
  small : p.2 - p.1 + 1 ≤ maxDomainSize

/-- What is wrong with the bounds of variable `i`. -/
inductive BoundsRefused (i : Nat) (p : Int × Int) : Refusal → Prop
  /-- The lower bound is above the upper one. -/
  | empty (h : p.2 < p.1) : BoundsRefused i p (.emptyDomain i p.1 p.2)
  /-- There are too many values between them. -/
  | large (hle : p.1 ≤ p.2) (h : maxDomainSize < p.2 - p.1 + 1) :
      BoundsRefused i p (.domainTooLarge i p.1 p.2 maxDomainSize)

variable {c : Instance} {i : Nat} {p : Int × Int} {why : Refusal} {m : Arena}
  {net : Network}

/-- A variable is built just if its bounds fit, and then has all values between
them. -/
theorem buildVariable_eq_ok {x : Variable} :
    buildVariable i p.1 p.2 = .ok x ↔
    BoundsFit p ∧ x = .ofBounds i p.1 p.2 := by
  unfold buildVariable
  split
  · rename_i h
    exact ⟨fun h => (nomatch h),
      fun hfit => absurd hfit.1.ordered (Int.not_le.mpr h)⟩
  · rename_i hle
    split
    · rename_i h
      exact ⟨fun h => (nomatch h),
        fun hfit => absurd hfit.1.small (Int.not_le.mpr h)⟩
    · rename_i hsmall
      have hfit : BoundsFit p := ⟨Int.not_lt.mp hle, Int.not_lt.mp hsmall⟩
      rw [Except.ok.injEq, eq_comm]
      exact (and_iff_right hfit).symm

/-- It is refused just if they do not, by its index and its bounds. -/
theorem buildVariable_eq_error :
    buildVariable i p.1 p.2 = .error why ↔ BoundsRefused i p why := by
  constructor
  · intro h
    unfold buildVariable at h
    split at h
    · rename_i hlt
      cases h
      exact .empty hlt
    · rename_i hle
      split at h
      · rename_i hlarge
        cases h
        exact .large (Int.not_lt.mp hle) hlarge
      · cases h
  · intro h
    cases h with
    | empty h => rw [buildVariable, if_pos h]
    | large hle h => rw [buildVariable, if_neg (Int.not_lt.mpr hle), if_pos h]

/-- The variables of bounds, numbered from `k` on. -/
def variablesFrom (k : Nat) (l : List (Int × Int)) : List Variable :=
  (l.zipIdx k).map fun q => .ofBounds q.2 q.1.1 q.1.2

/-- Bounds, numbered from `k` on, give variables just if all of them fit. -/
theorem mapM_buildVariable_eq_ok {xs : List Variable} {l : List (Int × Int)}
    {k : Nat} :
    ((l.zipIdx k).mapM fun q => buildVariable q.2 q.1.1 q.1.2) = .ok xs ↔
      (∀ p ∈ l, BoundsFit p) ∧ xs = variablesFrom k l := by
  induction l generalizing k xs with
  | nil => simp [variablesFrom, pure, Except.pure, eq_comm]
  | cons p l ih =>
      rw [List.zipIdx_cons, List.mapM_cons, List.forall_mem_cons]
      constructor
      · intro h
        obtain ⟨x, hx, h⟩ := of_bind_eq_ok h
        obtain ⟨xs', hxs, h⟩ := of_bind_eq_ok h
        cases h
        obtain ⟨hfit, rfl⟩ := buildVariable_eq_ok.mp hx
        obtain ⟨hfits, rfl⟩ := ih.mp hxs
        exact ⟨⟨hfit, hfits⟩, rfl⟩
      · rintro ⟨⟨hfit, hfits⟩, rfl⟩
        rw [buildVariable_eq_ok.mpr ⟨hfit, rfl⟩, ih.mpr ⟨hfits, rfl⟩]
        rfl

/-- If not, they are refused for the first that do not fit. -/
theorem mapM_buildVariable_eq_error {l : List (Int × Int)} {k : Nat} :
    ((l.zipIdx k).mapM fun q => buildVariable q.2 q.1.1 q.1.2) = .error why ↔
      RefusedAt BoundsFit BoundsRefused k l why := by
  induction l generalizing k with
  | nil => exact ⟨fun h => (nomatch h), fun h => absurd h not_refusedAt_nil⟩
  | cons p l ih =>
      rw [List.zipIdx_cons, List.mapM_cons, refusedAt_cons]
      constructor
      · intro h
        rcases of_bind_eq_error h with hp | ⟨x, hx, h⟩
        · exact .inl (buildVariable_eq_error.mp hp)
        · rcases of_bind_eq_error h with hl | ⟨xs, _, h⟩
          · exact .inr ⟨(buildVariable_eq_ok.mp hx).1, ih.mp hl⟩
          · cases h
      · rintro (hp | ⟨hfit, hl⟩)
        · rw [buildVariable_eq_error.mpr hp]
          rfl
        · rw [buildVariable_eq_ok.mpr ⟨hfit, rfl⟩, ih.mpr hl]
          rfl

/-- The variables are built in the order of their bounds, as long as there are
not too many of them. -/
theorem buildArena_eq_mapM (hcount : c.count ≤ maxVariables) : c.buildArena =
    (c.bounds.zipIdx.mapM fun q => buildVariable q.2 q.1.1 q.1.2).map
      Arena.ofList := by
  rw [buildArena, checkCount, if_pos hcount]
  cases c.bounds.zipIdx.mapM fun q => buildVariable q.2 q.1.1 q.1.2 <;> rfl

/-- **When the bounds give variables**, and which. -/
theorem buildArena_eq_ok (hcount : c.count ≤ maxVariables) :
    c.buildArena = .ok m ↔
    (∀ p ∈ c.bounds, BoundsFit p) ∧ m = .ofList (variablesFrom 0 c.bounds) := by
  rw [buildArena_eq_mapM hcount]
  constructor
  · intro h
    cases hxs : c.bounds.zipIdx.mapM fun q => buildVariable q.2 q.1.1 q.1.2 with
    | error why =>
        rw [hxs] at h
        cases h
    | ok xs =>
        rw [hxs] at h
        cases h
        obtain ⟨hfits, rfl⟩ := mapM_buildVariable_eq_ok.mp hxs
        exact ⟨hfits, rfl⟩
  · rintro ⟨hfits, rfl⟩
    rw [mapM_buildVariable_eq_ok.mpr ⟨hfits, rfl⟩]
    rfl

/-- **What the bounds are refused for.** -/
theorem buildArena_eq_error (hcount : c.count ≤ maxVariables) :
    c.buildArena = .error why ↔
    RefusedAt BoundsFit BoundsRefused 0 c.bounds why := by
  rw [← mapM_buildVariable_eq_error, buildArena_eq_mapM hcount]
  cases c.bounds.zipIdx.mapM fun q =>
    buildVariable q.2 q.1.1 q.1.2 <;> simp [Except.map]

/-- A variable of bounds stands in its place, with all values between them. -/
theorem read_variablesFrom {l : List (Int × Int)} {i : Nat} {lower upper : Int}
    (h : l[i]? = some (lower, upper)) :
    (Arena.ofList (variablesFrom 0 l)).read i =
      .ok (.ofBounds i lower upper) := by
  rw [Arena.read_eq_ok, Arena.ofList, List.getElem?_toArray, variablesFrom,
    List.getElem?_map, List.getElem?_zipIdx, h, Nat.zero_add]
  rfl

/-! ## Blocks -/

/-- What is wrong with a block, for so many variables. -/
inductive Block.Refused (n : Nat) (b : Block) : Refusal → Prop
  /-- The first index names no variable. -/
  | first (h : ¬ (0 ≤ b.first ∧ b.first < n)) :
      Refused n b (.unknownVariable b.first n)
  /-- The first index names a variable, and the second does not. -/
  | second (hfirst : 0 ≤ b.first ∧ b.first < n)
      (h : ¬ (0 ≤ b.second ∧ b.second < n)) :
      Refused n b (.unknownVariable b.second n)
  /-- Both name the same variable. -/
  | same (hfirst : 0 ≤ b.first ∧ b.first < n) (h : b.second = b.first) :
      Refused n b (.selfConstraint b.first.toNat)

/-- A block is refused for the first of its checks that fails. -/
theorem Block.build_eq_error {n : Nat} {b : Block} :
    b.build n = .error why ↔ b.Refused n why := by
  constructor
  · intro h
    unfold build resolve at h
    split at h
    · rename_i hfirst
      split at h
      · rename_i hsecond
        simp only [bind, Except.bind] at h
        split at h
        · rename_i heq
          cases h
          exact .same hfirst (by omega)
        · cases h
      · rename_i hsecond
        cases h
        exact .second hfirst hsecond
    · rename_i hfirst
      cases h
      exact .first hfirst
  · intro h
    cases h with
    | first h =>
        rw [build, resolve, if_neg h]
        rfl
    | second hfirst h =>
        rw [build, resolve, if_pos hfirst, resolve, if_neg h]
        rfl
    | same hfirst h =>
        rw [build, resolve, if_pos hfirst, h, resolve, if_pos hfirst]
        simp only [bind, Except.bind, if_true]

/-- A block that is refused is not valid. -/
theorem Block.not_isValid_of_build_eq_error {n : Nat} {b : Block}
    (h : b.build n = .error why) : ¬ b.IsValid n := fun hvalid => by
  rw [Block.build_eq_ok.mpr ⟨hvalid, rfl⟩] at h
  cases h

/-- Adding blocks to a network stops at the first that is not valid. -/
theorem foldlM_build_eq_error {n k : Nat} {l : List Block} {start : Network} :
    l.foldlM (fun net b => net.insertSymmetric <$> b.build n) start =
        .error why ↔
      RefusedAt (Block.IsValid n) (fun _ => Block.Refused n) k l why := by
  induction l generalizing start k with
  | nil => exact ⟨fun h => (nomatch h), fun h => absurd h not_refusedAt_nil⟩
  | cons b l ih =>
      rw [List.foldlM_cons, refusedAt_cons, ← Block.build_eq_error]
      cases hbuild : b.build n with
      | error e =>
          have hinvalid := Block.not_isValid_of_build_eq_error hbuild
          simp [hinvalid, Functor.map, Except.map, bind, Except.bind]
      | ok d =>
          have hvalid : b.IsValid n := (Block.build_eq_ok.mp hbuild).1
          simp only [reduceCtorEq, hvalid, false_or, true_and]
          exact ih

/-- **What the blocks are refused for.** -/
theorem buildNetwork_eq_error (hcount : c.count ≤ maxVariables) :
    c.buildNetwork = .error why ↔
    RefusedAt (Block.IsValid c.count) (fun _ => Block.Refused c.count) 0
      c.blocks why := by
  rw [buildNetwork, checkCount, if_pos hcount]
  exact foldlM_build_eq_error

/-! ## Machine words -/

/-- A bound of 64 bits in a word of 128 bits. -/
def wide (v : Int64) : BitVec 128 := v.toBitVec.signExtend 128

/-- The number of values between bounds of 64 bits, computed in words of 128
bits. -/
def wideSize (lower upper : Int64) : BitVec 128 := wide upper - wide lower + 1

/-- **No step of it overflows**, if the bounds are in order. -/
theorem wideSize_exact {lower upper : Int64} (h : lower.toInt ≤ upper.toInt) :
    (wide upper).ssubOverflow (wide lower) = false ∧
      (wide upper - wide lower).saddOverflow 1 = false ∧
      ((wideSize lower upper).toNat : Int) = upper.toInt - lower.toInt + 1 := by
  have hwide : ∀ v : Int64, (wide v).toInt = v.toInt := fun v => by
    rw [wide, BitVec.toInt_signExtend_of_le (by decide), Int64.toInt_toBitVec]
  have hlower := lower.le_toInt
  have hupper := upper.toInt_lt
  have hsub : (wide upper).ssubOverflow (wide lower) = false := by
    simp only [BitVec.ssubOverflow, hwide, Bool.or_eq_false_iff,
      decide_eq_false_iff_not]
    omega
  have hdifference : (wide upper - wide lower).toInt =
      upper.toInt - lower.toInt := by
    rw [BitVec.toInt_sub_of_not_ssubOverflow (Bool.not_eq_true _ ▸ hsub),
      hwide, hwide]
  have hone : (1 : BitVec 128).toInt = 1 := by decide
  have hadd : (wide upper - wide lower).saddOverflow 1 = false := by
    simp only [BitVec.saddOverflow, hdifference, hone, Bool.or_eq_false_iff,
      decide_eq_false_iff_not]
    omega
  have hsize : (wideSize lower upper).toInt =
      upper.toInt - lower.toInt + 1 := by
    rw [wideSize,
      BitVec.toInt_add_of_not_saddOverflow (Bool.not_eq_true _ ▸ hadd),
      hdifference, hone]
  refine ⟨hsub, hadd, ?_⟩
  rw [← hsize]
  rw [BitVec.toInt_eq_toNat_cond] at hsize ⊢
  split at hsize <;> omega

/-! ## The instance -/

/-- What an instance is refused for: its first bounds that do not fit, or its
first block that is not valid if all bounds fit. -/
inductive Refuses (c : Instance) (why : Refusal) : Prop
  | bounds (h : RefusedAt BoundsFit BoundsRefused 0 c.bounds why)
  | block (hbounds : ∀ p ∈ c.bounds, BoundsFit p)
      (h : RefusedAt (Block.IsValid c.count) (fun _ => Block.Refused c.count) 0
        c.blocks why)

/-- An instance can be built just if all bounds fit and all blocks are valid. -/
theorem exists_build_iff (hcount : c.count ≤ maxVariables) :
    (∃ r, c.build = .ok r) ↔
    (∀ p ∈ c.bounds, BoundsFit p) ∧ ∀ b ∈ c.blocks, b.IsValid c.count := by
  simp only [Prod.exists, build_eq_ok_iff, buildArena_eq_ok hcount]
  constructor
  · rintro ⟨_, _, ⟨⟨hfits, _⟩, _, hvalid⟩, _⟩
    exact ⟨hfits, hvalid⟩
  · rintro ⟨hfits, hvalid⟩
    exact ⟨_, _, ⟨⟨hfits, rfl⟩, hcount, hvalid⟩, rfl⟩

/-- The bounds are looked at before the blocks. -/
theorem build_eq_error_iff (hcount : c.count ≤ maxVariables) :
    c.build = .error why ↔ c.Refuses why := by
  constructor
  · intro h
    rcases of_bind_eq_error h with harena | ⟨m, harena, h⟩
    · exact .bounds ((buildArena_eq_error hcount).mp harena)
    · rcases of_bind_eq_error h with hnetwork | ⟨net, _, h⟩
      · exact .block ((buildArena_eq_ok hcount).mp harena).1
          ((buildNetwork_eq_error hcount).mp hnetwork)
      · cases h
  · intro h
    cases h with
    | bounds h =>
        rw [build, (buildArena_eq_error hcount).mpr h]
        rfl
    | block hfits h =>
        rw [build, (buildArena_eq_ok hcount).mpr ⟨hfits, rfl⟩,
          (buildNetwork_eq_error hcount).mpr h]
        rfl

/-- The arcs of an instance join the variables that its blocks name. -/
theorem mem_arcs_of_build (h : c.build = .ok (m, net)) (a : Arc) :
    a ∈ net.arcs ↔
    ∃ b ∈ c.blocks, (a.tail : Int) = b.first ∧ (a.head : Int) = b.second ∨
      (a.tail : Int) = b.second ∧ (a.head : Int) = b.first := by
  obtain ⟨⟨_, _, hvalid⟩, rfl⟩ := build_eq_ok_iff.mp h
  obtain ⟨tail, head⟩ := a
  rw [Network.mem_arcs, (denotes_of_blocks (Network.denotes_ofInsertions _)).1]
  refine exists_congr fun b => and_congr_right fun hb => ?_
  obtain ⟨⟨hfirst, _⟩, ⟨hsecond, _⟩, _⟩ := hvalid b hb
  simp only [Block.Joins, Block.scope, Arc.reverse, Arc.mk.injEq]
  omega

/-- **What an instance is built from and what it is refused for.**  It can be
built just if all bounds fit and all blocks are valid.  Then each variable
stands in its place, fresh and with all values between its bounds, and the arcs
join the different variables that blocks name.  If it cannot, it is refused for
its first fault.  Words of 128 bits hold the number of values between any bounds
of 64 bits in order, and words of 32 bits hold the index of every variable. -/
theorem build_validates (c : Instance) (hcount : c.count ≤ maxVariables) :
    ((∃ r, c.build = .ok r) ↔
      (∀ p ∈ c.bounds, BoundsFit p) ∧ ∀ b ∈ c.blocks, b.IsValid c.count) ∧
    (∀ m net, c.build = .ok (m, net) → m.size = c.count ∧
      (∀ i lower upper, c.bounds[i]? = some (lower, upper) →
          ∃ x, m.read i = .ok x ∧
        x.IsFresh ∧ x.id = i ∧ ∀ v, v ∈ x.domain ↔ lower ≤ v ∧ v ≤ upper) ∧
      ∀ a, (a ∈ net.arcs → a.tail < c.count ∧ a.head < c.count ∧
          a.tail ≠ a.head) ∧
        (a ∈ net.arcs ↔ ∃ b ∈ c.blocks,
            (a.tail : Int) = b.first ∧ (a.head : Int) = b.second ∨
          (a.tail : Int) = b.second ∧ (a.head : Int) = b.first)) ∧
    (∀ why, c.build = .error why ↔ c.Refuses why) ∧
    (∀ lower upper : Int64, (lower.toInt, upper.toInt) ∈ c.bounds →
        lower.toInt ≤ upper.toInt →
      (wide upper).ssubOverflow (wide lower) = false ∧
      (wide upper - wide lower).saddOverflow 1 = false ∧
      ((wideSize lower upper).toNat : Int) = upper.toInt - lower.toInt + 1) ∧
    ∀ i, i < c.count → i.toUInt32.toNat = i := by
  refine ⟨exists_build_iff hcount, fun m net h => ?_,
    fun why => build_eq_error_iff hcount,
    fun lower upper _ hle => wideSize_exact hle, fun i hi => ?_⟩
  · obtain ⟨harena, hnetwork⟩ := of_build_eq_ok h
    have harcs := mem_arcs_of_build h
    have hvalid := ((exists_build_iff hcount).mp ⟨_, h⟩).2
    refine ⟨(read_of_buildArena harena).1, fun i lower upper hi => ?_,
      fun a => ⟨fun ha => ?_, harcs a⟩⟩
    · obtain ⟨_, rfl⟩ := (buildArena_eq_ok hcount).mp harena
      refine ⟨_, read_variablesFrom hi, Variable.isFresh_fresh _ _, rfl,
        fun v => ?_⟩
      exact Domain.mem_ofList.trans mem_interval
    · obtain ⟨htail, hhead⟩ := within_of_buildNetwork hnetwork a ha
      obtain ⟨b, hb, hends⟩ := (harcs a).mp ha
      have hne := (hvalid b hb).ne
      exact ⟨htail, hhead, by omega⟩
  · have hmax : i < 2 ^ 32 :=
      Nat.lt_trans (Nat.lt_of_lt_of_le hi hcount) (by decide)
    exact Nat.mod_eq_of_lt hmax

/-- An index that 32 bits would wrap to a variable that is there, in a block
behind a good one; and the widest bounds of 64 bits, behind good ones and before
a bad block. -/
theorem build_validates_of_two :
    let c : Instance :=
      ⟨[(0, 2), (-1, 1)], [⟨0, 1, [(0, -1)]⟩, ⟨0, 4294967297, []⟩]⟩
    let c' : Instance :=
      ⟨[(0, 2), (-9223372036854775808, 9223372036854775807)], [⟨0, 0, []⟩]⟩
    (c.count ≤ maxVariables ∧ c.build =
        .error (.unknownVariable 4294967297 2)) ∧
      c'.count ≤ maxVariables ∧ c'.build = .error
        (.domainTooLarge 1 (-9223372036854775808) 9223372036854775807
          maxDomainSize) := by
  intro c c'
  have hcount : c.count ≤ maxVariables := by decide
  have hcount' : c'.count ≤ maxVariables := by decide
  have hfirst : BoundsFit (0, 2) := ⟨by decide, by decide⟩
  have hfits : ∀ p ∈ c.bounds, BoundsFit p :=
    List.forall_mem_cons.mpr ⟨hfirst,
      List.forall_mem_singleton.mpr ⟨by decide, by decide⟩⟩
  have hvalid : ∀ b ∈ [Block.mk 0 1 [(0, -1)]], b.IsValid c.count :=
    List.forall_mem_singleton.mpr ⟨by decide, by decide, by decide⟩
  refine ⟨⟨hcount, ?_⟩, hcount', ?_⟩
  · obtain ⟨_, _, hrefused, _⟩ := build_validates c hcount
    exact (hrefused _).mpr (.block hfits
      ⟨[⟨0, 1, [(0, -1)]⟩], ⟨0, 4294967297, []⟩, [], rfl, hvalid,
        .second (by decide) (by decide)⟩)
  · obtain ⟨_, _, hrefused, _⟩ := build_validates c' hcount'
    exact (hrefused _).mpr
      (.bounds ⟨[(0, 2)], (-9223372036854775808, 9223372036854775807), [], rfl,
      List.forall_mem_singleton.mpr hfirst, .large (by decide) (by decide)⟩)

end Instance

end ConstraintNet
