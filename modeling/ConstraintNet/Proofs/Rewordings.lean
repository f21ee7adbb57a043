import Mathlib.Logic.Relation
import ConstraintNet.Proofs.Matching

/-!
# Rewording an instance

The blocks of an instance can be written down in many ways: in another order,
more than once, with their tuples in another order or more than once, the other
way round, or as several blocks on the same two variables of which each says
only a part.  Each rewording leaves alone whether the blocks can be built, which
variables they join and which values they allow there.  That much decides what
every engine answers.
-/

namespace ConstraintNet

/-- Turning an arc round twice gives it back. -/
theorem Arc.reverse_eq_iff {a b : Arc} : a.reverse = b ↔ a = b.reverse :=
  ⟨fun h => h ▸ rfl, fun h => h ▸ rfl⟩

namespace Instance

namespace Block

/-- The block seen from its second variable. -/
def transposed (b : Block) : Block :=
  ⟨b.second, b.first, b.tuples.map Prod.swap⟩

/-- The block names two different ones of so many variables. -/
structure IsValid (n : Nat) (b : Block) : Prop where
  first : 0 ≤ b.first ∧ b.first < n
  second : 0 ≤ b.second ∧ b.second < n
  ne : b.first ≠ b.second

/-- The block joins the ends of an arc. -/
def Joins (b : Block) (a : Arc) : Prop := b.scope = a ∨ b.scope = a.reverse

/-- As far as the block goes, `x` may stand at the tail of the arc and `y` at
its head. -/
structure Allows (b : Block) (a : Arc) (x y : Int) : Prop where
  along : b.scope = a → (x, y) ∈ b.tuples
  against : b.scope = a.reverse → (y, x) ∈ b.tuples

variable {n : Nat} {b d : Block} {a : Arc} {x y : Int}

/-- A block is built just if it is valid, and then as the constraint that it
states. -/
theorem build_eq_ok {e : Constraint} :
    b.build n = .ok e ↔ b.IsValid n ∧ e = b.constraint := by
  constructor
  · intro h
    have hne := (ends_of_build h).1
    simp only [build, resolve, bind, Except.bind, pure, Except.pure] at h
    split at h
    · cases h
    · rename_i first hfirst
      split at h
      · cases h
      · rename_i second hsecond
        split at h
        · cases h
        · split at hfirst
          · rename_i hvalid
            cases hfirst
            split at hsecond
            · rename_i hvalid'
              cases hsecond
              cases h
              exact ⟨⟨hvalid, hvalid', fun heq => hne (congrArg Int.toNat heq)⟩,
                rfl⟩
            · cases hsecond
          · cases hfirst
  · rintro ⟨⟨hfirst, hsecond, hne⟩, rfl⟩
    have hends : b.first.toNat ≠ b.second.toNat := by omega
    simp only [build, resolve, if_pos hfirst, if_pos hsecond, if_neg hends,
      bind, Except.bind, pure, Except.pure]
    rfl

/-- A block is valid from both sides. -/
theorem isValid_transposed : b.transposed.IsValid n ↔ b.IsValid n :=
  ⟨fun h => ⟨h.second, h.first, h.ne.symm⟩,
    fun h => ⟨h.second, h.first, h.ne.symm⟩⟩

/-- It joins the same variables from both sides. -/
theorem joins_transposed : b.transposed.Joins a ↔ b.Joins a := by
  have hscope : b.transposed.scope = b.scope.reverse := rfl
  rw [Joins, Joins, hscope, Arc.reverse_eq_iff, Arc.reverse_eq_iff,
    Arc.reverse_reverse, or_comm]

/-- From the other side it allows the same pairs of values. -/
theorem allows_transposed : b.transposed.Allows a x y ↔ b.Allows a x y := by
  have hscope : ∀ a : Arc, b.transposed.scope = a ↔
      b.scope = a.reverse := fun a =>
    Arc.reverse_eq_iff (a := b.scope)
  have htuples : ∀ x y, (x, y) ∈ b.transposed.tuples ↔
      (y, x) ∈ b.tuples := fun x y =>
    Constraint.mem_pairs_transposed (c := b.constraint)
  constructor
  · intro h
    refine ⟨fun hb => (htuples y x).mp (h.against ((hscope _).mpr hb)),
      fun hb => ?_⟩
    exact (htuples x y).mp (h.along ((hscope a).mpr hb))
  · intro h
    refine ⟨fun hb => (htuples x y).mpr (h.against ((hscope a).mp hb)),
      fun hb => ?_⟩
    exact (htuples y x).mpr (h.along ((hscope _).mp hb))

end Block

/-- One step of rewording blocks; which block comes first is for another
step. -/
inductive Rewording : List Block → List Block → Prop
  /-- The blocks come in another order. -/
  | permuted {l l' : List Block} (h : l.Perm l') : Rewording l l'
  /-- The tuples of a block come in another order, or more than once. -/
  | retold {b : Block} {tuples : List (Int × Int)} {l : List Block}
      (h : ∀ p, p ∈ tuples ↔ p ∈ b.tuples) :
        Rewording (b :: l) ({ b with tuples } :: l)
  /-- A block is repeated. -/
  | repeated {b : Block} {l : List Block} : Rewording (b :: l) (b :: b :: l)
  /-- A block is written the other way round. -/
  | turned {b : Block} {l : List Block} : Rewording (b :: l) (b.transposed :: l)
  /-- Two blocks on the same variables become one with the tuples that they
  share. -/
  | merged {b d : Block} {tuples : List (Int × Int)} {l : List Block}
      (hfirst : d.first = b.first)
      (hsecond : d.second = b.second)
      (h : ∀ p, p ∈ tuples ↔ p ∈ b.tuples ∧ p ∈ d.tuples) :
      Rewording (b :: d :: l) ({ b with tuples } :: l)

/-! ## What rewording leaves alone -/

/-- Two lists of blocks can be built for the same numbers of variables, join the
same variables and allow the same values there. -/
structure SameMeaning (l l' : List Block) : Prop where
  valid : ∀ n, (∀ b ∈ l, b.IsValid n) ↔ ∀ b ∈ l', b.IsValid n
  joins : ∀ a, (∃ b ∈ l, b.Joins a) ↔ ∃ b ∈ l', b.Joins a
  allows : ∀ a x y, (∀ b ∈ l, b.Allows a x y) ↔ ∀ b ∈ l', b.Allows a x y

namespace SameMeaning

variable {l l' l'' : List Block} {b b' d : Block}

theorem refl (l : List Block) : SameMeaning l l :=
  ⟨fun _ => Iff.rfl, fun _ => Iff.rfl, fun _ _ _ => Iff.rfl⟩

theorem symm (h : SameMeaning l l') : SameMeaning l' l :=
  ⟨fun n => (h.valid n).symm, fun a => (h.joins a).symm,
    fun a x y => (h.allows a x y).symm⟩

/-- What two lists mean is the same if both mean what a third means. -/
theorem trans (h : SameMeaning l l') (h' : SameMeaning l' l'') :
    SameMeaning l l'' :=
  ⟨fun n => (h.valid n).trans (h'.valid n),
    fun a => (h.joins a).trans (h'.joins a),
    fun a x y => (h.allows a x y).trans (h'.allows a x y)⟩

/-- The order of the blocks, and how often one is given, do not matter. -/
theorem of_mem (h : ∀ b, b ∈ l ↔ b ∈ l') : SameMeaning l l' := by
  constructor <;> intros <;> simp only [h]

/-- The first block may be exchanged for one that means the same. -/
theorem cons (hvalid : ∀ n, b.IsValid n ↔ b'.IsValid n)
    (hjoins : ∀ a, b.Joins a ↔ b'.Joins a)
    (hallows : ∀ a x y, b.Allows a x y ↔ b'.Allows a x y) (l : List Block) :
    SameMeaning (b :: l) (b' :: l) := by
  constructor
  · intro n
    rw [List.forall_mem_cons, List.forall_mem_cons, hvalid]
  · intro a
    simp only [List.mem_cons, exists_eq_or_imp, hjoins]
  · intro a x y
    rw [List.forall_mem_cons, List.forall_mem_cons, hallows]

/-- The first two blocks may be exchanged for one that means what they mean
together. -/
theorem merge (hvalid : ∀ n, b.IsValid n ∧ d.IsValid n ↔ b'.IsValid n)
    (hjoins : ∀ a, b.Joins a ∨ d.Joins a ↔ b'.Joins a)
    (hallows : ∀ a x y, b.Allows a x y ∧ d.Allows a x y ↔ b'.Allows a x y)
    (l : List Block) : SameMeaning (b :: d :: l) (b' :: l) := by
  constructor
  · intro n
    simp only [List.forall_mem_cons, ← hvalid, and_assoc]
  · intro a
    simp only [List.mem_cons, exists_eq_or_imp, ← hjoins, or_assoc]
  · intro a x y
    simp only [List.forall_mem_cons, ← hallows, and_assoc]

end SameMeaning

/-- **One step of rewording keeps the meaning.** -/
theorem Rewording.sameMeaning {l l' : List Block} (h : Rewording l l') :
    SameMeaning l l' := by
  cases h with
  | permuted h => exact .of_mem fun b => h.mem_iff
  | @retold b tuples l h =>
      refine .cons (fun n => ?_) (fun a => ?_) (fun a x y => ?_) l
      · exact ⟨fun h => ⟨h.first, h.second, h.ne⟩,
          fun h => ⟨h.first, h.second, h.ne⟩⟩
      · exact Iff.rfl
      · exact ⟨fun hb =>
          ⟨fun hs => (h _).mpr (hb.along hs),
            fun hs => (h _).mpr (hb.against hs)⟩,
          fun hb => ⟨fun hs => (h _).mp (hb.along hs),
            fun hs => (h _).mp (hb.against hs)⟩⟩
  | repeated => exact .of_mem fun b => by simp
  | turned =>
      exact .cons (fun n => Block.isValid_transposed.symm)
        (fun a => Block.joins_transposed.symm)
        (fun a x y => Block.allows_transposed.symm) _
  | @merged b d tuples l hfirst hsecond h =>
      have hscope :
          d.scope = b.scope := by rw [Block.scope, Block.scope, hfirst, hsecond]
      refine .merge (fun n => ?_) (fun a => ?_) (fun a x y => ?_) l
      · constructor
        · exact fun hb => ⟨hb.1.first, hb.1.second, hb.1.ne⟩
        · intro hb
          exact ⟨⟨hb.first, hb.second, hb.ne⟩,
            hfirst ▸ hb.first, hsecond ▸ hb.second, hfirst ▸ hsecond ▸ hb.ne⟩
      · rw [Block.Joins, Block.Joins, hscope, or_self]
        exact Iff.rfl
      · constructor
        · rintro ⟨hb, hd⟩
          exact ⟨fun hs => (h _).mpr ⟨hb.along hs, hd.along (hscope.trans hs)⟩,
            fun hs => (h _).mpr ⟨hb.against hs, hd.against (hscope.trans hs)⟩⟩
        · intro hb
          exact ⟨⟨fun hs => ((h _).mp (hb.along hs)).1,
            fun hs => ((h _).mp (hb.against hs)).1⟩,
            fun hs => ((h _).mp (hb.along (hscope ▸ hs))).2,
            fun hs => ((h _).mp (hb.against (hscope ▸ hs))).2⟩

/-- **Any rewording does.** -/
theorem sameMeaning_of_eqvGen {l l' : List Block}
    (h : Relation.EqvGen Rewording l l') : SameMeaning l l' := by
  induction h with
  | rel _ _ h => exact h.sameMeaning
  | refl l => exact .refl l
  | symm _ _ _ ih => exact ih.symm
  | trans _ _ _ _ _ ih ih' => exact ih.trans ih'

/-! ## What an instance builds -/

/-- The blocks as insertions into a network. -/
def insertions (l : List Block) : List Insertion :=
  l.map fun b => .symmetric b.constraint

/-- **When the blocks can be built**, and what they build. -/
theorem buildNetwork_eq_ok {c : Instance} {net : Network} :
    c.buildNetwork = .ok net ↔
    c.count ≤ maxVariables ∧ (∀ b ∈ c.blocks, b.IsValid c.count) ∧
      net = .ofInsertions (insertions c.blocks) := by
  have hfold : ∀ (l : List Block) (start : Network),
      l.foldlM (fun n b => n.insertSymmetric <$> b.build c.count) start =
          .ok net ↔
        (∀ b ∈ l, b.IsValid c.count) ∧
          net = (insertions l).foldl (fun n i => i.perform n) start := by
    intro l
    induction l with
    | nil =>
        intro start
        simp [insertions, pure, Except.pure, eq_comm]
    | cons b l ih =>
        intro start
        rw [List.foldlM_cons, List.forall_mem_cons]
        by_cases hb : b.IsValid c.count
        · rw [Block.build_eq_ok.mpr ⟨hb, rfl⟩]
          exact (ih _).trans (by simp [hb, insertions, Insertion.perform])
        · cases hbuild : b.build c.count with
          | error e => simp [hb, Functor.map, Except.map, bind, Except.bind]
          | ok d => exact absurd (Block.build_eq_ok.mp hbuild).1 hb
  unfold buildNetwork checkCount
  split
  · rename_i hcount
    exact (hfold c.blocks ∅).trans (by simp [hcount, Network.ofInsertions])
  · rename_i hcount
    simp [hcount, bind, Except.bind]

/-- What a network of blocks denotes, told by the blocks. -/
theorem denotes_of_blocks {l : List Block} {net : Network}
    (h : net.Denotes (insertions l)) :
    (∀ a, (net.find? a).isSome ↔ ∃ b ∈ l, b.Joins a) ∧
      ∀ a x y, net.allows a x y ↔ ∀ b ∈ l, b.Allows a x y := by
  have hdirected : ∀ c, Insertion.directed c ∉
    insertions l := by simp [insertions]
  have hsymmetric : ∀ c, .symmetric c ∈ insertions l ↔
      ∃ b ∈ l, b.constraint = c := by
    simp [insertions]
  constructor
  · intro a
    rw [h.isSome]
    constructor
    · rintro ⟨c, ⟨hc, harc⟩ | ⟨hc, harc⟩⟩
      · obtain ⟨b, hb, rfl⟩ := (hsymmetric c).mp (hc.resolve_left (hdirected c))
        exact ⟨b, hb, .inl harc⟩
      · obtain ⟨b, hb, rfl⟩ := (hsymmetric c).mp hc
        exact ⟨b, hb, .inr harc⟩
    · rintro ⟨b, hb, harc | harc⟩
      · exact ⟨b.constraint,
          .inl ⟨.inr ((hsymmetric _).mpr ⟨b, hb, rfl⟩), harc⟩⟩
      · exact ⟨b.constraint, .inr ⟨(hsymmetric _).mpr ⟨b, hb, rfl⟩, harc⟩⟩
  · intro a x y
    rw [h.allows]
    constructor
    · rintro ⟨hown, hback⟩ b hb
      have hmem := (hsymmetric b.constraint).mpr ⟨b, hb, rfl⟩
      exact ⟨fun harc => hown _ (.inr hmem) harc, fun harc => hback _ hmem harc⟩
    · intro hall
      refine ⟨fun c hc harc => ?_, fun c hc harc => ?_⟩
      · obtain ⟨b, hb, rfl⟩ := (hsymmetric c).mp (hc.resolve_left (hdirected c))
        exact (hall b hb).along harc
      · obtain ⟨b, hb, rfl⟩ := (hsymmetric c).mp hc
        exact (hall b hb).against harc

/-- Blocks with the same meaning make networks that match. -/
theorem SameMeaning.matches {l l' : List Block} (h : SameMeaning l l') :
    (Network.ofInsertions (insertions l)).Matches
      (.ofInsertions (insertions l')) := by
  obtain ⟨hsome, hallows⟩ :=
    denotes_of_blocks (Network.denotes_ofInsertions (insertions l))
  obtain ⟨hsome', hallows'⟩ :=
    denotes_of_blocks (Network.denotes_ofInsertions (insertions l'))
  constructor
  · exact Network.arcs_eq_of_isSome fun a => by rw [hsome, hsome', h.joins]
  · intro a x y
    rw [Bool.eq_iff_iff, hallows, hallows', h.allows]

/-- An instance is built just if its variables and its network are. -/
theorem build_eq_ok {c : Instance} {m : Arena} {net : Network} :
    c.build = .ok (m, net) ↔ c.buildArena = .ok m ∧
    c.buildNetwork = .ok net := by
  refine ⟨of_build_eq_ok, fun ⟨harena, hnetwork⟩ => ?_⟩
  simp only [build, harena, hnetwork, bind, Except.bind, pure, Except.pure]

/-- **When an instance can be built**, and what it builds. -/
theorem build_eq_ok_iff {c : Instance} {m : Arena} {net : Network} :
    c.build = .ok (m, net) ↔
    (c.buildArena = .ok m ∧ c.count ≤ maxVariables ∧
        ∀ b ∈ c.blocks, b.IsValid c.count) ∧
      net = .ofInsertions (insertions c.blocks) := by
  rw [build_eq_ok, buildNetwork_eq_ok, and_assoc, and_assoc]

end Instance

/-- **How an instance is written down does not matter.**  Of two instances with
the same bounds, one of which rewords the blocks of the other, both can be built
or neither can; and if they can, every engine answers the same to both. -/
theorem Engine.solve_of_reworded {c c' : Instance}
    (hbounds : c.bounds = c'.bounds)
    (hblocks : Relation.EqvGen Instance.Rewording c.blocks c'.blocks) :
    ((∃ r, c.build = .ok r) ↔ ∃ r, c'.build = .ok r) ∧
    ((∃ r, c.build = .ok r) → ∀ e : Engine, ∃ outcome e',
      e.solve c = .ok (outcome, e') ∧ e.solve c' = .ok (outcome, e')) := by
  have hmeaning := Instance.sameMeaning_of_eqvGen hblocks
  have hcount : c.count = c'.count := congrArg List.length hbounds
  have harena : c.buildArena = c'.buildArena := by
    simp only [Instance.buildArena, Instance.checkCount, hcount, hbounds]
  have hparts : ∀ m, (c.buildArena = .ok m ∧ c.count ≤ Instance.maxVariables ∧
      ∀ b ∈ c.blocks, b.IsValid c.count) ↔ c'.buildArena = .ok m ∧
        c'.count ≤ Instance.maxVariables ∧
        ∀ b ∈ c'.blocks, b.IsValid c'.count := fun m => by
    rw [harena, hcount, hmeaning.valid]
  constructor
  · simp only [Prod.exists, Instance.build_eq_ok_iff, hparts]
    exact exists_congr fun m => by simp
  · rintro ⟨⟨m, net⟩, hbuild⟩ e
    obtain ⟨h, rfl⟩ := Instance.build_eq_ok_iff.mp hbuild
    have hbuild' := Instance.build_eq_ok_iff.mpr ⟨(hparts m).mp h, rfl⟩
    obtain ⟨outcome, e', hsolve⟩ := solve_of_build e hbuild
    refine ⟨outcome, e', hsolve, ?_⟩
    rw [← hsolve, solve, solve, hbuild, hbuild']
    simp only [hmeaning.matches.solveBuilt]

/-- Two blocks merged into one, which is turned round and then tells a tuple
twice. -/
theorem Engine.solve_of_reworded_of_two :
    let c : Instance :=
      ⟨[(0, 1), (0, 2)],
        [⟨0, 1, [(0, 1), (1, 0), (1, 2)]⟩, ⟨0, 1, [(1, 2), (0, 1)]⟩]⟩
    let c' : Instance := ⟨[(0, 1), (0, 2)], [⟨1, 0, [(2, 1), (1, 0), (2, 1)]⟩]⟩
    let e : Engine :=
      ⟨.maintainArcConsistency, .random, .descending, .all, .ofSeed 7⟩
    ∃ outcome e', e.solve c = .ok (outcome, e') ∧
      e.solve c' = .ok (outcome, e') := by
  intro c c' e
  have hmerged : Instance.Rewording c.blocks [⟨0, 1, [(0, 1), (1, 2)]⟩] :=
    .merged rfl rfl fun p => by
      constructor <;> simp +contextual [or_imp]
  have hturned :
      Instance.Rewording [⟨0, 1, [(0, 1), (1, 2)]⟩]
        [⟨1, 0, [(1, 0), (2, 1)]⟩] := .turned
  have hretold : Instance.Rewording [⟨1, 0, [(1, 0), (2, 1)]⟩] c'.blocks :=
    .retold fun p => by grind
  have hbuilt : c.build.toOption.isSome := by decide +kernel
  have hblocks : Relation.EqvGen Instance.Rewording c.blocks c'.blocks :=
    .trans _ _ _ (.trans _ _ _ (.rel _ _ hmerged) (.rel _ _ hturned))
      (.rel _ _ hretold)
  have hbounds : c.bounds = c'.bounds := rfl
  refine (solve_of_reworded hbounds hblocks).2 ?_ e
  cases hbuild : c.build with
  | error why =>
      rw [hbuild] at hbuilt
      cases hbuilt
  | ok r => exact ⟨r, rfl⟩

end ConstraintNet
