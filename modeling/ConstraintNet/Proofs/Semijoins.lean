import ConstraintNet.Proofs.Partition
import ConstraintNet.Proofs.RevisionLaws

/-!
# Revisions, value by value

Between two different variables the two cuts of a revision do not touch each
other's variable, and either takes just the values that have no partner at the
other end.

The two ends look at different values of the head.  A value of the tail needs a
support that the head shows; what the head loses, it loses of all that is live,
shown or not.  After a revision both ends agree all the same, so that a second
one takes nothing.

* `Network.revise_semijoined` — what a revision takes from either end, value by
  value;
* `Semijoined.revise_again` — a second one takes nothing.
-/

namespace ConstraintNet

/-- Taking members out of a set makes it smaller by their number. -/
theorem ValueSet.size_add_length {s t : ValueSet} {l : List Int}
    (hnodup : l.Nodup) (hl : ∀ v ∈ l, v ∈ s) (ht : ∀ v, v ∈ t ↔ v ∈ s ∧ v ∉ l) :
    t.size + l.length = s.size := by
  have hdisjoint : ∀ v ∈ t.toList, ∀ u ∈ l, v ≠ u := by
    rintro v hv u hu rfl
    exact ((ht v).mp hv).2 hu
  have hperm : (t.toList ++ l).Perm s.toList := by
    rw [List.perm_ext_iff_of_nodup
      (List.nodup_append.mpr ⟨t.nodup, hnodup, hdisjoint⟩) s.nodup]
    intro v
    rw [List.mem_append, ← mem_def, ← mem_def, ht]
    by_cases hv : v ∈ l
    · simp [hv, hl v hv]
    · simp [hv]
  rw [size, size, ← hperm.length_eq, List.length_append]

/-- What the revision of an arc from a variable `x` to another one `y` makes of
a workspace: the tail loses the values of `lost`, the head those of `gone`. -/
structure Semijoined (c : Constraint) (a : Arc) (w : Workspace) (x y : Variable)
    (lost gone : List Int) (x' y' : Variable) (u : Workspace) : Prop where
  size : u.arena.size = w.arena.size
  tail : u.arena.read a.tail = .ok x'
  head : u.arena.read a.head = .ok y'
  frame : ∀ i, i ≠ a.tail → i ≠ a.head → u.arena.read i = w.arena.read i
  pruned : x.Pruned lost x'
  hidden : y.Hidden gone y'
  nodup_lost : lost.Nodup
  mem_lost : ∀ v, v ∈ lost ↔ v ∈ x.effective ∧
    ∀ z ∈ c.supports v, z ∉ y.effective
  nodup_gone : gone.Nodup
  mem_gone : ∀ z, z ∈ gone ↔ z ∈ y.live ∧ ∀ v ∈ x'.effective, z ∉ c.supports v
  trail_pruned : u.trail.pruned.entries =
    List.replicate lost.length a.tail ++ w.trail.pruned.entries
  trail_marked : u.trail.marked.entries =
    (if gone = [] then [] else [a.head]) ++ w.trail.marked.entries
  tally : u.tally = w.tally.revision a lost.length gone.length

/-- **A revision between two different variables is a semijoin** of either with
the other. -/
theorem Network.revise_semijoined {net : Network} {c : Constraint} {a : Arc}
    {w : Workspace} {x y : Variable} (hends : a.tail ≠ a.head)
    (hc : net.find? a = some c) (hx : w.arena.read a.tail = .ok x)
    (hy : w.arena.read a.head = .ok y) (hcx : x.Calm) (hcy : y.Calm) :
    ∃ lost gone x' y' u, net.revise a w = .ok (⟨lost.length, gone.length⟩, u) ∧
      Semijoined c a w x y lost gone x' y' u := by
  obtain ⟨x', z, gone, y', hpruned, hz, hhidden, hgone, hnodup, hrevise⟩ :=
    revise_eq_ok hc hx hy hcx hcy
  obtain rfl : z = y :=
    Arena.read_unique ((Arena.read_write_of_ne hends x').symm.trans hz) hy
  have hmem : ∀ v, v ∈ c.drops x z ↔
      v ∈ x.effective ∧ ∀ u ∈ c.supports v, u ∉ z.effective := by
    intro v
    rw [Constraint.mem_drops hx hy, Arena.supports_iff hx hy,
      Variable.hasSupport_iff]
    apply and_congr_right
    intro hv
    simp only [hv, true_and, not_exists, not_and]
    rfl
  have hkeeps : ∀ v, v ∈ c.keeps x z ↔ v ∈ x'.effective := by
    intro v
    rw [hpruned.mem_effective, Constraint.mem_drops hx hy,
      Constraint.mem_keeps hx hy, not_and, Classical.not_not]
    exact ⟨fun hs => ⟨Arena.effective_of_read hx ▸ hs.1, fun _ => hs⟩,
      fun h => h.2 h.1⟩
  refine ⟨_, gone, x', y', _, hrevise, ?_⟩
  constructor
  · exact (Arena.size_write _ _ _).trans (Arena.size_write _ _ _)
  · rw [Arena.read_write_of_ne (Ne.symm hends)]
    exact Arena.read_write_self (Arena.lt_of_read hx) x'
  · exact Arena.read_write_self
      ((Arena.size_write w.arena _ _).symm ▸ Arena.lt_of_read hy) y'
  · exact fun i htail hhead => (Arena.read_write_of_ne (Ne.symm hhead) y').trans
      (Arena.read_write_of_ne (Ne.symm htail) x')
  · exact hpruned
  · exact hhidden
  · exact c.nodup_drops
  · exact hmem
  · exact hnodup
  · intro v
    simp only [hgone, hkeeps, Constraint.mem_supports]
  · split
    · rfl
    · rfl
  · split
    · rfl
    · rfl
  · rfl

theorem Trail.recordPrunes_zero (t : Trail) (i : Nat) :
    t.recordPrunes i 0 = t :=
  congrArg (Trail.mk · t.marked) (Track.ext_entries rfl)

namespace Semijoined

variable {net : Network} {c : Constraint} {a : Arc} {w u : Workspace}
  {x y x' y' : Variable} {lost gone : List Int}

/-- What is left at the tail has a support left at the head. -/
theorem exists_support (h : Semijoined c a w x y lost gone x' y' u) {v : Int}
    (hv : v ∈ x'.effective) : ∃ z ∈ c.supports v, z ∈ y'.effective := by
  obtain ⟨hshown, hkept⟩ := (h.pruned.mem_effective v).mp hv
  obtain ⟨z, hz, hzy⟩ : ∃ z ∈ c.supports v, z ∈ y.effective := by
    by_contra hnone
    exact hkept ((h.mem_lost v).mpr
      ⟨hshown, fun z hz hzy => hnone ⟨z, hz, hzy⟩⟩)
  refine ⟨z, hz, (h.hidden.mem_effective z).mpr ⟨hzy, fun hgone => ?_⟩⟩
  exact ((h.mem_gone z).mp hgone).2 v hv hz

/-- What is left at the head, in sight or not, goes with something left at the
tail. -/
theorem exists_partner (h : Semijoined c a w x y lost gone x' y' u) {z : Int}
    (hz : z ∈ y'.live) : ∃ v ∈ x'.effective, z ∈ c.supports v := by
  obtain ⟨hlive, hkept⟩ := (h.hidden.mem_live z).mp hz
  by_contra hnone
  exact hkept ((h.mem_gone z).mpr ⟨hlive, fun v hv hvz => hnone ⟨v, hv, hvz⟩⟩)

/-- **A second revision takes nothing.** -/
theorem revise_again (h : Semijoined c a w x y lost gone x' y' u)
    (hends : a.tail ≠ a.head) (hc : net.find? a = some c) (hcx : x.Calm)
    (hcy : y.Calm) :
    net.revise a u = .ok ({}, { u with tally := u.tally.revision a 0 0 }) := by
  obtain ⟨x₂, z, gone₂, y₂, hpruned, hz, hhidden, hgone, _, hrevise⟩ :=
    Network.revise_eq_ok hc h.tail h.head (h.pruned.later.calm hcx)
      (h.hidden.later.calm hcy)
  obtain rfl : z = y' :=
    Arena.read_unique ((Arena.read_write_of_ne hends x₂).symm.trans hz) h.head
  have hkeeps : ∀ v ∈ x'.effective, v ∈ c.keeps x' z := by
    intro v hv
    obtain ⟨u, hu, hshown⟩ := h.exists_support hv
    exact List.mem_filter.mpr ⟨hv, Variable.hasSupport_iff.mpr ⟨u, hu, hshown⟩⟩
  have hdrops : c.drops x' z = [] := by
    rw [List.eq_nil_iff_forall_not_mem]
    intro v hv
    obtain ⟨hshown, hnot⟩ := List.mem_filter.mp hv
    rw [(List.mem_filter.mp (hkeeps v hshown)).2] at hnot
    cases hnot
  have hnone : gone₂ = [] := by
    rw [List.eq_nil_iff_forall_not_mem]
    intro v hv
    obtain ⟨hlive, hnot⟩ := (hgone v).mp hv
    obtain ⟨u, hu, huv⟩ := h.exists_partner hlive
    exact hnot u (hkeeps u hu) (Constraint.mem_supports.mp huv)
  rw [hrevise, hpruned.same hdrops, hhidden.same hnone, Arena.write_self h.tail,
    Arena.write_self h.head, hdrops, hnone, if_pos rfl]
  exact congrArg
    (fun t => Except.ok (({} : Revision), (⟨u.arena, t, _⟩ : Workspace)))
    (Trail.recordPrunes_zero u.trail a.tail)

end Semijoined

/-- **A revision is the exact semijoin of both ends of its arc.**  Of two
different variables to which anything was done before, if no marks wait, the
tail loses by prunes just the values that it shows without a support that the
head shows, and the head loses by one batch of marks just the live values that
go with no value left at the tail.  The counts are those of the values, the
trail has an entry for each prune and one for the batch, and nothing else
changes.  What the tail shows afterwards has a support that the head shows, and
another revision takes nothing. -/
theorem Network.revise_eq_semijoin {net : Network} {a : Arc} {c : Constraint}
    {w : Workspace} {x y : Variable} (hends : a.tail ≠ a.head)
    (hc : net.find? a = some c) (hx : w.arena.read a.tail = .ok x)
    (hy : w.arena.read a.head = .ok y) (htail : x.IsDerived ∧ x.pending = ∅)
    (hhead : y.IsDerived ∧ y.pending = ∅) :
    ∃ lost gone x' y' u, net.revise a w = .ok (⟨lost.length, gone.length⟩, u) ∧
      Semijoined c a w x y lost gone x' y' u ∧
      (∀ v, v ∈ x'.effective ↔ v ∈ x.effective ∧ v ∉ lost) ∧
      x'.live.size + lost.length = x.live.size ∧
      y'.live.size + gone.length = y.live.size ∧
      (∀ v ∈ x'.effective, ∃ z ∈ c.supports v, z ∈ y'.effective) ∧
      net.revise a u =
        .ok ({}, { u with tally := u.tally.revision a 0 0 }) := by
  have hcx : x.Calm := htail.1.calm htail.2
  have hcy : y.Calm := hhead.1.calm hhead.2
  obtain ⟨lost, gone, x', y', u, hrevise, h⟩ :=
    revise_semijoined hends hc hx hy hcx hcy
  refine ⟨lost, gone, x', y', u, hrevise, h, h.pruned.mem_effective, ?_, ?_,
    fun v hv => h.exists_support hv, h.revise_again hends hc hcx hcy⟩
  · exact ValueSet.size_add_length h.nodup_lost
      (fun v hv => (Variable.mem_effective.mp ((h.mem_lost v).mp hv).1).1)
      h.pruned.mem_live
  · exact ValueSet.size_add_length h.nodup_gone
      (fun v hv => ((h.mem_gone v).mp hv).1) h.hidden.mem_live

/-- Of a variable whose value `2` goes with a marked value only, and another
one, open, whose value `3` goes with none: the first loses `2`, the second
`3`. -/
theorem Network.revise_eq_semijoin_of_two :
    let c : Constraint :=
      { first := 0, second := 1, pairs := [(0, 1), (1, 2), (2, 0)] }
    let net := Network.ofConstraints [c]
    let x : Variable := .fresh 0 (.ofList [0, 1, 2])
    ∃ y, (Variable.fresh 1 (.ofList [0, 1, 2, 3])).performAll
        [.mark (· != 0), .commit] = .ok y ∧
      let w : Workspace := { arena := .ofList [x, y] }
      net.find? c.arc = some c ∧
      ∃ lost gone x' y' u, net.revise c.arc w =
          .ok (⟨lost.length, gone.length⟩, u) ∧
        Semijoined c c.arc w x y lost gone x' y' u ∧ 2 ∈ lost ∧ 3 ∈ gone ∧
        (∀ v, v ∈ x'.effective ↔ v ∈ x.effective ∧ v ∉ lost) ∧
        x'.live.size + lost.length = x.live.size ∧
        y'.live.size + gone.length = y.live.size ∧
        (∀ v ∈ x'.effective, ∃ z ∈ c.supports v, z ∈ y'.effective) ∧
        net.revise c.arc u = .ok ({},
          { u with tally := u.tally.revision c.arc 0 0 }) := by
  intro c net x
  obtain ⟨y, hy, hpending, hshown, hlive⟩ : ∃ y, (Variable.fresh 1
      (.ofList [0, 1, 2, 3])).performAll [.mark (· != 0), .commit] = .ok y ∧
        y.pending.isEmpty ∧
        (0 : Int) ∉ y.effective ∧ (3 : Int) ∈ y.live :=
    ⟨_, rfl, by decide +kernel, by decide +kernel, by decide +kernel⟩
  have hfind : net.find? c.arc = some c := by decide +kernel
  have htail : (2 : Int) ∈ x.effective := by decide +kernel
  obtain ⟨lost, gone, x', y', u, hrevise, h, hrest⟩ :=
    Network.revise_eq_semijoin (w := { arena := .ofList [x, y] }) (a := c.arc)
      (by decide) hfind
      rfl rfl ⟨⟨0, _, [], rfl⟩, rfl⟩
        ⟨⟨1, _, _, hy⟩, Std.ExtTreeSet.isEmpty_iff.mp hpending⟩
  refine ⟨y, hy, hfind, lost, gone, x', y', u, hrevise, h, ?_, ?_, hrest⟩
  · refine (h.mem_lost 2).mpr ⟨htail, fun z hz => ?_⟩
    have hz0 : z = 0 := by simpa [c] using hz
    exact hz0 ▸ hshown
  · refine (h.mem_gone 3).mpr ⟨hlive, fun v _ hv => ?_⟩
    simp [c] at hv

end ConstraintNet
