import ConstraintNet.Proofs.Settled
import Mathlib.Data.List.Induction

/-!
# The parts of a domain

What is done to a variable in some order, with some values, may fail for want of
something to take back, and for nothing else.  As long as it does not, the
domain and the pruned values are the two parts of the domain that the variable
started with, each commit and each prune notwithstanding.

The marks are another matter.  A prune takes a live value, and a value whose
mark waits to be committed is live.  A commit after such a prune hides a value
that is out of the domain, and then one value is both pruned and marked.  This
is the only way: the marks lie in the domain all along if and only if each
commit finds its values there.
-/

namespace ConstraintNet.Variable

/-! ## Operations -/

/-- What may be asked of a variable. -/
inductive Operation
  | prune (v : Int)
  | undoPrune
  | assign (v : Int)
  | unassign
  | retire
  | mark (supported : Int → Bool)
  | commit
  | undoMark
  | reset

/-- The variable after an operation. -/
def perform (x : Variable) : Operation → Except Fault Variable
  | .prune v => (x.prune v).map Prod.snd
  | .undoPrune => x.undoPrune.map Prod.snd
  | .assign v => .ok (x.assign v)
  | .unassign => .ok x.unassign
  | .retire => x.retire
  | .mark supported => .ok (x.markUnsupported supported)
  | .commit => x.commitMarks.map Prod.snd
  | .undoMark => x.undoMark.map Prod.snd
  | .reset => .ok x.reset

/-- The variable after operations, one after the other. -/
def performAll (x : Variable) (l : List Operation) : Except Fault Variable :=
  l.foldlM perform x

variable {x y : Variable} {d : Domain} {o : Operation} {l : List Operation}

/-- One operation more is performed on what those before it left. -/
theorem performAll_concat {z : Variable} (hz : x.performAll l = .ok z)
    (hy : z.perform o = .ok y) : x.performAll (l ++ [o]) = .ok y := by
  rw [performAll, List.foldlM_append, ← performAll, hz]
  simp only [bind, Except.bind, List.foldlM_cons, List.foldlM_nil, hy]
  rfl

/-- A sequence succeeds only if all but its last operation do, and then the
last. -/
theorem of_performAll_concat (h : x.performAll (l ++ [o]) = .ok y) :
    ∃ z, x.performAll l = .ok z ∧ z.perform o = .ok y := by
  rw [performAll, List.foldlM_append] at h
  obtain ⟨z, hz, hy⟩ := of_bind_eq_ok h
  rw [List.foldlM_cons] at hy
  obtain ⟨y', hy', hend⟩ := of_bind_eq_ok hy
  cases hend
  exact ⟨z, hz, hy'⟩

/-- Operations on a fresh variable come to it. -/
def IsDerived (x : Variable) : Prop :=
  ∃ id d l, (fresh id d).performAll l = .ok x

/-- `P` holds after each operation, and at the start. -/
def Throughout (x : Variable) (l : List Operation) (P : Variable → Prop) :
    Prop :=
  ∀ front, front <+: l → ∀ y, x.performAll front = .ok y → P y

/-- `P` holds of each operation and the variable that it meets. -/
def AtEach (x : Variable) (l : List Operation)
    (P : Operation → Variable → Prop) : Prop :=
  ∀ front o, front ++ [o] <+: l → ∀ y, x.performAll front = .ok y → P o y

/-- What holds at the start and is preserved by each operation holds
throughout. -/
theorem Throughout.of_step {P : Variable → Prop} (hx : P x)
    (hstep : x.AtEach l fun o y => P y → ∀ z, y.perform o = .ok z → P z) :
    x.Throughout l P := by
  intro front hfront
  induction front using List.reverseRecOn with
  | nil =>
      intro y hy
      cases hy
      exact hx
  | append_singleton front o ih =>
      intro z hz
      obtain ⟨y, hy, hyz⟩ := of_performAll_concat hz
      have hprefix : front <+: l := (List.prefix_append front [o]).trans hfront
      exact hstep front o hfront y hy (ih hprefix y hy) z hyz

/-! ## What no operation breaks -/

/-- Domain and pruned values are the two parts of `d`, and no mark that waits
was committed. -/
structure Divided (d : Domain) (x : Variable) : Prop where
  pruned_lawful : x.pruned.Lawful
  marked_lawful : x.marked.Lawful
  mem_initial : ∀ v, v ∈ x.initial ↔ v ∈ d
  mem_domain : ∀ v, v ∈ x.domain ↔ v ∈ d ∧ v ∉ x.pruned.excluded
  pruned_initial : ∀ v ∈ x.pruned.excluded, v ∈ d
  pending : ∀ v ∈ x.pending, v ∉ x.marked.excluded

/-- A new variable has all values in its domain and none anywhere else. -/
theorem divided_fresh (id : Nat) (d : Domain) : Divided d (fresh id d) where
  pruned_lawful := Exclusion.Stack.lawful_empty _
  marked_lawful := Exclusion.Stack.lawful_empty _
  mem_initial _ := Iff.rfl
  mem_domain v := by simp [fresh, Exclusion.Stack.empty]
  pruned_initial v hv := by simp [fresh, Exclusion.Stack.empty] at hv
  pending v hv := by simp [fresh] at hv

/-- A prune of a value that is not live does nothing. -/
theorem Divided.prune (hx : x.Divided d) (v : Int) :
    ∃ b y, x.prune v = .ok (b, y) ∧ y.Divided d ∧ y.marked = x.marked ∧
      y.pending = x.pending ∧
      (∀ w, w ∈ y.domain ↔ w ∈ x.domain ∧ (v ∈ x.live → w ≠ v)) := by
  by_cases hv : v ∈ x.live
  · have hdomain : v ∈ x.domain := (mem_live.mp hv).1
    obtain ⟨hinitial, hout⟩ := (hx.mem_domain v).mp hdomain
    have hsingle : ∀ w ∈ [v], w ∉ x.pruned.excluded := by
      intro w hw
      rw [List.mem_singleton.mp hw]
      exact hout
    obtain ⟨pruned, hpush, _, hbatches, _⟩ :=
      Exclusion.Stack.push_eq_ok (List.cons_ne_nil v [])
        (List.pairwise_singleton _ v) hsingle
    have hexcluded : ∀ w, w ∈ pruned.excluded ↔
        w = v ∨ w ∈ x.pruned.excluded := by
      intro w
      rw [Exclusion.Stack.mem_excluded_push hpush, List.mem_singleton]
    have hleft : ∀ w, w ∈ x.domain.erase v ↔ w ∈ x.domain ∧ w ≠ v := fun w =>
      Domain.mem_erase
    refine ⟨true, { x with domain := x.domain.erase v, pruned }, ?_, ?_,
      rfl, rfl, ?_⟩
    · rw [Variable.prune, if_pos (isLive_iff.mpr hv), hpush]
    · refine { hx with
        pruned_lawful :=
          hx.pruned_lawful.of_push hpush hbatches (List.cons_ne_nil v [])
            (List.pairwise_singleton _ v) hsingle
        mem_domain := ?_
        pruned_initial := ?_ }
      · intro w
        rw [hleft, hx.mem_domain w, hexcluded w, not_or, and_assoc,
          and_comm (b := w ≠ v)]
      · intro w hw
        rcases (hexcluded w).mp hw with rfl | hw
        · exact hinitial
        · exact hx.pruned_initial w hw
    · intro w
      simp only [hleft, hv, forall_const]
  · exact ⟨false, x, prune_of_not_mem_live hv, hx, rfl, rfl,
      fun w => by simp [hv]⟩

/-- A batch of pruned values goes back into the domain. -/
theorem Divided.undoPrune (hx : x.Divided d) (hne : x.pruned.batches ≠ []) :
    ∃ v y, x.undoPrune = .ok (v, y) ∧ y.Divided d ∧ y.marked = x.marked ∧
      y.pending = x.pending ∧ ∀ w ∈ x.domain, w ∈ y.domain := by
  obtain ⟨batch, rest, hbatches⟩ := List.exists_cons_of_ne_nil hne
  have hmem : batch ∈ x.pruned.batches := by simp [hbatches]
  obtain ⟨v, l, rfl⟩ :=
    List.exists_cons_of_ne_nil (hx.pruned_lawful.not_empty batch hmem)
  obtain ⟨pruned, hpop, hlawful, _, _, hexcluded⟩ :=
    hx.pruned_lawful.pop hbatches
  have hback : ∀ w, w ∈ x.domain.insertAll (v :: l) ↔
      w ∈ v :: l ∨ w ∈ x.domain :=
    fun w => Domain.mem_insertAll
  have hbatch : ∀ w ∈ v :: l, w ∈ d := fun w hw => hx.pruned_initial w
    ((hx.pruned_lawful.mem_excluded w).mpr (List.mem_flatten.mpr ⟨_, hmem, hw⟩))
  refine ⟨v, { x with domain := x.domain.insertAll (v :: l), pruned }, ?_, ?_,
    rfl, rfl, ?_⟩
  · rw [Variable.undoPrune, hpop]
  · refine { hx with
      pruned_lawful := hlawful
      mem_domain := ?_
      pruned_initial := fun w hw =>
        hx.pruned_initial w ((hexcluded w).mp hw).1 }
    intro w
    rw [hback, hx.mem_domain w, hexcluded w]
    by_cases hw : w ∈ v :: l
    · simp only [hw, true_or, not_true_eq_false, and_false, not_false_eq_true,
        and_true, true_iff]
      exact hbatch w hw
    · simp only [hw, false_or, not_false_eq_true, and_true]
  · exact fun w hw => (hback w).mpr (Or.inr hw)

/-- Gathering marks takes live values, none of which is marked. -/
theorem Divided.markUnsupported (hx : x.Divided d) (supported : Int → Bool) :
    (x.markUnsupported supported).Divided d ∧
      ∀ v, v ∈ (x.markUnsupported supported).pending →
        v ∈ x.pending ∨ v ∈ x.live := by
  have hpending : ∀ v, v ∈ (x.markUnsupported supported).pending →
      v ∈ x.pending ∨ v ∈ x.live := by
    intro v hv
    rw [Variable.markUnsupported, Std.ExtTreeSet.mem_insertMany_list,
      List.contains_iff_mem] at hv
    exact hv.imp_right fun h => (ValueSet.mem_filter.mp h).1
  refine ⟨{ hx with pending := ?_ }, hpending⟩
  intro v hv
  rcases hpending v hv with hv | hv
  · exact hx.pending v hv
  · exact (mem_live.mp hv).2

/-- What waits can be committed. -/
theorem Divided.commitMarks (hx : x.Divided d) :
    ∃ b y, x.commitMarks = .ok (b, y) ∧ y.Divided d ∧ y.domain = x.domain ∧
      y.pending = ∅ ∧
      ∀ v, v ∈ y.marked.excluded ↔ v ∈ x.pending ∨ v ∈ x.marked.excluded := by
  have hmem : ∀ v, v ∈ x.pending.toList ↔ v ∈ x.pending := fun v =>
    Std.ExtTreeSet.mem_toList
  by_cases hne : x.pending.toList = []
  · refine ⟨false, { x with pending := ∅ }, ?_, { hx with pending := by simp },
      rfl, rfl, ?_⟩
    · rw [Variable.commitMarks, hne, Exclusion.Stack.push_nil]
    · intro v
      rw [← hmem v, hne]
      simp
  · have hnodup : x.pending.toList.Nodup :=
      Std.ExtTreeSet.distinct_toList.imp fun h he => h (by simp [he])
    have hnot : ∀ v ∈ x.pending.toList, v ∉ x.marked.excluded :=
      fun v hv => hx.pending v ((hmem v).mp hv)
    obtain ⟨marked, hpush, _, hbatches, _⟩ :=
      Exclusion.Stack.push_eq_ok hne hnodup hnot
    refine ⟨true, { x with marked, pending := ∅ }, ?_, ?_, rfl, rfl, ?_⟩
    · rw [Variable.commitMarks, hpush]
    · exact { hx with
        marked_lawful := hx.marked_lawful.of_push hpush hbatches hne hnodup hnot
        pending := by simp }
    · intro v
      rw [Exclusion.Stack.mem_excluded_push hpush, hmem]

/-- A batch of marks is taken back. -/
theorem Divided.undoMark (hx : x.Divided d) (hne : x.marked.batches ≠ []) :
    ∃ batch y, x.undoMark = .ok (batch, y) ∧ y.Divided d ∧ y.domain = x.domain ∧
      y.pending = x.pending ∧ ∀ v ∈ y.marked.excluded,
        v ∈ x.marked.excluded := by
  obtain ⟨batch, rest, hbatches⟩ := List.exists_cons_of_ne_nil hne
  obtain ⟨marked, hpop, hlawful, _, _, hexcluded⟩ :=
    hx.marked_lawful.pop hbatches
  refine ⟨batch, { x with marked }, ?_, ?_, rfl, rfl, ?_⟩
  · rw [Variable.undoMark, hpop]
  · exact { hx with
      marked_lawful := hlawful
      pending := fun v hv hm => hx.pending v hv ((hexcluded v).mp hm).1 }
  · exact fun v hv => ((hexcluded v).mp hv).1

/-- A reset brings the whole domain back. -/
theorem Divided.reset (hx : x.Divided d) : x.reset.Divided d where
  pruned_lawful := Exclusion.Stack.lawful_empty _
  marked_lawful := Exclusion.Stack.lawful_empty _
  mem_initial v := by
    rw [← hx.mem_initial v, Domain.mem_def (d := x.initial)]
    exact Domain.mem_ofList
  mem_domain v := by
    rw [← hx.mem_initial v, Domain.mem_def (d := x.initial)]
    simp [Variable.reset, new, fresh, Exclusion.Stack.empty]
  pruned_initial v
    hv := by simp [Variable.reset, new, fresh, Exclusion.Stack.empty] at hv
  pending v hv := by simp [Variable.reset, new, fresh] at hv

/-- Every mark lies in the domain. -/
def MarksWithin (x : Variable) : Prop := ∀ v ∈ x.marked.excluded, v ∈ x.domain

/-- Every gathered value lies in the domain. -/
def WaitsWithin (x : Variable) : Prop := ∀ v ∈ x.pending, v ∈ x.domain

/-! ## What one operation does -/

/-- Of the parts of a variable, an operation changes these. -/
structure Performs (d : Domain) (o : Operation) (x y : Variable) : Prop where
  divided : y.Divided d
  domain : ∀ v ∈ x.domain, v ∈ y.domain ∨ o = .prune v ∧ v ∈ x.live
  marked : ∀ v ∈ y.marked.excluded, v ∈ x.marked.excluded ∨
    o = .commit ∧ v ∈ x.pending
  pending : ∀ v ∈ y.pending, v ∈ x.pending ∨ v ∈ y.domain
  committed : o = .commit → y.domain = x.domain ∧
    ∀ v ∈ x.pending, v ∈ y.marked.excluded

/-- **Only what takes back can fail**, and only if there is nothing to take
back. -/
theorem Divided.fails (hx : x.Divided d) {e : Fault}
    (h : x.perform o = .error e) :
    o = .undoPrune ∧ x.pruned.batches = [] ∨
      o = .undoMark ∧ x.marked.batches = [] ∨
      o = .retire ∧ x.tried.pop? = none := by
  cases o with
  | prune v =>
      obtain ⟨b, y, hy, _⟩ := hx.prune v
      simp [perform, hy, Except.map] at h
  | undoPrune =>
      refine .inl ⟨rfl, ?_⟩
      by_contra hne
      obtain ⟨v, y, hy, _⟩ := hx.undoPrune hne
      simp [perform, hy, Except.map] at h
  | retire =>
      refine .inr (.inr ⟨rfl, ?_⟩)
      cases hpop : x.tried.pop? with
      | none => rfl
      | some c => simp [perform, Variable.retire, hpop] at h
  | commit =>
      obtain ⟨b, y, hy, _⟩ := hx.commitMarks
      simp [perform, hy, Except.map] at h
  | undoMark =>
      refine .inr (.inl ⟨rfl, ?_⟩)
      by_contra hne
      obtain ⟨batch, y, hy, _⟩ := hx.undoMark hne
      simp [perform, hy, Except.map] at h
  | assign _ => cases h
  | unassign => cases h
  | mark _ => cases h
  | reset => cases h

/-- An operation that leaves domain, marks and gathered values alone. -/
theorem Performs.of_divided (hy : y.Divided d) (hdomain : y.domain = x.domain)
    (hmarked : y.marked = x.marked) (hpending : y.pending = x.pending)
    (ho : o ≠ .commit) : Performs d o x y where
  divided := hy
  domain _ hv := .inl (hdomain ▸ hv)
  marked _ hv := .inl (hmarked ▸ hv)
  pending _ hv := .inl (hpending ▸ hv)
  committed h := absurd h ho

/-- Each operation that succeeds on a divided variable does what is said of it,
and leaves the variable divided. -/
theorem Divided.performs (hx : x.Divided d) (h : x.perform o = .ok y) :
    Performs d o x y := by
  cases o with
  | prune v =>
      obtain ⟨b, z, hz, hdivided, hmarked, hpending, hdomain⟩ := hx.prune v
      simp only [perform, hz, Except.map, Except.ok.injEq] at h
      subst h
      refine ⟨hdivided, ?_, ?_, ?_, by simp⟩
      · intro w hw
        by_cases hout : v ∈ x.live ∧ w = v
        · exact .inr ⟨by rw [hout.2], hout.2 ▸ hout.1⟩
        · exact .inl ((hdomain w).mpr ⟨hw, fun hv he => hout ⟨hv, he⟩⟩)
      · exact fun w hw => .inl (hmarked ▸ hw)
      · exact fun w hw => .inl (hpending ▸ hw)
  | undoPrune =>
      by_cases hne : x.pruned.batches = []
      · simp [perform, Variable.undoPrune, Exclusion.Stack.pop?, hne,
          Except.map] at h
      obtain ⟨v, z, hz, hdivided, hmarked, hpending, hdomain⟩ :=
        hx.undoPrune hne
      simp only [perform, hz, Except.map, Except.ok.injEq] at h
      subst h
      refine ⟨hdivided, ?_, ?_, ?_, by simp⟩
      · exact fun w hw => .inl (hdomain w hw)
      · exact fun w hw => .inl (hmarked ▸ hw)
      · exact fun w hw => .inl (hpending ▸ hw)
  | assign _ =>
      cases h
      exact .of_divided { hx with } rfl rfl rfl (by simp)
  | unassign =>
      cases h
      exact .of_divided { hx with } rfl rfl rfl (by simp)
  | retire =>
      rw [perform, Variable.retire] at h
      split at h
      · cases h
      · cases h
        exact .of_divided { hx with } rfl rfl rfl (by simp)
  | mark supported =>
      cases h
      obtain ⟨hdivided, hpending⟩ := hx.markUnsupported supported
      refine ⟨hdivided, fun v hv => .inl hv, fun v hv => .inl hv, ?_, by simp⟩
      exact fun v hv => (hpending v hv).imp_right fun hlive =>
        (mem_live.mp hlive).1
  | commit =>
      obtain ⟨b, z, hz, hdivided, hdomain, hpending, hmarked⟩ := hx.commitMarks
      simp only [perform, hz, Except.map, Except.ok.injEq] at h
      subst h
      refine ⟨hdivided, ?_, ?_, ?_,
        fun _ => ⟨hdomain, fun v hv => (hmarked v).mpr (.inl hv)⟩⟩
      · exact fun v hv => .inl (hdomain ▸ hv)
      · exact fun v hv => ((hmarked v).mp hv).symm.imp_right fun hv => ⟨rfl, hv⟩
      · intro v hv
        simp [hpending] at hv
  | undoMark =>
      by_cases hne : x.marked.batches = []
      · simp [perform, Variable.undoMark, Exclusion.Stack.pop?, hne, Except.map]
          at h
      obtain ⟨batch, z, hz, hdivided, hdomain, hpending, hmarked⟩ :=
        hx.undoMark hne
      simp only [perform, hz, Except.map, Except.ok.injEq] at h
      subst h
      refine ⟨hdivided, ?_, ?_, ?_, by simp⟩
      · exact fun v hv => .inl (hdomain ▸ hv)
      · exact fun v hv => .inl (hmarked v hv)
      · exact fun v hv => .inl (hpending ▸ hv)
  | reset =>
      cases h
      have hdivided := hx.reset
      refine ⟨hdivided, ?_, ?_, ?_, by simp⟩
      · intro v hv
        refine .inl ((hdivided.mem_domain v).mpr
          ⟨((hx.mem_domain v).mp hv).1, ?_⟩)
        simp [Variable.reset, new, fresh, Exclusion.Stack.empty]
      · intro v hv
        simp [Variable.reset, new, fresh, Exclusion.Stack.empty] at hv
      · intro v hv
        simp [Variable.reset, new, fresh] at hv

/-- A commit is what can bring a mark out of the domain. -/
theorem Performs.marksWithin (h : Performs d o x y) (hx : x.MarksWithin)
    (hcommit : o = .commit → x.WaitsWithin) : y.MarksWithin := by
  intro v hv
  rcases h.marked v hv with hv | ⟨ho, hv⟩
  · rcases h.domain v (hx v hv) with hy | ⟨_, hlive⟩
    · exact hy
    · exact absurd hv (mem_live.mp hlive).2
  · rw [(h.committed ho).1]
    exact hcommit ho v hv

/-- Where the marks lie in the domain after a commit, the gathered values did
before. -/
theorem Performs.waitsWithin_of_commit (h : Performs d .commit x y)
    (hy : y.MarksWithin) : x.WaitsWithin := by
  intro v hv
  obtain ⟨hdomain, hmarked⟩ := h.committed rfl
  rw [← hdomain]
  exact hy v (hmarked v hv)

/-- A prune is what can take a gathered value out of the domain. -/
theorem Performs.waitsWithin (h : Performs d o x y) (hx : x.WaitsWithin)
    (hprune : ∀ v, o = .prune v → v ∉ x.pending) : y.WaitsWithin := by
  intro v hv
  rcases h.pending v hv with hv | hv
  · rcases h.domain v (hx v hv) with hy | ⟨ho, _⟩
    · exact hy
    · exact absurd hv (hprune v ho)
  · exact hv

/-! ## The check -/

/-- Domain and pruned values are as many as the values at the start. -/
theorem Divided.size (hx : x.Divided d) :
    x.initial.size = x.domain.size + x.pruned.size := by
  have hnodup : ∀ e : Domain, e.toList.Nodup := fun e => e.values.nodup
  have hpruned : x.pruned.excluded.toList.Nodup :=
    Std.ExtTreeSet.distinct_toList.imp fun h he => h (by simp [he])
  have hperm :
      x.initial.toList.Perm (x.domain.toList ++ x.pruned.excluded.toList) := by
    rw [List.perm_ext_iff_of_nodup (hnodup _)
      (List.nodup_append.mpr ⟨hnodup _, hpruned, ?_⟩)]
    · intro v
      rw [List.mem_append,
        Std.ExtTreeSet.mem_toList, ← Domain.mem_def, ← Domain.mem_def,
        hx.mem_initial v, hx.mem_domain v]
      by_cases hv : v ∈ x.pruned.excluded
      · simp [hv, hx.pruned_initial v hv]
      · simp [hv]
    · rintro v hv w hw rfl
      exact ((hx.mem_domain v).mp hv).2 (Std.ExtTreeSet.mem_toList.mp hw)
  have hlength := hperm.length_eq
  rw [List.length_append, Std.ExtTreeSet.length_toList] at hlength
  exact hlength

/-- Of the checks of `isPartitioned`, that of the marks decides. -/
theorem Divided.isPartitioned_iff (hx : x.Divided d) :
    x.isPartitioned ↔ x.MarksWithin := by
  have hsize : x.pruned.size = x.initial.size - x.domain.size := by
    have := hx.size
    omega
  have hinitial : ∀ v ∈ x.pruned.excluded, v ∈ x.initial := fun v hv =>
    (hx.mem_initial v).mpr (hx.pruned_initial v hv)
  have hout : ∀ v ∈ x.pruned.excluded, v ∉ x.domain := fun v hv hv' =>
    ((hx.mem_domain v).mp hv').2 hv
  simp only [isPartitioned, MarksWithin, hsize, beq_self_eq_true, Bool.true_and,
    Bool.and_eq_true,
    List.all_eq_true, decide_eq_true_eq, Std.ExtTreeSet.mem_toList]
  exact ⟨fun h => h.2, fun h => ⟨⟨hinitial, hout⟩, h⟩⟩

/-! ## Runs of operations -/

/-- **Domain and pruned values stay the two parts** of the domain at the
start. -/
theorem Divided.throughout (hx : x.Divided d) (l : List Operation) :
    x.Throughout l (Divided d) :=
  .of_step hx fun _ _ _ _ _ hy _ hz => (hy.performs hz).divided

/-- Sequences of operations keep a variable divided, since each of them does. -/
theorem Divided.performAll (hx : x.Divided d) (h : x.performAll l = .ok y) :
    y.Divided d :=
  hx.throughout l l (List.prefix_refl l) y h

/-- Whatever was done to a variable, it is calm if no marks wait. -/
theorem IsDerived.calm (h : x.IsDerived) (hpending : x.pending = ∅) :
    x.Calm := by
  obtain ⟨id, d, l, hrun⟩ := h
  have hx : x.Divided d := (divided_fresh id d).performAll hrun
  exact ⟨hpending, fun v hv => ((hx.mem_domain v).mp hv).2⟩

/-- **The marks lie in the domain throughout** if each commit finds its values
there, and only then. -/
theorem Divided.marksWithin_iff (hx : x.Divided d) (hmarks : x.MarksWithin) :
    x.Throughout l MarksWithin ↔
    x.AtEach l fun o y => o = .commit → y.WaitsWithin := by
  constructor
  · rintro h front o hfront y hy rfl
    have hprefix : front <+: l := (List.prefix_append front _).trans hfront
    have hdivided : y.Divided d := hx.throughout l front hprefix y hy
    obtain ⟨b, z, hz, _⟩ := hdivided.commitMarks
    have hyz : y.perform .commit = .ok z := by rw [perform, hz]; rfl
    exact (hdivided.performs hyz).waitsWithin_of_commit
      (h _ hfront z (performAll_concat hy hyz))
  · intro h
    apply Throughout.of_step hmarks
    intro front o hfront y hy hwithin z hz
    have hprefix : front <+: l := (List.prefix_append front _).trans hfront
    exact ((hx.throughout l front hprefix y hy).performs hz).marksWithin hwithin
      (h front o hfront y hy)

/-- Values that no prune takes while they wait are in the domain when they are
committed. -/
theorem Divided.waitsWithin (hx : x.Divided d) (hwaits : x.WaitsWithin)
    (hprune : x.AtEach l fun o y => ∀ v, o = .prune v → v ∉ y.pending) :
    x.Throughout l WaitsWithin := by
  apply Throughout.of_step hwaits
  intro front o hfront y hy hwithin z hz
  have hprefix : front <+: l := (List.prefix_append front _).trans hfront
  exact ((hx.throughout l front hprefix y hy).performs hz).waitsWithin hwithin
    (hprune front o hfront y hy)

/-- **A variable is partitioned throughout if and only if each commit finds its
values in the domain.**  Domain and pruned values are the two parts of the
initial domain whatever is done, and an operation that fails had nothing to take
back.  Each commit finds its values if no prune takes one that waits. -/
theorem performAll_partitions (id : Nat) (d : Domain) (l : List Operation)
    (x : Variable) (h : (fresh id d).performAll l = .ok x) :
    (∀ v, v ∈ x.initial ↔ v ∈ d) ∧
    (∀ v, v ∈ d ↔ v ∈ x.domain ∨ v ∈ x.pruned.excluded) ∧
    (∀ v ∈ x.domain, v ∉ x.pruned.excluded) ∧
    (x.isPartitioned ↔ ∀ v ∈ x.marked.excluded, v ∈ x.domain) ∧
    ((fresh id d).Throughout l (fun y => y.isPartitioned) ↔
      (fresh id d).AtEach l fun o y =>
        o = .commit → ∀ v ∈ y.pending, v ∈ y.domain) ∧
    ((fresh id d).AtEach l (fun o y => ∀ v, o = .prune v → v ∉ y.pending) →
      (fresh id d).Throughout l fun y => y.isPartitioned) ∧
    (∀ o e, x.perform o = .error e →
      o = .undoPrune ∧ x.pruned.batches = [] ∨
        o = .undoMark ∧ x.marked.batches = [] ∨
        o = .retire ∧ x.tried.pop? = none) := by
  have hstart : (fresh id d).Divided d := divided_fresh id d
  have hmarks : (fresh id d).MarksWithin := fun v hv => by
    simp [fresh, Exclusion.Stack.empty] at hv
  have hwaits : (fresh id d).WaitsWithin := fun v hv => by simp [fresh] at hv
  have hx : x.Divided d := hstart.performAll h
  have hpartitioned : (fresh id d).Throughout l (fun y => y.isPartitioned) ↔
      (fresh id d).Throughout l MarksWithin :=
    forall₄_congr fun front hfront y hy =>
      (hstart.throughout l front hfront y hy).isPartitioned_iff
  refine ⟨hx.mem_initial, ?_, fun v hv => ((hx.mem_domain v).mp hv).2,
    hx.isPartitioned_iff,
    hpartitioned.trans (hstart.marksWithin_iff hmarks), ?_,
    fun o e he => hx.fails he⟩
  · intro v
    rw [hx.mem_domain v]
    by_cases hv : v ∈ x.pruned.excluded
    · simp [hv, hx.pruned_initial v hv]
    · simp [hv]
  · intro hprune
    apply hpartitioned.mpr
    apply (hstart.marksWithin_iff hmarks).mpr
    intro front o hfront y hy _
    have hprefix : front <+: l := (List.prefix_append front _).trans hfront
    exact hstart.waitsWithin hwaits hprune front hprefix y hy

/-- A case in which a prune takes a value whose mark waits: in the end `1` is
pruned and marked. -/
theorem performAll_partitions_of_three :
    let start := fresh 0 (.ofList [1, 2, 3])
    let l : List Operation := [.mark fun v => decide (v = 3), .prune 1, .commit]
    ∃ x, start.performAll l = .ok x ∧ 1 ∈ x.pruned.excluded ∧
      1 ∈ x.marked.excluded ∧
      (∀ v, v ∈ x.initial ↔ v ∈ Domain.ofList [1, 2, 3]) ∧
      (∀ v, v ∈ Domain.ofList [1, 2, 3] ↔
        v ∈ x.domain ∨ v ∈ x.pruned.excluded) ∧
      (∀ v ∈ x.domain, v ∉ x.pruned.excluded) ∧
      (x.isPartitioned ↔ ∀ v ∈ x.marked.excluded, v ∈ x.domain) ∧
      (start.Throughout l (fun y => y.isPartitioned) ↔
        start.AtEach l fun o y => o = .commit → ∀ v ∈ y.pending, v ∈ y.domain) ∧
      (start.AtEach l (fun o y => ∀ v, o = .prune v → v ∉ y.pending) →
        start.Throughout l fun y => y.isPartitioned) ∧
      (∀ o e, x.perform o = .error e →
        o = .undoPrune ∧ x.pruned.batches = [] ∨
          o = .undoMark ∧ x.marked.batches = [] ∨
          o = .retire ∧ x.tried.pop? = none) := by
  intro start l
  obtain ⟨x, hrun, hpruned, hmarked⟩ : ∃ x, start.performAll l = .ok x ∧
      1 ∈ x.pruned.excluded ∧ 1 ∈ x.marked.excluded :=
    ⟨_, rfl, by decide +kernel, by decide +kernel⟩
  exact ⟨x, hrun, hpruned, hmarked,
    performAll_partitions 0 (.ofList [1, 2, 3]) l x hrun⟩

end ConstraintNet.Variable
