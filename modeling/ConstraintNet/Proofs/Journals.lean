import ConstraintNet.Proofs.Entry
import ConstraintNet.Proofs.Runs

/-!
# The journal of a search

`Makes` says which calls a strategy makes, and `Explores` which branches they
decide.  Both are read off the equations of the search.  Here the search itself
is asked: it is run so that it writes down what it does at the moment of doing
it.

A call writes itself down before anything else.  A branch is written down once
propagation has told whether its decision stands, and then there are two ways
on: the call below, or a backtrack that is counted without one.  A call that
runs dry, being offered no value of the variable named, counts a backtrack as
well.  What was written stays if a fault ends the run.

* `result_keep`, `Algorithm.result_keep` — keeping a journal changes nothing of
  what is done;
* `mem_keep` — the journal of a call holds the calls that it reaches and the
  branches that these explore, and nothing else;
* `opens` — after the first call, one is made for each branch that stands, and
  at once;
* `counts_of_keep` — as many nodes are counted as calls were made, and as many
  backtracks as branches did not stand and calls ran dry;
* `Algorithm.keeps_journal` — all this of a strategy, with `Makes` for the
  calls.
-/

namespace ConstraintNet

/-! ## Computations that keep a journal -/

/-- What a computation wrote down and what it came to. -/
structure Journaled (ε α : Type) where
  journal : List ε
  result : Except Fault α

namespace Journaled

variable {ε α β : Type} {e : ε}

/-- Writes down one event. -/
def write (e : ε) : Journaled ε Unit := ⟨[e], .ok ()⟩

/-- A computation that writes nothing down. -/
def quietly (r : Except Fault α) : Journaled ε α := ⟨[], r⟩

/-- The second computation goes on in the journal of the first, unless a fault
ended that. -/
instance : Monad (Journaled ε) where
  pure a := quietly (.ok a)
  bind x f := match x.result with
    | .error fault => ⟨x.journal, .error fault⟩
    | .ok a => ⟨x.journal ++ (f a).journal, (f a).result⟩

@[simp] theorem result_write : (write e).result = .ok () := rfl

@[simp] theorem result_quietly (r : Except Fault α) :
    (quietly r : Journaled ε α).result = r := rfl

@[simp] theorem journal_write : (write e).journal = [e] := rfl

@[simp] theorem journal_quietly (r : Except Fault α) :
    (quietly r : Journaled ε α).journal = [] := rfl

@[simp] theorem result_pure (a : α) : (pure a : Journaled ε α).result = .ok a :=
  rfl

@[simp] theorem journal_pure (a : α) : (pure a : Journaled ε α).journal = [] :=
  rfl

/-- The results go on from one another as they do without a journal. -/
@[simp] theorem result_bind (x : Journaled ε α) (f : α → Journaled ε β) :
    (x >>= f).result = x.result >>= fun a => (f a).result := by
  show (match x.result with
    | .error fault => (⟨x.journal, .error fault⟩ : Journaled ε β)
    | .ok a => ⟨x.journal ++ (f a).journal, (f a).result⟩).result = _
  cases x.result <;> rfl

/-- After a first computation that ends well, the second goes on in its
journal. -/
theorem journal_bind {x : Journaled ε α} {a : α} (h : x.result = .ok a)
    (f : α → Journaled ε β) :
    (x >>= f).journal = x.journal ++ (f a).journal := by
  show (match x.result with
    | .error fault => (⟨x.journal, .error fault⟩ : Journaled ε β)
    | .ok a => ⟨x.journal ++ (f a).journal, (f a).result⟩).journal = _
  rw [h]

/-- After one that a fault ended, nothing more is written down. -/
theorem journal_bind_of_error {x : Journaled ε α} {fault : Fault}
    (h : x.result = .error fault) (f : α → Journaled ε β) :
    (x >>= f).journal = x.journal := by
  show (match x.result with
    | .error fault => (⟨x.journal, .error fault⟩ : Journaled ε β)
    | .ok a => ⟨x.journal ++ (f a).journal, (f a).result⟩).journal = _
  rw [h]

/-- An event of both is one of the first, or of the second if the first ended
well. -/
@[simp] theorem mem_journal_bind {x : Journaled ε α} {f : α → Journaled ε β} :
    e ∈ (x >>= f).journal ↔ e ∈ x.journal ∨
    ∃ a, x.result = .ok a ∧ e ∈ (f a).journal := by
  cases hx : x.result with
  | ok a => simp [journal_bind hx]
  | error fault => simp [journal_bind_of_error hx]

end Journaled

open Journaled

/-- What a search writes down. -/
inductive Event (σ : Type)
  /-- A call is made. -/
  | call (c : Call σ)
  /-- A branch of a call is decided.  If the decision stands, the call below is
  made next. -/
  | branch (c : Call σ) (d : Decision) (ok : Bool) (below : Call σ)
  /-- A call is offered no value of the variable named. -/
  | dry (c : Call σ)

namespace Event

variable {σ : Type}

/-- The call that is made. -/
def made? : Event σ → Option (Call σ)
  | call c => some c
  | _ => none

/-- The call that a branch leads to whose decision stands. -/
def entered? : Event σ → Option (Call σ)
  | branch _ _ true below => some below
  | _ => none

/-- Whether a backtrack is counted: for a branch that does not stand and for a
call that runs dry. -/
def isBacktrack : Event σ → Bool
  | call _ => false
  | branch _ _ ok _ => !ok
  | dry _ => true

end Event

namespace Branching

variable {σ : Type} {b : Branching σ} {c c₀ : Call σ} {d : Decision}
  {e : Event σ} {depth i : Nat} {v : Int} {g g' : σ} {s t : Search}
  {entry : Checkpoint} {flow : Flow}
  {below : σ → Search → Journaled (Event σ) (Flow × σ × Search)}

/-! ## A search that keeps a journal -/

/-- Goes on below a branch, as `descend` does, once the branch is written
down. -/
def keepDescend (c : Call σ) (d : Decision) (depth : Nat)
    (below : σ → Search → Journaled (Event σ) (Flow × σ × Search)) (g : σ)
    (ok : Bool) (s : Search) : Journaled (Event σ) (Flow × σ × Search) := do
  write (.branch c d ok ⟨depth, g, s⟩)
  if ok then below g s else quietly (.ok (.goOn, g, s.backtrack))

/-- The left branch. -/
def keepLeft (b : Branching σ) (c : Call σ) (depth : Nat)
    (below : σ → Search → Journaled (Event σ) (Flow × σ × Search)) (i : Nat)
    (v : Int) (g : σ) (entry : Checkpoint) (s : Search) :
    Journaled (Event σ) (Flow × σ × Search) := do
  let (consistent, s) ← quietly (b.accept i v s)
  let (flow, g, s) ← keepDescend c (.accept i v) depth below g consistent s
  let s ← quietly (s.rewind entry)
  return (flow, g, ← quietly (s.unassign i))

/-- The right branch. -/
def keepRight (b : Branching σ) (c : Call σ) (depth : Nat)
    (below : σ → Search → Journaled (Event σ) (Flow × σ × Search)) (i : Nat)
    (v : Int) (g : σ) (entry : Checkpoint) (s : Search) :
    Journaled (Event σ) (Flow × σ × Search) := do
  let (consistent, s) ← quietly (b.refute i v s)
  let (flow, g, s) ← keepDescend c (.refute i v) depth below g consistent s
  return (flow, g, ← quietly (s.rewind entry))

/-- The end of a node that branched: the choice is retired, and the trail must
be back. -/
def keepRetire (i : Nat) (entry : Checkpoint) (flow : Flow) (g : σ)
    (s : Search) : Journaled (Event σ) (Flow × σ × Search) := do
  let s ← quietly (s.retire i)
  if s.trail.checkpoint = entry then return (flow, g, s)
  else quietly (.error (.unbalanced i entry s.trail.checkpoint))

/-- Both branches, the right one only if the search goes on. -/
def keepBranch (b : Branching σ) (c : Call σ) (depth : Nat)
    (below : σ → Search → Journaled (Event σ) (Flow × σ × Search)) (i : Nat)
    (v : Int) (g : σ) (entry : Checkpoint) (s : Search) :
    Journaled (Event σ) (Flow × σ × Search) := do
  let (flow, g, s) ← b.keepLeft c depth below i v g entry s
  let (flow, g, s) ← match flow with
    | .stop => pure (.stop, g, s)
    | .goOn => b.keepRight c depth below i v g s.trail.checkpoint s
  keepRetire i entry flow g s

/-- Searches below a node and keeps a journal of it. -/
def keep (b : Branching σ) :
    Nat → σ → Search → Journaled (Event σ) (Flow × σ × Search)
  | 0, g, s => do
    write (.call ⟨0, g, s⟩)
    quietly (.error .tooDeep)
  | depth + 1, g, s => do
    let c : Call σ := ⟨depth + 1, g, s⟩
    write (.call c)
    let s := s.node
    if s.arena.isComplete then
      let (flow, s) ← quietly (s.record b.propagator.network b.limit)
      return (flow, g, s)
    match b.selector s.arena b.propagator.network g with
    | (none, g) => return (.goOn, g, s)
    | (some i, g) =>
      match b.valueOrder.select (← quietly (s.arena.read i)) with
      | none =>
        write (.dry c)
        return (.goOn, g, s.backtrack)
      | some v => b.keepBranch c depth (b.keep depth) i v g s.trail.checkpoint s

/-! ## What is done -/

/-- Without its journal, going on below a branch is `descend`. -/
theorem result_keepDescend (ok : Bool) :
    (keepDescend c d depth below g ok s).result =
      descend (fun g s => (below g s).result) g ok s := by
  rw [keepDescend, descend, result_bind]
  cases ok <;> rfl

/-- Without its journal, the left branch is `left`. -/
theorem result_keepLeft :
    (b.keepLeft c depth below i v g entry s).result =
      b.left (fun g s => (below g s).result) i v g entry s := by
  rw [left_eq]
  simp only [keepLeft, result_bind, result_quietly, result_keepDescend,
    result_pure]
  rfl

/-- Without its journal, the right branch is `right`. -/
theorem result_keepRight :
    (b.keepRight c depth below i v g entry s).result =
      b.right (fun g s => (below g s).result) i v g entry s := by
  simp only [right, keepRight, result_bind, result_quietly, result_keepDescend,
    result_pure]
  rfl

/-- Without its journal, the end of a branching forgets the tried value and
compares the trail with the checkpoint. -/
theorem result_keepRetire :
    (keepRetire i entry flow g s).result = (do
      let s ← s.retire i
      if s.trail.checkpoint = entry then return (flow, g, s)
      else throw (.unbalanced i entry s.trail.checkpoint)) := by
  rw [keepRetire, result_bind, result_quietly]
  refine bind_congr fun s => ?_
  split <;> rfl

/-- Without their journal, both branches are `branch`. -/
theorem result_keepBranch :
    (b.keepBranch c depth below i v g entry s).result =
      b.branch (fun g s => (below g s).result) i v g entry s := by
  rw [keepBranch, branch, result_bind, result_keepLeft]
  refine bind_congr fun p => ?_
  obtain ⟨flow, g, s⟩ := p
  cases flow with
  | stop =>
      rw [result_bind, result_pure]
      exact bind_congr fun _ => result_keepRetire
  | goOn =>
      rw [result_bind, result_keepRight]
      exact bind_congr fun _ => result_keepRetire

/-- **Keeping a journal changes nothing of what a search does.** -/
theorem result_keep : (b.keep depth g s).result = b.search depth g s := by
  induction depth generalizing g s with
  | zero => rfl
  | succ depth ih =>
      have hbelow : (fun g s => (b.keep depth g s).result) =
          b.search depth := by
        funext g s
        exact ih
      rw [keep, search]
      simp only [result_bind, result_write]
      cases hcomplete : s.node.arena.isComplete with
      | true =>
          simp only [if_true, result_bind, result_quietly, result_pure]
          rfl
      | false =>
          simp only [Bool.false_eq_true, if_false]
          rcases b.selector s.node.arena b.propagator.network g with ⟨_ | i, g⟩
          · rfl
          · simp only [result_bind, result_quietly]
            change (s.node.arena.read i >>= _) = s.node.arena.read i >>= _
            refine bind_congr fun x => ?_
            cases b.valueOrder.select x with
            | none => rfl
            | some v =>
                rw [← hbelow]
                exact result_keepBranch

/-- So a branch may take the one for the other below it. -/
theorem result_keep_below :
    (fun g s => (b.keep depth g s).result) = b.search depth :=
  funext₂ fun _ _ => result_keep

/-! ## What is written down -/

/-- Below a branch stands the branch itself, and what the call below writes if
it is made. -/
theorem mem_keepDescend {ok : Bool} :
    e ∈ (keepDescend c d depth below g ok s).journal ↔
      e = .branch c d ok ⟨depth, g, s⟩ ∨
      ok = true ∧ e ∈ (below g s).journal := by
  cases ok <;> simp [keepDescend]

/-- On the left branch something is written only once propagation has come to an
answer. -/
theorem mem_keepLeft :
    e ∈ (b.keepLeft c depth below i v g entry s).journal ↔
    ∃ ok t, b.accept i v s = .ok (ok, t) ∧
      (e = .branch c (.accept i v) ok ⟨depth, g, t⟩ ∨
        ok = true ∧ e ∈ (below g t).journal) := by
  simp [keepLeft, mem_keepDescend]

/-- On the right branch, likewise. -/
theorem mem_keepRight :
    e ∈ (b.keepRight c depth below i v g entry s).journal ↔
    ∃ ok t, b.refute i v s = .ok (ok, t) ∧
      (e = .branch c (.refute i v) ok ⟨depth, g, t⟩ ∨
        ok = true ∧ e ∈ (below g t).journal) := by
  simp [keepRight, mem_keepDescend]

/-- Leaving a node writes nothing down. -/
theorem journal_keepRetire : (keepRetire i entry flow g s).journal = [] := by
  refine List.eq_nil_iff_forall_not_mem.mpr fun e he => ?_
  rw [keepRetire, mem_journal_bind] at he
  obtain he | ⟨s, _, he⟩ := he
  · exact List.not_mem_nil he
  · split at he <;> exact List.not_mem_nil he

/-- The right branch writes something down only if the left one ended with the
search going on. -/
theorem mem_keepBranch :
    e ∈ (b.keepBranch c depth below i v g entry s).journal ↔
      e ∈ (b.keepLeft c depth below i v g entry s).journal ∨
        ∃ g' r, (b.keepLeft c depth below i v g entry s).result =
            .ok (.goOn, g', r) ∧
          e ∈ (b.keepRight c depth below i v g' r.trail.checkpoint
            r).journal := by
  rw [keepBranch, mem_journal_bind]
  refine or_congr Iff.rfl ?_
  constructor
  · rintro ⟨⟨flow, g', r⟩, hleft, he⟩
    cases flow with
    | stop => simp [journal_keepRetire] at he
    | goOn =>
        simp only [mem_journal_bind, journal_keepRetire, List.not_mem_nil,
          and_false, exists_false, or_false] at he
        exact ⟨g', r, hleft, he⟩
  · rintro ⟨g', r, hleft, he⟩
    exact ⟨_, hleft, mem_journal_bind.mpr (.inl he)⟩

/-- What a call does itself: it is made, decides branches, or runs dry. -/
inductive Does (b : Branching σ) (c : Call σ) : Event σ → Prop
  | call : Does b c (.call c)
  | branch {d : Decision} {ok : Bool} {c' : Call σ} (h : b.Explores c d ok c') :
      Does b c (.branch c d ok c')
  | dry (hdeep : 0 < c.depth) (h : b.RunsDry c) : Does b c (.dry c)

/-- What should stand in the journal of a call: what it does and what the calls
below it do. -/
def Notes (b : Branching σ) (c₀ : Call σ) (e : Event σ) : Prop :=
  ∃ c, b.Reaches c₀ c ∧ b.Does c e

/-- A call that may go no deeper is made, and that is all. -/
theorem notes_zero : b.Notes ⟨0, g, s⟩ e ↔ e = .call ⟨0, g, s⟩ := by
  constructor
  · rintro ⟨c, hreaches, hdoes⟩
    obtain rfl : (⟨0, g, s⟩ : Call σ) = c := by
      rcases Relation.ReflTransGen.cases_head hreaches with
        heq | ⟨c', henters, _⟩
      · exact heq
      · cases henters
    cases hdoes with
    | call => rfl
    | branch hexplores => cases hexplores
    | dry hdeep => exact absurd hdeep (Nat.lt_irrefl 0)
  · rintro rfl
    exact ⟨_, .refl, .call⟩

/-- A call that does not branch is made, and may run dry. -/
theorem notes_of_not_picks (h : ∀ i v g', ¬ b.Picks ⟨depth + 1, g, s⟩ i v g') :
    b.Notes ⟨depth + 1, g, s⟩ e ↔ e = .call ⟨depth + 1, g, s⟩ ∨
      e = .dry ⟨depth + 1, g, s⟩ ∧ b.RunsDry ⟨depth + 1, g, s⟩ := by
  simp only [Notes, reaches_of_not_picks h, exists_eq_left]
  constructor
  · rintro (_ | hexplores | ⟨_, hdry⟩)
    · exact .inl rfl
    · cases hexplores with
      | left hpicks => exact absurd hpicks (h _ _ _)
      | right hpicks => exact absurd hpicks (h _ _ _)
    · exact .inr ⟨rfl, hdry⟩
  · rintro (rfl | ⟨rfl, hdry⟩)
    · exact .call
    · exact .dry (Nat.succ_pos depth) hdry

/-- A call that branches does not run dry. -/
theorem Picks.not_runsDry (h : b.Picks c i v g) : ¬ b.RunsDry c := by
  rintro ⟨_, i', g', x, hselected, hx, hnone⟩
  have hsame := h.selected.symm.trans hselected
  cases hsame
  obtain ⟨y, hy, hv⟩ := h.offered
  rw [Arena.read_unique hy hx, hnone] at hv
  cases hv

/-- A call that branches is made, and decides its left branch and, if the search
goes on, its right one. -/
theorem does_of_picks (h : b.Picks ⟨depth + 1, g, s⟩ i v g') :
    b.Does ⟨depth + 1, g, s⟩ e ↔ e = .call ⟨depth + 1, g, s⟩ ∨
      (∃ ok t, b.accept i v s.node = .ok (ok, t) ∧
        e = .branch ⟨depth + 1, g, s⟩ (.accept i v) ok ⟨depth, g', t⟩) ∨
      ∃ g'' r ok t,
        b.left (b.search depth) i v g' s.node.trail.checkpoint s.node =
          .ok (.goOn, g'', r) ∧ b.refute i v r = .ok (ok, t) ∧
        e = .branch ⟨depth + 1, g, s⟩ (.refute i v) ok ⟨depth, g'', t⟩ := by
  constructor
  · rintro (_ | hexplores | ⟨_, hdry⟩)
    · exact .inl rfl
    · cases hexplores with
      | left hpicks haccept =>
          obtain ⟨rfl, rfl, rfl⟩ := h.unique hpicks
          exact .inr (.inl ⟨_, _, haccept, rfl⟩)
      | right hpicks hleft hrefute =>
          obtain ⟨rfl, rfl, rfl⟩ := h.unique hpicks
          exact .inr (.inr ⟨_, _, _, _, hleft, hrefute, rfl⟩)
    · exact absurd hdry h.not_runsDry
  · rintro (rfl | ⟨ok, t, haccept, rfl⟩ | ⟨g'', r, ok, t, hleft, hrefute, rfl⟩)
    · exact .call
    · exact .branch (.left h haccept)
    · exact .branch (.right h hleft hrefute)

/-- Its journal holds this, and what stands in the journals of the calls that it
makes. -/
theorem notes_of_picks (h : b.Picks ⟨depth + 1, g, s⟩ i v g') :
    b.Notes ⟨depth + 1, g, s⟩ e ↔ b.Does ⟨depth + 1, g, s⟩ e ∨
      (∃ t, b.accept i v s.node = .ok (true, t) ∧ b.Notes ⟨depth, g', t⟩ e) ∨
      ∃ g'' r t, b.left (b.search depth) i v g' s.node.trail.checkpoint s.node =
          .ok (.goOn, g'', r) ∧ b.refute i v r = .ok (true, t) ∧
          b.Notes ⟨depth, g'', t⟩ e := by
  simp only [Notes, reaches_of_picks h]
  constructor
  · rintro ⟨c, rfl | ⟨t, haccept, hreaches⟩ |
      ⟨g'', r, t, hleft, hrefute, hreaches⟩, hdoes⟩
    · exact .inl hdoes
    · exact .inr (.inl ⟨t, haccept, c, hreaches, hdoes⟩)
    · exact .inr (.inr ⟨g'', r, t, hleft, hrefute, c, hreaches, hdoes⟩)
  · rintro (hdoes | ⟨t, haccept, c, hreaches, hdoes⟩ |
      ⟨g'', r, t, hleft, hrefute, c, hreaches, hdoes⟩)
    · exact ⟨_, .inl rfl, hdoes⟩
    · exact ⟨c, .inr (.inl ⟨t, haccept, hreaches⟩), hdoes⟩
    · exact ⟨c, .inr (.inr ⟨g'', r, t, hleft, hrefute, hreaches⟩), hdoes⟩

/-- What a node writes down that branches, if its calls write down what they
should. -/
theorem mem_keepBranch_of_picks (h : b.Picks ⟨depth + 1, g, s⟩ i v g')
    (ih : ∀ {g s e}, e ∈ (b.keep depth g s).journal ↔ b.Notes ⟨depth, g, s⟩ e) :
    e = .call ⟨depth + 1, g, s⟩ ∨
        e ∈ (b.keepBranch ⟨depth + 1, g, s⟩ depth (b.keep depth) i v g'
          s.node.trail.checkpoint s.node).journal ↔
      b.Notes ⟨depth + 1, g, s⟩ e := by
  rw [notes_of_picks h, does_of_picks h, mem_keepBranch, mem_keepLeft,
    result_keepLeft, result_keep_below]
  simp only [mem_keepRight, ih]
  constructor
  · rintro (hcall | ⟨ok, t, haccept, hbranch | ⟨rfl, hnotes⟩⟩ |
      ⟨g'', r, hleft, ok, t, hrefute, hbranch | ⟨rfl, hnotes⟩⟩)
    · exact .inl (.inl hcall)
    · exact .inl (.inr (.inl ⟨ok, t, haccept, hbranch⟩))
    · exact .inr (.inl ⟨t, haccept, hnotes⟩)
    · exact .inl (.inr (.inr ⟨g'', r, ok, t, hleft, hrefute, hbranch⟩))
    · exact .inr (.inr ⟨g'', r, t, hleft, hrefute, hnotes⟩)
  · rintro ((hcall | ⟨ok, t, haccept, hbranch⟩ | ⟨g'', r, ok, t, hleft, hrefute,
      hbranch⟩) | ⟨t, haccept, hnotes⟩ | ⟨g'', r, t, hleft, hrefute, hnotes⟩)
    · exact .inl hcall
    · exact .inr (.inl ⟨ok, t, haccept, .inl hbranch⟩)
    · exact .inr (.inr ⟨g'', r, hleft, ok, t, hrefute, .inl hbranch⟩)
    · exact .inr (.inl ⟨true, t, haccept, .inr ⟨rfl, hnotes⟩⟩)
    · exact .inr (.inr ⟨g'', r, hleft, true, t, hrefute, .inr ⟨rfl, hnotes⟩⟩)

/-- The five ways in which a call may go on that may go deeper. -/
inductive Goes (b : Branching σ) (depth : Nat) (g : σ) (s : Search) : Prop
  | complete (h : s.node.arena.isComplete = true)
  | unnamed {g' : σ} (h : s.node.arena.isComplete = false)
      (hselect : b.selector s.node.arena b.propagator.network g = (none, g'))
  | unread {i : Nat} {g' : σ} {fault : Fault}
      (h : s.node.arena.isComplete = false)
      (hselect : b.selector s.node.arena b.propagator.network g = (some i, g'))
      (hx : s.node.arena.read i = .error fault)
  | dry {i : Nat} {g' : σ} {x : Variable} (h : s.node.arena.isComplete = false)
      (hselect : b.selector s.node.arena b.propagator.network g = (some i, g'))
      (hx : s.node.arena.read i = .ok x) (hvalue : b.valueOrder.select x = none)
  | picks {i : Nat} {v : Int} {g' : σ} (h : b.Picks ⟨depth + 1, g, s⟩ i v g')

/-- Every call goes on in one of these ways. -/
theorem goes (b : Branching σ) (depth : Nat) (g : σ) (s : Search) :
    b.Goes depth g s := by
  cases hcomplete : s.node.arena.isComplete with
  | true => exact .complete hcomplete
  | false =>
      rcases hselect : b.selector s.node.arena b.propagator.network g with
        ⟨_ | i, g'⟩
      · exact .unnamed hcomplete hselect
      · cases hx : s.node.arena.read i with
        | error fault => exact .unread hcomplete hselect hx
        | ok x =>
            cases hvalue : b.valueOrder.select x with
            | none => exact .dry hcomplete hselect hx hvalue
            | some v => exact .picks ⟨hcomplete, hselect, x, hx, hvalue⟩

/-! Each of the five, seen in the journal. -/

/-- A call that finds every variable assigned is written down, whether or not
recording ends in a fault. -/
theorem keep_of_complete (h : s.node.arena.isComplete = true) :
    (b.keep (depth + 1) g s).journal = [.call ⟨depth + 1, g, s⟩] := by
  rw [keep, journal_bind rfl]
  simp only [h, if_true]
  rcases s.node.record b.propagator.network b.limit with
    fault | ⟨flow, t⟩ <;> rfl

/-- A call is written down that names no variable. -/
theorem keep_of_unnamed (h : s.node.arena.isComplete = false)
    (hselect : b.selector s.node.arena b.propagator.network g = (none, g')) :
    b.keep (depth + 1) g s = ⟨[.call ⟨depth + 1, g, s⟩],
      .ok (.goOn, g', s.node)⟩ := by
  rw [keep]
  simp only [h, hselect]
  rfl

/-- A call is written down that names a variable there is not. -/
theorem keep_of_unread {fault : Fault} (h : s.node.arena.isComplete = false)
    (hselect : b.selector s.node.arena b.propagator.network g = (some i, g'))
    (hx : s.node.arena.read i = .error fault) :
    b.keep (depth + 1) g s = ⟨[.call ⟨depth + 1, g, s⟩], .error fault⟩ := by
  rw [keep]
  simp only [h, hselect, hx]
  rfl

/-- A call that is offered no value writes that down too, and counts a
backtrack. -/
theorem keep_of_dry {x : Variable} (h : s.node.arena.isComplete = false)
    (hselect : b.selector s.node.arena b.propagator.network g = (some i, g'))
    (hx : s.node.arena.read i = .ok x) (hvalue : b.valueOrder.select x = none) :
    b.keep (depth + 1) g s = ⟨[.call ⟨depth + 1, g, s⟩, .dry ⟨depth + 1, g, s⟩],
      .ok (.goOn, g', s.node.backtrack)⟩ := by
  rw [keep]
  simp only [h, hselect, hx, Bool.false_eq_true, if_false, Bind.bind, quietly]
  simp only [hvalue]
  rfl

/-- A call that branches writes itself down before its branches. -/
theorem journal_of_picks (h : b.Picks ⟨depth + 1, g, s⟩ i v g') :
    (b.keep (depth + 1) g s).journal = .call ⟨depth + 1, g, s⟩ ::
      (b.keepBranch ⟨depth + 1, g, s⟩ depth (b.keep depth) i v g'
        s.node.trail.checkpoint s.node).journal := by
  obtain ⟨x, hx, hv⟩ := h.offered
  have hincomplete : s.node.arena.isComplete = false := h.incomplete
  have hselect : b.selector s.node.arena b.propagator.network g =
    (some i, g') := h.selected
  have hread : s.node.arena.read i = .ok x := hx
  rw [keep, journal_bind rfl]
  simp only [hincomplete, hselect, hread, Bool.false_eq_true, if_false]
  rw [journal_bind rfl]
  simp only [hv]
  rfl

/-- **The journal of a call holds what it should, and nothing else.** -/
theorem mem_keep :
    e ∈ (b.keep depth g s).journal ↔ b.Notes ⟨depth, g, s⟩ e := by
  induction depth generalizing g s e with
  | zero =>
      rw [notes_zero]
      simp [keep]
  | succ depth ih =>
      cases b.goes depth g s with
      | complete hcomplete =>
          have hnot : ∀ i v g', ¬ b.Picks ⟨depth + 1, g, s⟩ i v g' :=
            not_picks_of_isComplete hcomplete
          have hdry : ¬ b.RunsDry ⟨depth + 1, g, s⟩ := fun h =>
            Bool.false_ne_true (h.1.symm.trans hcomplete)
          rw [keep_of_complete hcomplete, notes_of_not_picks hnot]
          simp [hdry]
      | unnamed hincomplete hselect =>
          have hnot : ∀ i v g', ¬ b.Picks ⟨depth + 1, g, s⟩ i v g' :=
            fun i v g' h => by
              cases hselect.symm.trans h.selected
          have hdry : ¬ b.RunsDry ⟨depth + 1, g, s⟩ := by
            rintro ⟨_, i, g', x, h, _⟩
            cases hselect.symm.trans h
          rw [keep_of_unnamed hincomplete hselect, notes_of_not_picks hnot]
          simp [hdry]
      | unread hincomplete hselect hx =>
          have hnot : ∀ i v g', ¬ b.Picks ⟨depth + 1, g, s⟩ i v g' :=
            fun i v g' h => by
              cases hselect.symm.trans h.selected
              obtain ⟨x, h, _⟩ := h.offered
              cases hx.symm.trans h
          have hdry : ¬ b.RunsDry ⟨depth + 1, g, s⟩ := by
            rintro ⟨_, i, g', x, h, h', _⟩
            cases hselect.symm.trans h
            cases hx.symm.trans h'
          rw [keep_of_unread hincomplete hselect hx, notes_of_not_picks hnot]
          simp [hdry]
      | dry hincomplete hselect hx hvalue =>
          have hdry : b.RunsDry ⟨depth + 1, g, s⟩ :=
            ⟨hincomplete, _, _, _, hselect, hx, hvalue⟩
          rw [keep_of_dry hincomplete hselect hx hvalue,
            notes_of_not_picks fun _ _ _ h => h.not_runsDry hdry]
          simp [hdry]
      | picks hpicks =>
          rw [journal_of_picks hpicks, List.mem_cons,
            mem_keepBranch_of_picks hpicks ih]

/-! ## What follows what

Whether or not a fault ends the run, a branch that stands is followed at once by
the call that it leads to, and no call but the first is made without one. -/

/-- The calls made are those that branches lead to, one by one and in their
order. -/
def Matched (l : List (Event σ)) : Prop :=
  l.filterMap Event.made? = l.filterMap Event.entered?

/-- A journal that goes on from another is matched if both are. -/
theorem matched_bind {α β : Type} {x : Journaled (Event σ) α}
    {f : α → Journaled (Event σ) β} (hx : Matched x.journal)
    (hf : ∀ a, Matched (f a).journal) : Matched (x >>= f).journal := by
  cases hresult : x.result with
  | ok a =>
      rw [Matched] at hx ⊢
      rw [journal_bind hresult, List.filterMap_append,
        List.filterMap_append, hx, hf a]
  | error fault =>
      rw [journal_bind_of_error hresult]
      exact hx

/-- Nothing written, nothing to match. -/
theorem matched_quietly {α : Type} (r : Except Fault α) :
    Matched (quietly r : Journaled (Event σ) α).journal := rfl

/-- What is written below a node: the call itself, and then as many calls as
branches stand. -/
def Opens (b : Branching σ) (depth : Nat) : Prop :=
  ∀ g s, (b.keep depth g s).journal.filterMap Event.made? =
    ⟨depth, g, s⟩ :: (b.keep depth g s).journal.filterMap Event.entered?

/-- Below a branch that stands the call is made that it leads to, and below
another none. -/
theorem matched_keepDescend (h : b.Opens depth) (ok : Bool) :
    Matched (keepDescend c d depth (b.keep depth) g ok s).journal := by
  rw [keepDescend, journal_bind rfl]
  cases ok with
  | true => exact h g s
  | false => rfl

/-- The left branch writes down a matched journal if the calls below do as they
should. -/
theorem matched_keepLeft (h : b.Opens depth) :
    Matched (b.keepLeft c depth (b.keep depth) i v g entry s).journal :=
  matched_bind (matched_quietly _) fun p =>
    matched_bind (matched_keepDescend h p.1) fun _ =>
      matched_bind (matched_quietly _) fun _ =>
        matched_bind (matched_quietly _) fun _ => matched_quietly _

/-- So does the right branch. -/
theorem matched_keepRight (h : b.Opens depth) :
    Matched (b.keepRight c depth (b.keep depth) i v g entry s).journal :=
  matched_bind (matched_quietly _) fun p =>
    matched_bind (matched_keepDescend h p.1) fun _ =>
      matched_bind (matched_quietly _) fun _ => matched_quietly _

/-- So do both, whether or not the right one is taken. -/
theorem matched_keepBranch (h : b.Opens depth) :
    Matched (b.keepBranch c depth (b.keep depth) i v g entry s).journal := by
  refine matched_bind (matched_keepLeft h) fun ⟨flow, g, s⟩ => ?_
  have hretire : ∀ p : Flow × σ × Search,
      Matched (keepRetire i entry p.1 p.2.1 p.2.2).journal := fun p => by
    rw [journal_keepRetire]
    rfl
  cases flow with
  | stop => exact matched_bind (matched_quietly _) hretire
  | goOn => exact matched_bind (matched_keepRight h) hretire

/-- **Calls follow branches**: after the first, each call made is the one that
the latest branch leads to, and each branch that stands leads to one. -/
theorem opens : b.Opens depth := by
  induction depth with
  | zero => exact fun _ _ => rfl
  | succ depth ih =>
      intro g s
      cases b.goes depth g s with
      | complete hcomplete => rw [keep_of_complete hcomplete]; rfl
      | unnamed hincomplete hselect =>
          rw [keep_of_unnamed hincomplete hselect]; rfl
      | unread hincomplete hselect hx =>
          rw [keep_of_unread hincomplete hselect hx]; rfl
      | dry hincomplete hselect hx hvalue =>
          rw [keep_of_dry hincomplete hselect hx hvalue]; rfl
      | picks hpicks =>
          rw [journal_of_picks hpicks]
          exact congrArg (_ :: ·) (matched_keepBranch ih)

/-! ## What is counted -/

/-- From `s` to `t` the search counted a node for each call and a backtrack for
each branch that did not stand and each call that ran dry. -/
structure Accounts (l : List (Event σ)) (s t : Search) : Prop where
  nodes : t.tally.nodes = s.tally.nodes + (l.filterMap Event.made?).length
  backtracks : t.tally.backtracks =
    s.tally.backtracks + l.countP Event.isBacktrack

/-- What is counted on one way and then on another is what both journals
hold. -/
theorem Accounts.append {l l' : List (Event σ)} {r : Search}
    (h : Accounts l s r) (h' : Accounts l' r t) : Accounts (l ++ l') s t where
  nodes := by
    rw [h'.nodes, h.nodes, List.filterMap_append, List.length_append,
      Nat.add_assoc]
  backtracks := by rw [h'.backtracks, h.backtracks, List.countP_append,
    Nat.add_assoc]

/-- Drawing consequences counts neither nodes nor backtracks, so nothing need be
written down. -/
theorem accounts_of_draws (h : s.Draws t) :
    Accounts ([] : List (Event σ)) s t :=
  ⟨h.drawn.nodes, h.drawn.backtracks⟩

/-- Unless a fault ends a computation, its journal accounts for what was counted
since `s`. -/
def Tells {α : Type} (x : Journaled (Event σ) α) (s : Search)
    (out : α → Search) : Prop :=
  ∀ a, x.result = .ok a → Accounts x.journal s (out a)

/-- A journal that goes on from another accounts for both. -/
theorem tells_bind {α β : Type} {x : Journaled (Event σ) α}
    {f : α → Journaled (Event σ) β} {out : α → Search} {out' : β → Search}
    (hx : Tells x s out)
    (hf : ∀ a, x.result = .ok a → Tells (f a) (out a) out') :
    Tells (x >>= f) s out' := by
  intro c h
  rw [result_bind] at h
  obtain ⟨a, ha, hc⟩ := of_bind_eq_ok h
  rw [journal_bind ha]
  exact (hx a ha).append (hf a ha c hc)

/-- Nothing need be written down where nothing is counted. -/
theorem tells_quietly {α : Type} {r : Except Fault α} {out : α → Search}
    (h : ∀ a, r = .ok a → s.Draws (out a)) :
    Tells (quietly r : Journaled (Event σ) α) s out :=
  fun a ha => accounts_of_draws (h a ha)

/-- What does nothing counts nothing. -/
theorem tells_pure {α : Type} {a : α} {out : α → Search} (h : out a = s) :
    Tells (pure a : Journaled (Event σ) α) s out := by
  refine tells_quietly fun a' ha => ?_
  cases ha
  exact h ▸ .refl _

/-- Unless a fault ends a node or a branch, its journal accounts for what was
counted there. -/
abbrev TellsBelow (x : Journaled (Event σ) (Flow × σ × Search)) (s : Search) :
    Prop :=
  Tells x s fun p => p.2.2

/-- A branch that does not stand counts the backtrack that it wrote down. -/
theorem tells_keepDescend (ok : Bool)
    (hbelow : ∀ g s, TellsBelow (below g s) s) :
    TellsBelow (keepDescend c d depth below g ok s) s := by
  intro p h
  rw [keepDescend, result_bind] at h
  rw [keepDescend, journal_bind rfl]
  cases ok with
  | true =>
      have hbranch : Accounts [Event.branch c d true ⟨depth, g, s⟩] s s :=
        ⟨rfl, rfl⟩
      exact hbranch.append (hbelow g s p h)
  | false =>
      cases h
      exact ⟨rfl, rfl⟩

/-- The left branch counts what it wrote down, since undoing it counts
nothing. -/
theorem tells_keepLeft (hbelow : ∀ g s, TellsBelow (below g s) s) :
    TellsBelow (b.keepLeft c depth below i v g entry s) s := by
  refine tells_bind (tells_quietly fun _ => draws_accept) fun p _ => ?_
  refine tells_bind (tells_keepDescend p.1 hbelow) fun q _ => ?_
  refine tells_bind (tells_quietly fun _ h =>
    Search.draws_of_account (Search.account_rewind h)) fun r _ => ?_
  refine tells_bind (tells_quietly fun _ h =>
    Search.draws_of_account (Search.account_unassign h)) fun t _ => ?_
  exact tells_pure rfl

/-- So does the right branch. -/
theorem tells_keepRight (hbelow : ∀ g s, TellsBelow (below g s) s) :
    TellsBelow (b.keepRight c depth below i v g entry s) s := by
  refine tells_bind (tells_quietly fun _ => draws_refute) fun p _ => ?_
  refine tells_bind (tells_keepDescend p.1 hbelow) fun q _ => ?_
  refine tells_bind (tells_quietly fun _ h =>
    Search.draws_of_account (Search.account_rewind h)) fun t _ => ?_
  exact tells_pure rfl

/-- Leaving a node counts nothing. -/
theorem tells_keepRetire : TellsBelow (keepRetire i entry flow g s) s := by
  refine tells_bind (tells_quietly fun _ h =>
    Search.draws_of_account (Search.account_retire h)) fun t _ => ?_
  split
  · exact tells_pure rfl
  · exact tells_quietly fun _ h => nomatch h

/-- Both branches count what they wrote down. -/
theorem tells_keepBranch (hbelow : ∀ g s, TellsBelow (below g s) s) :
    TellsBelow (b.keepBranch c depth below i v g entry s) s := by
  refine tells_bind (tells_keepLeft hbelow) fun ⟨flow, g, r⟩ _ => ?_
  cases flow with
  | stop => exact tells_bind (tells_pure rfl) fun _ _ => tells_keepRetire
  | goOn =>
      exact tells_bind (tells_keepRight hbelow) fun _ _ => tells_keepRetire

/-- **What a search counts it wrote down**: a node for each call, a backtrack
for each branch that did not stand and each call that ran dry. -/
theorem counts_of_keep : TellsBelow (b.keep depth g s) s := by
  induction depth generalizing g s with
  | zero => exact fun _ h => nomatch h
  | succ depth ih =>
      rintro ⟨flow, g', t⟩ h
      have hcall : Accounts [Event.call ⟨depth + 1, g, s⟩] s s.node :=
        ⟨rfl, rfl⟩
      cases ends_of_search (result_keep.symm.trans h) with
      | recorded hcomplete hrecord =>
          rw [keep_of_complete hcomplete]
          have hkept : t.toWorkspace = s.node.toWorkspace :=
            (Search.of_record_eq_ok hrecord).1
          exact ⟨congrArg (·.tally.nodes) hkept,
            congrArg (·.tally.backtracks) hkept⟩
      | unnamed hincomplete hselect =>
          rw [keep_of_unnamed hincomplete hselect]
          exact hcall
      | exhausted hincomplete hselect hx hvalue =>
          rw [keep_of_dry hincomplete hselect hx hvalue]
          exact ⟨rfl, rfl⟩
      | branched hpicks hbranch =>
          rw [journal_of_picks hpicks]
          refine hcall.append
            (tells_keepBranch (fun _ _ => ih) (flow, g', t) ?_)
          rw [result_keepBranch, result_keep_below]
          exact hbranch

end Branching

/-! ## From the root -/

namespace Algorithm

open Branching

variable {σ : Type} {b : Branching σ} {m : Arena} {g : σ} {s : Search}
  {e : Event σ}

/-- Searches from the root, as `fromRoot` does, and keeps a journal of it. -/
def keepFromRoot (b : Branching σ) (g : σ) (s : Search) :
    Journaled (Event σ) (σ × Search) := do
  let (_, g, s) ← b.keep s.arena.depth g s
  return (g, s)

/-- What a strategy does before it ends its search, with a journal. -/
def keepExplore (algorithm : Algorithm) (b : Branching σ) (m : Arena) (g : σ) :
    Journaled (Event σ) (σ × Search) :=
  match algorithm with
  | .forwardChecking => keepFromRoot b g (.begin m)
  | .maintainArcConsistency => do
    let (consistent, s) ← quietly ((Search.begin m).propagateAll b.propagator)
    let (g, s) ← if consistent then keepFromRoot b g s else pure (g, s)
    return (g, ← quietly (s.rewind Trail.empty.checkpoint))

/-- Runs the strategy, as `solve` does, and keeps a journal of it. -/
def keep (algorithm : Algorithm) (selector : Selector σ)
    (valueOrder : ValueOrder) (limit : Limit) (net : Network) (m : Arena)
    (g : σ) : Journaled (Event σ) (Solved σ) := do
  let (g, s) ← algorithm.keepExplore
    (algorithm.branching selector valueOrder limit net) m g
  return ⟨← quietly s.finish, s.arena, g⟩

/-- Without its journal, the search from the root is `fromRoot`. -/
theorem result_keepFromRoot : (keepFromRoot b g s).result = fromRoot b g s := by
  rw [keepFromRoot, result_bind, result_keep, fromRoot]
  cases b.search s.arena.depth g s <;> rfl

/-- Without its journal, what a strategy does first is `explore`. -/
theorem result_keepExplore (algorithm : Algorithm) :
    (algorithm.keepExplore b m g).result = algorithm.explore b m g := by
  cases algorithm with
  | forwardChecking => exact result_keepFromRoot
  | maintainArcConsistency =>
      simp only [keepExplore, explore, result_bind, result_quietly]
      refine bind_congr fun p => ?_
      obtain ⟨consistent, s⟩ := p
      cases consistent with
      | true =>
          simp only [if_true, result_bind, result_keepFromRoot, result_quietly,
            result_pure]
          rfl
      | false =>
          simp only [Bool.false_eq_true, if_false, result_bind, result_quietly,
            result_pure]
          rfl

/-- **Keeping a journal changes nothing of what a strategy does.** -/
theorem result_keep (algorithm : Algorithm) (selector : Selector σ)
    (valueOrder : ValueOrder) (limit : Limit) (net : Network) (m : Arena)
    (g : σ) :
    (algorithm.keep selector valueOrder limit net m g).result =
      algorithm.solve selector valueOrder limit net m g := by
  rw [solve_eq, keep, result_bind, result_keepExplore]
  simp only [result_bind, result_quietly, result_pure]
  rfl

/-- Whatever is done after a search, it writes nothing down. -/
theorem journal_bind_of_quiet {α β : Type} {x : Journaled (Event σ) α}
    {f : α → Journaled (Event σ) β} (h : ∀ a, (f a).journal = []) :
    (x >>= f).journal = x.journal := by
  cases hresult : x.result with
  | ok a => rw [journal_bind hresult, h, List.append_nil]
  | error fault => rw [journal_bind_of_error hresult]

/-- The journal of a strategy is the journal of its first call, if it makes
one. -/
theorem journal_keepExplore_of_begins {algorithm : Algorithm} {r : Call σ}
    (h : Begins b m g algorithm r) :
    (algorithm.keepExplore b m g).journal =
      (b.keep r.depth r.state r.search).journal := by
  have hfromRoot : ∀ s, (keepFromRoot b g s).journal =
      (b.keep s.arena.depth g s).journal :=
    fun s => journal_bind_of_quiet fun _ => rfl
  cases h with
  | forwardChecking => exact hfromRoot _
  | @maintainArcConsistency s hroot =>
      have hquiet : (quietly ((Search.begin m).propagateAll b.propagator) :
          Journaled (Event σ) (Bool × Search)).result = .ok (true, s) := hroot
      rw [keepExplore, journal_bind hquiet]
      exact (journal_bind_of_quiet fun _ => journal_bind_of_quiet fun _ =>
        rfl).trans (hfromRoot s)

/-- A strategy that makes no call writes nothing down. -/
theorem journal_keepExplore_of_not_begins {algorithm : Algorithm}
    (h : ∀ r, ¬ Begins b m g algorithm r) :
    (algorithm.keepExplore b m g).journal = [] := by
  cases algorithm with
  | forwardChecking => exact absurd .forwardChecking (h _)
  | maintainArcConsistency =>
      cases hroot : (Search.begin m).propagateAll b.propagator with
      | error fault =>
          rw [keepExplore, hroot]
          rfl
      | ok p =>
          obtain ⟨ok, s⟩ := p
          cases ok with
          | true => exact absurd (.maintainArcConsistency hroot) (h _)
          | false =>
              have hquiet :
                  (quietly ((Search.begin m).propagateAll b.propagator) :
                    Journaled (Event σ) (Bool × Search)).result =
                  .ok (false, s) := hroot
              rw [keepExplore, journal_bind hquiet]
              exact journal_bind_of_quiet fun _ => rfl

/-- What stands in the journal of a strategy. -/
theorem mem_keepExplore {algorithm : Algorithm} :
    e ∈ (algorithm.keepExplore b m g).journal ↔
    ∃ c, algorithm.Makes b m g c ∧ b.Does c e := by
  by_cases hbegins : ∃ r, Begins b m g algorithm r
  · obtain ⟨r, hr⟩ := hbegins
    rw [journal_keepExplore_of_begins hr, mem_keep]
    simp only [Notes, makes_of_begins hr]
  · rw [not_exists] at hbegins
    rw [journal_keepExplore_of_not_begins hbegins]
    simp [Makes, hbegins]

/-- The calls written down are the calls of `Makes`. -/
theorem call_mem_keepExplore {algorithm : Algorithm} {c : Call σ} :
    .call c ∈ (algorithm.keepExplore b m g).journal ↔
    algorithm.Makes b m g c := by
  rw [mem_keepExplore]
  constructor
  · rintro ⟨_, hmakes, _ | _ | _⟩
    exact hmakes
  · exact fun hmakes => ⟨c, hmakes, .call⟩

/-- The branches written down are those of `Explores` at a call of `Makes`. -/
theorem branch_mem_keepExplore {algorithm : Algorithm} {c below : Call σ}
    {d : Decision} {ok : Bool} :
    .branch c d ok below ∈ (algorithm.keepExplore b m g).journal ↔
      algorithm.Makes b m g c ∧ b.Explores c d ok below := by
  rw [mem_keepExplore]
  constructor
  · rintro ⟨_, hmakes, _ | hexplores | _⟩
    exact ⟨hmakes, hexplores⟩
  · exact fun ⟨hmakes, hexplores⟩ => ⟨c, hmakes, .branch hexplores⟩

/-- A call is written down as dry if it runs dry and may go deeper.  One that
may not is ended by a fault before it asks for a value. -/
theorem dry_mem_keepExplore {algorithm : Algorithm} {c : Call σ} :
    .dry c ∈ (algorithm.keepExplore b m g).journal ↔
      algorithm.Makes b m g c ∧ 0 < c.depth ∧ b.RunsDry c := by
  rw [mem_keepExplore]
  constructor
  · rintro ⟨_, hmakes, _ | _ | ⟨hdeep, hdry⟩⟩
    exact ⟨hmakes, hdeep, hdry⟩
  · exact fun ⟨hmakes, hdeep, hdry⟩ => ⟨c, hmakes, .dry hdeep hdry⟩

/-- A strategy that ends well counted what it wrote down. -/
theorem accounts_of_keepExplore {algorithm : Algorithm} {g' : σ}
    (h : algorithm.explore b m g = .ok (g', s)) :
    Accounts (algorithm.keepExplore b m g).journal (.begin m) s := by
  cases explored_of_explore h with
  | searched hbegins hdraws hsearch hend =>
      have hcounts := counts_of_keep _ (Branching.result_keep.trans hsearch)
      have hback := accounts_of_draws (σ := σ) (Search.draws_of_account hend)
      have hall := ((accounts_of_draws hdraws).append hcounts).append hback
      rw [List.nil_append, List.append_nil] at hall
      rw [journal_keepExplore_of_begins hbegins]
      exact hall
  | failed hroot hend =>
      have hnone : ∀ r, ¬ Begins b m g .maintainArcConsistency r := by
        rintro _ (_ | hroot')
        cases hroot.symm.trans hroot'
      rw [journal_keepExplore_of_not_begins hnone]
      exact accounts_of_draws
        ((Search.draws_propagate hroot).trans (Search.draws_of_account hend))

/-- **The journal of a strategy.**  It is kept by a strategy that does what
`solve` does.  It holds the calls of `Makes`, the branches of `Explores` and the
calls that run dry, and nothing else.  Whether or not a fault ends the run, the
calls that follow the first are, one by one, those that the branches that stand
lead to.  If none does, the nodes counted are the calls, and the backtracks
counted are the branches that did not stand and the calls that ran dry. -/
theorem keeps_journal (algorithm : Algorithm) (selector : Selector σ)
    (valueOrder : ValueOrder) (limit : Limit) (net : Network) (m : Arena)
    (g : σ) :
    let b := algorithm.branching selector valueOrder limit net
    let kept := algorithm.keep selector valueOrder limit net m g
    kept.result = algorithm.solve selector valueOrder limit net m g ∧
      (∀ c, .call c ∈ kept.journal ↔ algorithm.Makes b m g c) ∧
      (∀ c d ok below, .branch c d ok below ∈ kept.journal ↔
        algorithm.Makes b m g c ∧ b.Explores c d ok below) ∧
      (∀ c, .dry c ∈ kept.journal ↔
        algorithm.Makes b m g c ∧ 0 < c.depth ∧ b.RunsDry c) ∧
      (∀ r, Begins b m g algorithm r → kept.journal.filterMap Event.made? =
        r :: kept.journal.filterMap Event.entered?) ∧
      ∀ solved, algorithm.solve selector valueOrder limit net m g = .ok solved →
        solved.outcome.tally.nodes =
          (kept.journal.filterMap Event.made?).length ∧
        solved.outcome.tally.backtracks =
          kept.journal.countP Event.isBacktrack := by
  intro b kept
  have hkept : kept.journal = (algorithm.keepExplore b m g).journal :=
    journal_bind_of_quiet fun _ => journal_bind_of_quiet fun _ => rfl
  rw [hkept]
  refine ⟨result_keep algorithm selector valueOrder limit net m g,
    fun _ => call_mem_keepExplore, fun _ _ _ _ => branch_mem_keepExplore,
    fun _ => dry_mem_keepExplore, fun r hr => ?_, fun solved h => ?_⟩
  · rw [journal_keepExplore_of_begins hr]
    exact opens r.state r.search
  · obtain ⟨s, hexplore, houtcome, _⟩ := of_solve_eq_ok h
    have haccounts := accounts_of_keepExplore hexplore
    rw [houtcome]
    exact ⟨haccounts.nodes.trans (Nat.zero_add _),
      haccounts.backtracks.trans (Nat.zero_add _)⟩

end Algorithm

end ConstraintNet
