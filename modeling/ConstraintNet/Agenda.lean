import Std.Data.ExtTreeSet
import ConstraintNet.Arc
/-!
# The agenda of waiting arcs

A queue that serves arcs in the order of their arrival and holds none of them
twice.  New arcs pile up in `back`; `front` is what is served, and takes over
the reversed pile when it runs dry.  A set of the waiting arcs answers at once
whether an arc is already there.

Main facts, all through the view `toList`, first to serve first:

* `toList_push` — an arc that waits already changes nothing, any other goes
  last;
* `toList_pop?`, `pop?_eq_none` — the first is served, and none only when none
  waits;
* `nodup_toList`, `mem_members` — no arc waits twice, and the set is that of the
  waiting arcs.
-/

namespace ConstraintNet

/-- A first-in first-out queue of distinct arcs. -/
structure Agenda where
  /-- What is served next, first to serve first. -/
  front : List Arc
  /-- What arrived since, last arrival first. -/
  back : List Arc
  /-- The waiting arcs. -/
  members : Std.ExtTreeSet Arc
  nodup : (front ++ back.reverse).Nodup
  mem_iff : ∀ a, a ∈ members ↔ a ∈ front ++ back.reverse

namespace Agenda

/-- The waiting arcs, first to serve first. -/
def toList (q : Agenda) : List Arc := q.front ++ q.back.reverse

/-- The agenda on which nothing waits. -/
def empty : Agenda where
  front := []
  back := []
  members := ∅
  nodup := List.nodup_nil
  mem_iff := by simp

instance : EmptyCollection Agenda := ⟨empty⟩

instance : Inhabited Agenda := ⟨∅⟩

/-- The number of waiting arcs. -/
def size (q : Agenda) : Nat := q.front.length + q.back.length

/-- Whether no arc waits. -/
def isEmpty (q : Agenda) : Bool := q.front.isEmpty && q.back.isEmpty

/-- Puts an arc last, unless it waits already. -/
def push (q : Agenda) (a : Arc) : Agenda :=
  if h : a ∈ q.members then q else
    { front := q.front
      back := a :: q.back
      members := q.members.insert a
      nodup := by
        rw [List.reverse_cons, ← List.append_assoc]
        have hn : a ∉ q.front ++ q.back.reverse := fun hm =>
          h ((q.mem_iff a).mpr hm)
        refine List.nodup_append.mpr ⟨q.nodup, by simp, ?_⟩
        intro b hb c hc hbc
        rw [List.mem_singleton] at hc
        exact hn (hc ▸ hbc ▸ hb)
      mem_iff := by
        intro b
        rw [List.reverse_cons, ← List.append_assoc,
          List.mem_append, ← q.mem_iff b,
          List.mem_singleton, Std.ExtTreeSet.mem_insert,
          Std.LawfulEqCmp.compare_eq_iff_eq]
        exact ⟨fun h => h.elim (.inr ∘ Eq.symm) .inl,
          fun h => h.elim .inr (.inl ∘ Eq.symm)⟩ }

/-- Puts arcs last, one after the other. -/
def pushAll (q : Agenda) (l : List Arc) : Agenda := l.foldl push q

/-- The agenda of a list of arcs, served in the order of their first
occurrences. -/
def ofList (l : List Arc) : Agenda := pushAll ∅ l

/-- What is left of an agenda whose waiting arcs are `a` and then `rest`. -/
private def withoutFirst (q : Agenda) (a : Arc) (f b : List Arc)
    (h : q.front ++ q.back.reverse = a :: (f ++ b.reverse)) : Agenda where
  front := f
  back := b
  members := q.members.erase a
  nodup := (List.nodup_cons.mp (h ▸ q.nodup)).2
  mem_iff := by
    intro c
    have ha : a ∉ f ++ b.reverse := (List.nodup_cons.mp (h ▸ q.nodup)).1
    rw [Std.ExtTreeSet.mem_erase, q.mem_iff c, h, List.mem_cons,
      ne_eq, Std.LawfulEqCmp.compare_eq_iff_eq]
    constructor
    · rintro ⟨h1, h2 | h2⟩
      · exact absurd h2.symm h1
      · exact h2
    · intro hc
      exact ⟨fun he => ha (he ▸ hc), .inr hc⟩

/-- Serves the first waiting arc. -/
def pop? (q : Agenda) : Option (Arc × Agenda) :=
  match h : q.front with
  | a :: f => some (a, q.withoutFirst a f q.back (by simp [h]))
  | [] =>
    match h' : q.back.reverse with
    | [] => none
    | a :: f => some (a, q.withoutFirst a f [] (by simp [h, h']))

@[simp] theorem toList_empty : (∅ : Agenda).toList = [] := rfl

/-- No arc waits twice. -/
theorem nodup_toList (q : Agenda) : q.toList.Nodup := q.nodup

/-- The set holds exactly the waiting arcs. -/
theorem mem_members {q : Agenda} {a : Arc} : a ∈ q.members ↔ a ∈ q.toList :=
  q.mem_iff a

@[simp] theorem length_toList (q : Agenda) : q.toList.length = q.size := by
  simp [toList, size]

/-- A waiting arc stays where it is; any other goes last. -/
theorem toList_push (q : Agenda) (a : Arc) :
    (q.push a).toList = if a ∈ q.toList then q.toList else q.toList ++ [a] := by
  unfold push
  split
  · rename_i h
    rw [if_pos (mem_members.mp h)]
  · rename_i h
    rw [if_neg (fun hm => h (mem_members.mpr hm))]
    simp [toList]

/-- Serving takes away the first waiting arc. -/
theorem toList_pop? {q r : Agenda} {a : Arc} (h : q.pop? = some (a, r)) :
    q.toList = a :: r.toList := by
  unfold pop? at h
  split at h
  · rename_i f hf
    cases h
    simp [toList, withoutFirst, hf]
  · rename_i hf
    split at h
    · cases h
    · rename_i f hb
      cases h
      simp [toList, withoutFirst, hf, hb]

/-- Nothing is served only when nothing waits. -/
theorem pop?_eq_none {q : Agenda} : q.pop? = none ↔ q.toList = [] := by
  constructor
  · intro h
    unfold pop? at h
    split at h
    · cases h
    · rename_i hf
      split at h
      · rename_i hb
        simp [toList, hf, hb]
      · cases h
  · intro h
    cases hp : q.pop? with
    | none => rfl
    | some ar =>
        obtain ⟨a, r⟩ := ar
        rw [toList_pop? hp] at h
        cases h

/-- Serving shortens the agenda by one. -/
theorem size_pop? {q r : Agenda} {a : Arc} (h : q.pop? = some (a, r)) :
    q.size = r.size + 1 := by
  rw [← length_toList, ← length_toList, toList_pop? h, List.length_cons]

end Agenda

end ConstraintNet
