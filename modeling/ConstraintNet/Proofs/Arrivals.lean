import ConstraintNet.Agenda
import Mathlib.Data.List.Nodup

/-!
# Arrivals and departures

What is asked of an agenda is to take an arc, to take several, or to serve one.
An arc arrives when it is put where it does not wait, and departs when it is
served.

Nothing is lost and nothing overtakes: what waited at first and then arrived is
what departed and then waits in the end, in this order.  So on an agenda that
was empty the arcs depart in the order in which they arrived, the first to
arrive being the first to depart, and as many requests to serve as arcs wait are
enough for all of them.

* `toList_pushAll_eq` — of several arcs each goes last at its first occurrence,
  unless it waits;
* `toList_append_arriving`, `toList_append_arrivals` — the balance of an
  operation and of a run;
* `min_le_length_departures` — a request to serve is in vain only when no arc
  waits.
-/

namespace ConstraintNet.Agenda

variable {q rest : Agenda} {a : Arc} {l : List Arc}

/-! ## What waits -/

/-- An arc that waits is not queued again. -/
theorem push_of_mem (h : a ∈ q.toList) : q.push a = q := by
  rw [push, dif_pos (mem_members.mpr h)]

/-- Any other arc goes to the end of the queue. -/
theorem toList_push_of_not_mem (h : a ∉ q.toList) :
    (q.push a).toList = q.toList ++ [a] := by
  rw [toList_push, if_neg h]

/-- Only an arc that waits changes nothing. -/
theorem push_eq_self_iff : q.push a = q ↔ a ∈ q.toList := by
  refine ⟨fun h => Classical.byContradiction fun hnot => ?_, push_of_mem⟩
  have hlength := congrArg List.length (toList_push_of_not_mem hnot)
  rw [h, List.length_append, List.length_singleton] at hlength
  omega

/-- The arcs of a list that do not wait, each at its first occurrence. -/
def newcomers (q : Agenda) (l : List Arc) : List Arc :=
  (l.filter (· ∉ q.toList)).eraseDups

/-- **Of several arcs each goes last at its first occurrence**, unless it
waits. -/
theorem toList_pushAll_eq (q : Agenda) (l : List Arc) :
    (q.pushAll l).toList = q.toList ++ q.newcomers l := by
  induction l generalizing q with
  | nil => simp [pushAll, newcomers]
  | cons a l ih =>
      rw [show q.pushAll (a :: l) = (q.push a).pushAll l from rfl, ih,
        newcomers, newcomers]
      by_cases ha : a ∈ q.toList
      · rw [push_of_mem ha, List.filter_cons_of_neg (by simpa using ha)]
      · have hlater : l.filter (· ∉ (q.push a).toList) =
            (l.filter (· ∉ q.toList)).filter fun b => !b == a := by
          rw [toList_push_of_not_mem ha, List.filter_filter]
          exact List.filter_congr
            fun b _ => by rw [Bool.eq_iff_iff]; simp [and_comm]
        rw [List.filter_cons_of_pos (by simpa using ha),
          List.eraseDups_cons, hlater,
          toList_push_of_not_mem ha, List.append_assoc, List.singleton_append]

/-- Without repetitions there are none to be dropped. -/
theorem eraseDups_of_nodup (h : l.Nodup) : l.eraseDups = l := by
  induction l with
  | nil => rfl
  | cons a l ih =>
      obtain ⟨ha, hl⟩ := List.nodup_cons.mp h
      have hothers : l.filter (fun b => !b == a) = l :=
        List.filter_eq_self.mpr fun b hb => by
          simpa using ne_of_mem_of_not_mem hb ha
      rw [List.eraseDups_cons, hothers, ih hl]

/-- Arcs that differ and do not wait yet go last in their order. -/
theorem toList_pushAll (h : (q.toList ++ l).Nodup) :
    (q.pushAll l).toList = q.toList ++ l := by
  obtain ⟨-, hl, hdisjoint⟩ := List.nodup_append.mp h
  have hnew : l.filter (· ∉ q.toList) = l := List.filter_eq_self.mpr fun a ha =>
    decide_eq_true fun hq => hdisjoint a hq a ha rfl
  rw [toList_pushAll_eq, newcomers, hnew, eraseDups_of_nodup hl]

/-- An agenda of different arcs has them in the order of the list. -/
theorem toList_ofList (h : l.Nodup) : (ofList l).toList = l := toList_pushAll h

/-- The first arc in the queue is the one that is taken. -/
theorem exists_pop? (h : q.toList = a :: l) :
    ∃ rest, q.pop? = some (a, rest) ∧ rest.toList = l := by
  cases hpop : q.pop? with
  | none =>
      exact absurd (h.symm.trans (pop?_eq_none.mp hpop)) (List.cons_ne_nil a l)
  | some served =>
      obtain ⟨b, rest⟩ := served
      rw [toList_pop? hpop] at h
      cases h
      exact ⟨rest, rfl, rfl⟩

/-- What was served waits no longer, and may come again. -/
theorem not_mem_of_pop? (h : q.pop? = some (a, rest)) : a ∉ rest.toList := by
  have hnodup := q.nodup_toList
  rw [toList_pop? h] at hnodup
  exact (List.nodup_cons.mp hnodup).1

/-! ## Operations -/

/-- What may be asked of an agenda. -/
inductive Operation
  | push (a : Arc)
  | pushAll (l : List Arc)
  | pop
deriving DecidableEq

/-- The agenda after an operation.  A pop of an empty agenda changes nothing. -/
def perform (q : Agenda) : Operation → Agenda
  | .push a => q.push a
  | .pushAll l => q.pushAll l
  | .pop => q.pop?.elim q Prod.snd

/-- The agenda after operations, one after the other. -/
def performAll (q : Agenda) (l : List Operation) : Agenda := l.foldl perform q

/-- The arcs that an operation puts where they do not wait. -/
def arriving (q : Agenda) : Operation → List Arc
  | .push a => q.newcomers [a]
  | .pushAll l => q.newcomers l
  | .pop => []

/-- The arc that an operation serves, if it serves one. -/
def departing (q : Agenda) : Operation → List Arc
  | .pop => (q.pop?.map Prod.fst).toList
  | _ => []

/-- The arcs that arrive, in the course of operations. -/
def arrivals (q : Agenda) : List Operation → List Arc
  | [] => []
  | o :: l => q.arriving o ++ (q.perform o).arrivals l

/-- The arcs that depart. -/
def departures (q : Agenda) : List Operation → List Arc
  | [] => []
  | o :: l => q.departing o ++ (q.perform o).departures l

/-- What departs during one sequence departs before what departs during the
next. -/
theorem departures_append (q : Agenda) (l m : List Operation) :
    q.departures (l ++ m) = q.departures l ++
      (q.performAll l).departures m := by
  induction l generalizing q with
  | nil => rfl
  | cons o l ih =>
      rw [List.cons_append, departures, departures, ih, List.append_assoc]
      rfl

/-! ## The balance -/

/-- **What waits and then arrives is what departs and then waits**, through an
operation. -/
theorem toList_append_arriving (q : Agenda) (o : Operation) :
    q.toList ++ q.arriving o = q.departing o ++ (q.perform o).toList := by
  cases o with
  | push a => exact (q.toList_pushAll_eq [a]).symm
  | pushAll l => exact (q.toList_pushAll_eq l).symm
  | pop =>
      rw [arriving, departing, perform, List.append_nil]
      cases hpop : q.pop? with
      | none => rfl
      | some served => exact toList_pop? hpop

/-- And so through all of them. -/
theorem toList_append_arrivals (q : Agenda) (l : List Operation) :
    q.toList ++ q.arrivals l = q.departures l ++ (q.performAll l).toList := by
  induction l generalizing q with
  | nil => exact List.append_nil _
  | cons o l ih =>
      calc q.toList ++ (q.arriving o ++ (q.perform o).arrivals l)
          = q.departing o ++
            ((q.perform o).toList ++ (q.perform o).arrivals l) := by
            rw [← List.append_assoc, toList_append_arriving, List.append_assoc]
        _ = q.departing o ++ (q.perform o).departures l ++
          ((q.perform o).performAll l).toList := by
            rw [ih, List.append_assoc]

/-- A request to serve is in vain only when no arc waits. -/
theorem departing_pop_eq_nil_iff : q.departing .pop = [] ↔ q.toList = [] := by
  rw [← pop?_eq_none, departing]
  cases q.pop? <;> simp

/-- As many arcs depart as wait or as are asked for, whichever is less. -/
theorem min_le_length_departures (q : Agenda) (l : List Operation) :
    min q.size (l.count .pop) ≤ (q.departures l).length := by
  induction l generalizing q with
  | nil => simp
  | cons o l ih =>
      have hrest := ih (q.perform o)
      have hbalance := congrArg List.length (q.toList_append_arriving o)
      simp only [List.length_append, length_toList] at hbalance
      rw [departures, List.length_append, List.count_cons]
      by_cases ho : o = .pop
      · subst ho
        have hvain : (q.departing .pop).length = 0 → q.size = 0 := by
          rw [List.length_eq_zero_iff,
            departing_pop_eq_nil_iff, ← length_toList, List.length_eq_zero_iff]
          exact id
        simp only [arriving, List.length_nil, beq_self_eq_true, if_true]
          at hbalance ⊢
        omega
      · have hnone : q.departing o = [] := by
          cases o with
          | pop => exact absurd rfl ho
          | push _ => rfl
          | pushAll _ => rfl
        simp only [hnone, List.length_nil, beq_iff_eq, ho, if_false]
          at hbalance ⊢
        omega

/-- **What waits departs**, in its order, once enough requests to serve
follow. -/
theorem toList_prefix_departures {l : List Operation}
    (h : q.size ≤ l.count .pop) : q.toList <+: q.departures l := by
  refine List.prefix_of_prefix_length_le (List.prefix_append _ (q.arrivals l))
    ⟨_, (q.toList_append_arrivals l).symm⟩ ?_
  have := q.min_le_length_departures l
  rw [length_toList]
  omega

/-- **An agenda serves arcs in the order of their arrival and loses none.**
Whatever was asked of an agenda that was empty, no arc waits twice on it, and
its set is that of the waiting arcs. Pushing changes nothing just when the arc
waits, and puts it last otherwise; of several arcs each goes last that does not
wait, at its first occurrence.  A pop serves the first waiting arc, which may
then be pushed again, and fails only when none waits.  All arrivals are the
departures and then the waiting arcs, so that the `k`-th arc to depart is the
`k`-th that arrived; and all of them have departed once as many pops follow as
arcs wait, whatever else is asked meanwhile. -/
theorem performAll_serves_in_order (l : List Operation) :
    let q := (∅ : Agenda).performAll l
    q.toList.Nodup ∧ (∀ a, a ∈ q.members ↔ a ∈ q.toList) ∧
    (∀ a, q.push a = q ↔ a ∈ q.toList) ∧
    (∀ a, (q.push a).toList =
      if a ∈ q.toList then q.toList else q.toList ++ [a]) ∧
    (∀ m, (q.pushAll m).toList =
      q.toList ++ (m.filter (· ∉ q.toList)).eraseDups) ∧
    (q.pop? = none ↔ q.toList = []) ∧
    (∀ a m, (∃ rest, q.pop? = some (a, rest) ∧ rest.toList = m) ↔
      q.toList = a :: m) ∧
    (∀ a rest, q.pop? = some (a, rest) →
      (rest.push a).toList = rest.toList ++ [a]) ∧
    (∅ : Agenda).arrivals l = (∅ : Agenda).departures l ++ q.toList ∧
    (∀ a, ((∅ : Agenda).arrivals l).count a =
      ((∅ : Agenda).departures l).count a + if a ∈ q.toList then 1 else 0) ∧
    ∀ m : List Operation, q.size ≤ m.count .pop →
      (∅ : Agenda).arrivals l <+: (∅ : Agenda).departures (l ++ m) := by
  intro q
  have hbalance : (∅ : Agenda).arrivals l =
      (∅ : Agenda).departures l ++ q.toList :=
    (∅ : Agenda).toList_append_arrivals l
  refine ⟨q.nodup_toList, fun _ => mem_members, fun _ => push_eq_self_iff,
    q.toList_push,
    q.toList_pushAll_eq, pop?_eq_none, fun a m => ⟨?_, exists_pop?⟩, ?_,
    hbalance, ?_, ?_⟩
  · rintro ⟨rest, hpop, rfl⟩
    exact toList_pop? hpop
  · exact fun a rest hpop => toList_push_of_not_mem (not_mem_of_pop? hpop)
  · intro a
    rw [hbalance, List.count_append, q.nodup_toList.count]
  · intro m hm
    rw [hbalance, departures_append]
    exact (List.prefix_append_right_inj _).mpr (toList_prefix_departures hm)

/-- An arc is pushed while it waits, and again after it was served; another
comes while the last two are served. -/
theorem performAll_serves_in_order_of_four :
    let l : List Operation :=
      [.pushAll [⟨0, 1⟩, ⟨1, 2⟩, ⟨0, 1⟩], .pop, .push ⟨1, 2⟩, .push ⟨0, 1⟩]
    let m : List Operation := [.pop, .push ⟨2, 0⟩, .pop]
    let q := (∅ : Agenda).performAll l
    q.toList = [⟨1, 2⟩, ⟨0, 1⟩] ∧ q.push ⟨1, 2⟩ = q ∧ q.size ≤ m.count .pop ∧
      (∅ : Agenda).arrivals l = [⟨0, 1⟩, ⟨1, 2⟩, ⟨0, 1⟩] ∧
      (∅ : Agenda).arrivals l <+: (∅ : Agenda).departures (l ++ m) := by
  intro l m q
  have hwaiting : q.toList = [⟨1, 2⟩, ⟨0, 1⟩] := by decide +kernel
  have henough : q.size ≤ m.count .pop := by decide +kernel
  have hserved : (∅ : Agenda).departures l = [⟨0, 1⟩] := by decide +kernel
  obtain ⟨-, -, hpush, -, -, -, -, -, hbalance, -, hserves⟩ :=
    performAll_serves_in_order l
  refine ⟨hwaiting, (hpush _).mpr ?_, henough, ?_, hserves m henough⟩
  · exact hwaiting ▸ List.mem_cons_self
  · rw [hbalance, hserved]
    exact congrArg _ hwaiting

end ConstraintNet.Agenda
