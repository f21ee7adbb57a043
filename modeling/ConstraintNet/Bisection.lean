/-!
# Binary search

A table in ascending order is searched by halves.  What is sought is given by
the side of it on which an entry lies: `.lt` below, `.gt` above, `.eq` where it
is found.  Each round keeps the second half of the part that is left if that
half starts with an entry not above what is sought, and the first half if not;
the one entry that is left in the end is compared once more.  On a table out of
order the search may miss what is there.

Main facts:

* `narrow_spec` — all entries behind the one that is left lie above what is
  sought, and it does not itself unless it is the first;
* `find?_eq_some_iff` — where no two entries are out of order, what is found is
  what is sought.
-/

namespace ConstraintNet.Bisection

variable {α : Type} {side : α → Ordering}

/-- The position of the entry that is left of the `size` entries from `base`
on. -/
def narrow (side : α → Ordering) (table : Array α) (base size : Nat)
    (hin : base + size ≤ table.size) : Nat :=
  if hmany : 1 < size then
    have hmiddle : base + size / 2 < table.size := by omega
    if side table[base + size / 2] = .gt then
      narrow side table base (size - size / 2) (by omega)
    else
      narrow side table (base + size / 2) (size - size / 2) (by omega)
  else base
termination_by size

/-- The entry of a table that a search by halves finds. -/
def find? (side : α → Ordering) (table : Array α) : Option α :=
  table[narrow side table 0 table.size (by omega)]?.filter fun a =>
    side a == .eq

/-- Of two entries in order the first lies below what is sought or the second
above it. -/
def InOrder (side : α → Ordering) (l : List α) : Prop :=
  l.Pairwise fun a b => side a = .lt ∨ side b = .gt

/-- Entries in order, told by their positions in the table. -/
theorem InOrder.getElem {table : Array α} (h : InOrder side table.toList)
    {j k : Nat} (hjk : j < k) (hk : k < table.size) :
    side table[j] = .lt ∨ side table[k] = .gt :=
  List.pairwise_iff_getElem.mp h j k (Nat.lt_trans hjk hk) hk hjk

/-- Entries in strict order of their keys are in order for each key that may be
sought. -/
theorem inOrder_of_ascending {κ : Type} [Ord κ] [Std.TransOrd κ] {key : α → κ}
    {l : List α} (h : l.Pairwise fun a b => compare (key a) (key b) = .lt)
    (k : κ) : InOrder (fun a => compare (key a) k) l := by
  refine h.imp fun {a b} hab => ?_
  cases hb : compare (key b) k with
  | lt => exact .inl (Std.TransCmp.lt_trans hab hb)
  | eq => exact .inl (Std.TransCmp.lt_of_lt_of_eq hab hb)
  | gt => exact .inr hb

/-- **What is sought can stand only where the search ends.**  The entries behind
the part that is left lie above it, and so does not the entry at which that part
starts, unless it is the first of all.  Each round keeps this. -/
theorem narrow_spec {table : Array α} (h : InOrder side table.toList)
    {base size p : Nat} (hin : base + size ≤ table.size)
    (hbase : base < table.size) (hstart : base = 0 ∨ side table[base] ≠ .gt)
    (hbehind : ∀ j (hj : j < table.size), base + size ≤ j → side table[j] = .gt)
    (hend : narrow side table base size hin = p) :
    ∃ hp : p < table.size, (p = 0 ∨ side table[p] ≠ .gt) ∧
      ∀ j (hj : j < table.size), p < j → side table[j] = .gt := by
  induction base, size, hin using narrow.induct side table with
  | case1 base size hin hmany hmiddle habove ih =>
      rw [narrow, dif_pos hmany, if_pos habove] at hend
      refine ih hbase hstart (fun j hj hle => ?_) hend
      -- The middle entry lies above what is sought, and so do all behind it.
      rcases Nat.eq_or_lt_of_le (show base + size / 2 ≤ j by omega) with
        rfl | hlt
      · exact habove
      · exact (h.getElem hlt hj).resolve_left (by simp [habove])
  | case2 base size hin hmany hmiddle hnot ih =>
      rw [narrow, dif_pos hmany, if_neg hnot] at hend
      exact ih hmiddle (.inr hnot)
        (fun j hj hle => hbehind j hj (by omega)) hend
  | case3 base size hin hone =>
      rw [narrow, dif_neg hone] at hend
      subst hend
      exact ⟨hbase, hstart, fun j hj hlt => hbehind j hj (by omega)⟩

/-- What is found is an entry of the table, and the one sought, on whatever
table. -/
theorem of_find?_eq_some {table : Array α} {a : α}
    (hfind : find? side table = some a) : a ∈ table ∧ side a = .eq := by
  obtain ⟨hentry, hside⟩ := Option.filter_eq_some_iff.mp hfind
  exact ⟨Array.mem_of_getElem? hentry, by simpa using hside⟩

/-- **A search by halves finds what is sought**, wherever it stands in a table
in order. -/
theorem find?_eq_some_iff {table : Array α} (h : InOrder side table.toList)
    {a : α} : find? side table = some a ↔ a ∈ table ∧ side a = .eq := by
  refine ⟨of_find?_eq_some, fun ⟨hmem, hside⟩ => ?_⟩
  obtain ⟨k, hk, rfl⟩ := Array.getElem_of_mem hmem
  obtain ⟨hp, hstart, hbehind⟩ :=
    narrow_spec h (Nat.le_of_eq (Nat.zero_add table.size))
      (Nat.zero_lt_of_lt hk) (.inl rfl)
      (fun j hj hle => absurd hj (by omega)) rfl
  -- An entry before the last one left would lie below what is sought, one
  -- behind it above.
  have hplace : narrow side table 0 table.size (by omega) = k := by
    rcases Nat.lt_trichotomy (narrow side table 0 table.size (by omega)) k with
      hlt | heq | hgt
    · exact absurd (hside.symm.trans (hbehind k hk hlt)) (by decide)
    · exact heq
    · rcases h.getElem hgt hp with hbelow | habove
      · exact absurd (hside.symm.trans hbelow) (by decide)
      · exact absurd habove (hstart.resolve_left (by omega))
  rw [find?, hplace, Array.getElem?_eq_getElem hk]
  simp [hside]

/-- Something is found just where something sought is there. -/
theorem isSome_find? {table : Array α} (h : InOrder side table.toList) :
    (find? side table).isSome ↔ ∃ a ∈ table, side a = .eq := by
  simp only [Option.isSome_iff_exists, find?_eq_some_iff h]

end ConstraintNet.Bisection
