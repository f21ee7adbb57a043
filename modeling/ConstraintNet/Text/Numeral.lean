/-!
# Numerals

Decimal numerals with an optional sign.  They are written as the core library
writes integers: without a plus sign and without leading zeros.

Main facts:

* `readInt?_repr` — reading back what is written;
* `readInt64?_eq_some` — the numerals of 64 bits are those within the range.
-/

namespace ConstraintNet.Text

/-- The number that digits write; none if there are no digits or other
characters. -/
def readNat? (l : List Char) : Option Nat :=
  if l.isEmpty || !l.all Char.isDigit then none
  else some (Nat.ofDigitChars 10 l 0)

/-- The integer that a sign, if any, and digits write. -/
def readInt? : List Char → Option Int
  | '-' :: l => (readNat? l).map fun n => -(n : Int)
  | '+' :: l => (readNat? l).map fun n => (n : Int)
  | l => (readNat? l).map fun n => (n : Int)

/-- Whether an integer fits into 64 bits with a sign. -/
def isInt64 (n : Int) : Bool :=
  -0x8000000000000000 ≤ n && n ≤ 0x7FFFFFFFFFFFFFFF

/-- The integer that a numeral writes, if it fits into 64 bits with a sign. -/
def readInt64? (l : List Char) : Option Int := (readInt? l).filter isInt64

/-- The number that a numeral without minus sign writes, if it fits into 64
bits. -/
def readNat64? : List Char → Option Nat
  | '+' :: l => (readNat? l).filter (· ≤ 0xFFFFFFFFFFFFFFFF)
  | l => (readNat? l).filter (· ≤ 0xFFFFFFFFFFFFFFFF)

/-- A natural number is read back from its digits. -/
theorem readNat?_toDigits (n : Nat) :
    readNat? (Nat.toDigits 10 n) = some n := by
  have h : (Nat.toDigits 10 n).all Char.isDigit :=
    List.all_eq_true.mpr fun _ =>
      Nat.isDigit_of_mem_toDigits (by decide) (by decide)
  simp [readNat?, h, Nat.toDigits_ne_nil]

/-- Numerals read back. -/
theorem readInt?_repr (n : Int) : readInt? n.repr.toList = some n := by
  rw [Int.repr_eq_if]
  split
  · rename_i hn
    rw [Nat.repr_eq_ofList_toDigits, String.toList_ofList]
    have key := readNat?_toDigits n.toNat
    have hd : ∀ c ∈ Nat.toDigits 10 n.toNat, c.isDigit :=
      fun _ => Nat.isDigit_of_mem_toDigits (by decide) (by decide)
    generalize Nat.toDigits 10 n.toNat = l at key hd
    unfold readInt?
    split
    · exact absurd (hd '-' (by simp)) (by decide)
    · exact absurd (hd '+' (by simp)) (by decide)
    · simp [key, Int.toNat_of_nonneg hn]
  · rename_i hn
    rw [String.toList_append, Nat.repr_eq_ofList_toDigits, String.toList_ofList,
      String.toList_ofList]
    rw [List.singleton_append, readInt?, readNat?_toDigits]
    simp
    omega

/-- A numeral is read just if its integer is of 64 bits. -/
theorem readInt64?_eq_some {l : List Char} {n : Int} :
    readInt64? l = some n ↔ readInt? l = some n ∧ isInt64 n := by
  simp [readInt64?, Option.filter_eq_some_iff]

end ConstraintNet.Text
