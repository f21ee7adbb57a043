import Mathlib.Data.List.Forall2
import ConstraintNet.Fault
import ConstraintNet.Instance.Reader
import ConstraintNet.Proofs.Layout

/-!
# Tokens and how they are spelled

A piece spells an integer if it is a numeral of it, with a sign or without, and
the integer fits into 64 bits; it spells a word if it consists of letters.  No
piece spells two tokens, since a numeral has a digit and a digit is no letter.

The tokens of a text are those that its pieces spell, line by line.  If a piece
spells nothing, the first such piece is what the text is refused for.
-/

namespace ConstraintNet

/-! ## Numerals -/

namespace Text

/-- The numerals: digits, with a sign or without. -/
inductive Numeral : List Char → Int → Prop
  | plain {digits : List Char} (hne : digits ≠ [])
      (hdigits : ∀ c ∈ digits, c.isDigit) :
      Numeral digits (Nat.ofDigitChars 10 digits 0)
  | plus {digits : List Char} (hne : digits ≠ [])
      (hdigits : ∀ c ∈ digits, c.isDigit) :
      Numeral ('+' :: digits) (Nat.ofDigitChars 10 digits 0)
  | minus {digits : List Char} (hne : digits ≠ [])
      (hdigits : ∀ c ∈ digits, c.isDigit) :
      Numeral ('-' :: digits) (-(Nat.ofDigitChars 10 digits 0 : Int))

variable {l : List Char} {n : Int}

/-- A natural number is read from digits, at least one, and has their decimal
value. -/
theorem readNat?_eq_some_iff {k : Nat} :
    readNat? l = some k ↔ (l ≠ [] ∧ ∀ c ∈ l, c.isDigit) ∧
    Nat.ofDigitChars 10 l 0 = k := by
  have htest : (l.isEmpty || !l.all Char.isDigit) = false ↔
      l ≠ [] ∧ ∀ c ∈ l, c.isDigit := by
    simp
  unfold readNat?
  split
  · rename_i h
    refine ⟨fun hnone => (nomatch hnone), fun hparts => ?_⟩
    rw [htest.mpr hparts.1] at h
    cases h
  · rename_i h
    rw [Option.some.injEq]
    exact (and_iff_right (htest.mp (Bool.eq_false_iff.mpr h))).symm

/-- What is read without a sign is not negative. -/
theorem of_cast_readNat?_eq_some
    (h : (do let k ← readNat? l; pure (k : Int)) = some n) :
    l ≠ [] ∧ (∀ c ∈ l, c.isDigit) ∧ n = Nat.ofDigitChars 10 l 0 := by
  cases hread : readNat? l with
  | none =>
      rw [hread] at h
      cases h
  | some k =>
      obtain ⟨⟨hne, hdigits⟩, rfl⟩ := readNat?_eq_some_iff.mp hread
      rw [hread] at h
      cases h
      exact ⟨hne, hdigits, rfl⟩

/-- **What is read as an integer is a numeral of it.** -/
theorem readInt?_eq_some_iff : readInt? l = some n ↔ Numeral l n := by
  constructor
  · intro h
    unfold readInt? at h
    split at h
    · rename_i digits
      obtain ⟨_, hread, rfl⟩ := Option.map_eq_some_iff.mp h
      obtain ⟨hne, hdigits, rfl⟩ := of_cast_readNat?_eq_some hread
      exact .minus hne hdigits
    · rename_i digits
      obtain ⟨_, hread, rfl⟩ := Option.map_eq_some_iff.mp h
      obtain ⟨hne, hdigits, rfl⟩ := of_cast_readNat?_eq_some hread
      exact .plus hne hdigits
    · obtain ⟨_, hread, rfl⟩ := Option.map_eq_some_iff.mp h
      obtain ⟨hne, hdigits, rfl⟩ := of_cast_readNat?_eq_some hread
      exact .plain hne hdigits
  · intro h
    cases h with
    | plain hne hdigits =>
        have hread := readNat?_eq_some_iff.mpr ⟨⟨hne, hdigits⟩, rfl⟩
        unfold readInt?
        split
        · exact absurd (hdigits '-' List.mem_cons_self) (by decide)
        · exact absurd (hdigits '+' List.mem_cons_self) (by decide)
        · rw [hread]
          rfl
    | plus hne hdigits =>
        rw [readInt?, readNat?_eq_some_iff.mpr ⟨⟨hne, hdigits⟩, rfl⟩]
        rfl
    | minus hne hdigits =>
        rw [readInt?, readNat?_eq_some_iff.mpr ⟨⟨hne, hdigits⟩, rfl⟩]
        rfl

/-- A numeral has a digit. -/
theorem Numeral.exists_digit (h : Numeral l n) : ∃ c ∈ l, c.isDigit := by
  cases h with
  | plain hne hdigits =>
      obtain ⟨c, hc⟩ := List.exists_mem_of_ne_nil _ hne
      exact ⟨c, hc, hdigits c hc⟩
  | plus hne hdigits =>
      obtain ⟨c, hc⟩ := List.exists_mem_of_ne_nil _ hne
      exact ⟨c, List.mem_cons_of_mem _ hc, hdigits c hc⟩
  | minus hne hdigits =>
      obtain ⟨c, hc⟩ := List.exists_mem_of_ne_nil _ hne
      exact ⟨c, List.mem_cons_of_mem _ hc, hdigits c hc⟩

/-- The digits are the characters from 48 to 57. -/
theorem isDigit_iff {c : Char} : c.isDigit ↔ 48 ≤ c.toNat ∧ c.toNat ≤ 57 := by
  simp only [Char.isDigit, Bool.and_eq_true, decide_eq_true_eq, ge_iff_le,
    UInt32.le_iff_toNat_le]
  rfl

/-- The first letter stands behind the digits. -/
theorem isLetter_of_isDigit {c : Char} (h : c.isDigit) :
    isLetter c = false := by
  have hbelow : ∀ range ∈ letterRanges, 57 < range.1 := by decide +kernel
  rw [isLetter, List.any_eq_false]
  intro range hrange
  have := hbelow range hrange
  have := (isDigit_iff.mp h).2
  simp
  omega

end Text

/-! ## Sequences of operations -/

section

variable {ε α β : Type} {f : α → Except ε β} {l : List α} {l' : List β} {e : ε}

/-- A list is mapped successfully if each member is, in its place. -/
theorem mapM_eq_ok_iff :
    l.mapM f = .ok l' ↔ List.Forall₂ (fun a b => f a = .ok b) l l' := by
  constructor
  · intro h
    induction l generalizing l' with
    | nil =>
        cases h
        exact .nil
    | cons a l ih =>
        rw [List.mapM_cons] at h
        obtain ⟨b, hb, h⟩ := of_bind_eq_ok h
        obtain ⟨k, hk, h⟩ := of_bind_eq_ok h
        cases h
        exact .cons hb (ih hk)
  · intro h
    induction h with
    | nil => rfl
    | cons hb _ ih =>
        rw [List.mapM_cons, hb, ih]
        rfl

/-- A sequence fails at the first operation that does. -/
theorem of_mapM_eq_error (h : l.mapM f = .error e) :
    ∃ front a rest, l = front ++ a :: rest ∧ (∀ b ∈ front, ∃ c, f b = .ok c) ∧
      f a = .error e := by
  induction l with
  | nil => cases h
  | cons a l ih =>
      rw [List.mapM_cons] at h
      rcases of_bind_eq_error h with ha | ⟨b, hb, h⟩
      · exact ⟨[], a, l, rfl, by simp, ha⟩
      · rcases of_bind_eq_error h with hl | ⟨k, -, hk⟩
        · obtain ⟨front, a', rest, rfl, hfront, ha'⟩ := ih hl
          exact ⟨a :: front, a', rest, rfl,
            List.forall_mem_cons.mpr ⟨⟨b, hb⟩, hfront⟩, ha'⟩
        · cases hk

/-- Every member of either of two lists that are related goes with one of the
other. -/
theorem exists_mem_of_forall₂ {R : α → β → Prop} {a : α}
    (h : List.Forall₂ R l l') (ha : a ∈ l) : ∃ b ∈ l', R a b := by
  induction h with
  | nil => cases ha
  | cons hab _ ih =>
      rcases List.mem_cons.mp ha with rfl | ha
      · exact ⟨_, List.mem_cons_self, hab⟩
      · obtain ⟨b, hb, hab⟩ := ih ha
        exact ⟨b, List.mem_cons_of_mem _ hb, hab⟩

end

/-! ## Spelling -/

namespace Instance

/-- The token that a piece spells. -/
inductive Spells (piece : List Char) : Token → Prop
  | integer {n : Int} (hnumeral : Text.Numeral piece n) (hn : Text.isInt64 n) :
      Spells piece (.integer n)
  | word (hletters : ∀ c ∈ piece, Text.isLetter c) :
      Spells piece (.word (String.ofList piece))

/-- A piece on a line spells a token on that line. -/
def SpellsAt (p : Nat × List Char) (t : Nat × Token) : Prop :=
  p.1 = t.1 ∧ Spells p.2 t.2

variable {piece text : List Char} {t : Token} {ts : Tokens} {why : Refusal}

/-- **A piece is read as the token that it spells.** -/
theorem ofPiece?_eq_some_iff :
    Token.ofPiece? piece = some t ↔ Spells piece t := by
  have hread : ∀ n, Text.readInt64? piece = some n ↔
      Text.Numeral piece n ∧ Text.isInt64 n := by
    intro n
    rw [Text.readInt64?_eq_some, Text.readInt?_eq_some_iff]
  constructor
  · intro h
    unfold Token.ofPiece? at h
    split at h
    · rename_i n hn
      cases h
      obtain ⟨hnumeral, hint⟩ := (hread n).mp hn
      exact .integer hnumeral hint
    · split at h
      · rename_i hletters
        cases h
        exact .word (List.all_eq_true.mp hletters)
      · cases h
  · intro h
    cases h with
    | integer hnumeral hn => rw [Token.ofPiece?, (hread _).mpr ⟨hnumeral, hn⟩]
    | word hletters =>
        have hnone : Text.readInt64? piece = none := by
          refine Option.eq_none_iff_forall_ne_some.mpr fun n hn => ?_
          obtain ⟨c, hc, hdigit⟩ := ((hread n).mp hn).1.exists_digit
          have hletter := hletters c hc
          rw [Text.isLetter_of_isDigit hdigit] at hletter
          cases hletter
        rw [Token.ofPiece?, hnone]
        exact if_pos (List.all_eq_true.mpr hletters)

/-- No token is read from a piece just if the piece spells none. -/
theorem ofPiece?_eq_none_iff :
    Token.ofPiece? piece = none ↔ ¬ ∃ t, Spells piece t := by
  simp only [← ofPiece?_eq_some_iff, ← Option.isSome_iff_exists,
    Option.not_isSome_iff_eq_none]

/-- The token of a piece on a line. -/
def tokenAt (p : Nat × List Char) : Except Refusal (Nat × Token) :=
  match Token.ofPiece? p.2 with
  | some token => .ok (p.1, token)
  | none => .error (.unreadable p.1 (.unexpectedPiece (String.ofList p.2)))

/-- The pieces of a text are turned into tokens from the first on. -/
theorem tokens_eq_mapM : tokens text = (Text.pieces text).mapM tokenAt := rfl

/-- A piece is turned into the token that it spells, on its line. -/
theorem tokenAt_eq_ok_iff {p : Nat × List Char} {t : Nat × Token} :
    tokenAt p = .ok t ↔ SpellsAt p t := by
  obtain ⟨line, token⟩ := t
  rw [SpellsAt, ← ofPiece?_eq_some_iff, tokenAt]
  cases Token.ofPiece? p.2 <;> simp

/-- A piece that spells nothing is refused, by its line and its characters. -/
theorem of_tokenAt_eq_error {p : Nat × List Char} (h : tokenAt p = .error why) :
    (¬ ∃ t, Spells p.2 t) ∧ why =
      .unreadable p.1 (.unexpectedPiece (String.ofList p.2)) := by
  rw [tokenAt] at h
  split at h
  · cases h
  · rename_i hnone
    cases h
    exact ⟨ofPiece?_eq_none_iff.mp hnone, rfl⟩

/-- **The tokens of a text are those that its pieces spell.** -/
theorem tokens_eq_ok_iff :
    tokens text = .ok ts ↔ List.Forall₂ SpellsAt (Text.pieces text) ts := by
  simp only [tokens_eq_mapM, mapM_eq_ok_iff, tokenAt_eq_ok_iff]

/-- **A text whose tokens are refused has a piece that spells none**, and it is
refused for the first. -/
theorem of_tokens_eq_error (h : tokens text = .error why) :
    ∃ front line piece rest, Text.pieces text = front ++ (line, piece) :: rest ∧
      (∀ p ∈ front, ∃ t, Spells p.2 t) ∧ (¬ ∃ t, Spells piece t) ∧
      why = .unreadable line (.unexpectedPiece (String.ofList piece)) := by
  rw [tokens_eq_mapM] at h
  obtain ⟨front, ⟨line, piece⟩, rest, hpieces, hfront, hpiece⟩ :=
    of_mapM_eq_error h
  obtain ⟨hnone, hwhy⟩ := of_tokenAt_eq_error hpiece
  refine ⟨front, line, piece, rest, hpieces, fun p hp => ?_, hnone, hwhy⟩
  obtain ⟨t, ht⟩ := hfront p hp
  exact ⟨t.2, (tokenAt_eq_ok_iff.mp ht).2⟩

end Instance

end ConstraintNet
