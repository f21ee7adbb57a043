import ConstraintNet.Fault
import ConstraintNet.Proofs.JsonLayout

/-!
# Reading a text by its tokens

A reader goes from one text to what is left of it.  `Leads` says that it
succeeds on every text of one kind, what it answers, and of which kind the rest
is.  The kinds that matter are the layouts of tokens, with blanks in front or
without.  So each reader of the library has one lemma that tells which tokens it
takes.
-/

namespace ConstraintNet.Json

open Reader (isBlank)

/-! ## The first token of a text -/

/-- The text begins with the token `t`, and what follows is laid out in `ts`. -/
def Front (t : Token) (ts : List Token) (l : List Char) : Prop :=
  ∃ m, l = t.text ++ m ∧ (∀ n, t = .integer n → EndsNumeral m) ∧ Layout ts m

/-- The character that a token begins with. -/
def Token.first (t : Token) : Char := t.text.headD ' '

section

variable {t : Token} {ts : List Token} {c : Char} {l m : List Char} {n : Int}

/-- Behind a numeral comes neither a fraction nor an exponent. -/
theorem EndsNumeral.head?_ne {rest : List Char} (h : EndsNumeral rest) :
    rest.head? ≠ some '.' ∧ rest.head? ≠ some 'e' ∧ rest.head? ≠ some 'E' :=
  ⟨fun heq => (h _ heq).2.1 rfl, fun heq => (h _ heq).2.2.1 rfl,
    fun heq => (h _ heq).2.2.2 rfl⟩

/-- A token at the front is a layout that starts without blanks. -/
theorem Front.layout (h : Front t ts l) : Layout (t :: ts) l := by
  obtain ⟨m, rfl, hend, hm⟩ := h
  exact .token hend hm

/-- A quoted string is its characters, each as it is quoted, between quotation
marks. -/
theorem toList_quote (s : String) :
    (Tree.quote s).toList = '"' ::
      (s.toList.flatMap Tree.quoteChar ++ ['"']) := by
  simp [Tree.quote]

/-- The text of a string starts with its quotation mark. -/
theorem Token.first_string (s : String) : (Token.string s).first = '"' := by
  rw [first, text, toList_quote]
  rfl

/-- A numeral is written with digits, behind a minus sign if it is negative. -/
theorem Token.text_integer (n : Int) :
    (Token.integer n).text =
      (if 0 ≤ n then [] else ['-']) ++ Nat.toDigits 10 n.natAbs := by
  rw [text, Int.repr_eq_if]
  split
  · rename_i hn
    rw [Nat.toList_repr, List.nil_append, show n.toNat = n.natAbs by omega]
  · rename_i hn
    rw [String.toList_append, Nat.toList_repr,
      show (-n).toNat = n.natAbs by omega]
    rfl

/-- What a natural number is written with are digits. -/
theorem isDigit_of_mem_toDigits {k : Nat} (hc : c ∈ Nat.toDigits 10 k) :
    c.isDigit :=
  Nat.isDigit_of_mem_toDigits (by decide) (by decide) hc

/-- The text of an integer starts with a digit or with the sign. -/
theorem Token.first_integer (n : Int) :
    (Token.integer n).first = '-' ∨ (Token.integer n).first.isDigit := by
  rw [first, text_integer]
  split
  · obtain ⟨c, digits, heq⟩ :=
      List.exists_cons_of_ne_nil (Nat.toDigits_ne_nil (n := n.natAbs)
        (b := 10))
    refine .inr (isDigit_of_mem_toDigits (k := n.natAbs) ?_)
    rw [heq]
    exact List.mem_cons_self
  · exact .inl rfl

/-- No token is written with nothing, so that each can be told by its first
character. -/
theorem Token.text_ne_nil (t : Token) : t.text ≠ [] := by
  cases t with
  | mark m => exact List.cons_ne_nil _ _
  | integer n =>
      rw [text_integer]
      exact List.append_ne_nil_of_right_ne_nil _ Nat.toDigits_ne_nil
  | string s =>
      rw [text, toList_quote]
      exact List.cons_ne_nil _ _

/-- No digit is blank. -/
theorem isBlank_of_isDigit (hc : c.isDigit) : isBlank c = false := by
  have hne : ∀ d, d.isDigit = false → (c == d) = false := by
    intro d hd
    refine beq_false_of_ne fun heq => ?_
    rw [heq, hd] at hc
    cases hc
  rw [isBlank, hne ' ' (by decide), hne '\n' (by decide), hne '\t' (by decide),
    hne '\r' (by decide)]
  rfl

/-- No token begins with a blank. -/
theorem Token.isBlank_first (t : Token) : isBlank t.first = false := by
  cases t with
  | mark m => cases m <;> decide
  | integer n =>
      rcases first_integer n with h | h
      · rw [h]
        decide
      · exact isBlank_of_isDigit h
  | string s =>
      rw [first_string]
      decide

/-- The text of a token starts with what `first` says. -/
theorem Token.text_eq_cons (t : Token) : ∃ l, t.text = t.first :: l := by
  obtain ⟨c, l, heq⟩ := List.exists_cons_of_ne_nil t.text_ne_nil
  exact ⟨l, by rw [first, heq]; rfl⟩

/-- Behind the blanks a text begins with its first token. -/
theorem Layout.front (h : Layout (t :: ts) l) :
    Front t ts (l.dropWhile isBlank) := by
  generalize hus : t :: ts = us at h
  induction h with
  | done => cases hus
  | blank hc _ ih =>
      rw [List.dropWhile_cons_of_pos hc]
      exact ih hus
  | @token t' _ l hend h _ =>
      cases hus
      obtain ⟨rest, hrest⟩ := t.text_eq_cons
      refine ⟨l, ?_, hend, h⟩
      rw [hrest, List.cons_append, List.dropWhile_cons_of_neg]
      rw [t.isBlank_first]
      decide

/-- Behind the last token there are blanks only. -/
theorem Layout.dropWhile_eq_nil (h : Layout [] l) :
    l.dropWhile isBlank = [] := by
  generalize hts : [] = ts at h
  induction h with
  | done => rfl
  | blank hc _ ih =>
      rw [List.dropWhile_cons_of_pos hc]
      exact ih hts
  | token => cases hts

/-- There are no more tokens than characters. -/
theorem Layout.length_le (h : Layout ts l) : ts.length ≤ l.length := by
  induction h with
  | done => exact Nat.le_refl 0
  | blank _ _ ih => exact Nat.le_succ_of_le ih
  | @token t _ _ _ _ ih =>
      have := List.length_pos_of_ne_nil t.text_ne_nil
      rw [List.length_cons, List.length_append]
      omega

end

namespace Reader

variable {α β : Type} {r : Reader α} {f : α → Reader β} {a : α} {b : β}
  {P Q R : List Char → Prop} {t : Token} {ts us : List Token} {c : Char}
  {l m : List Char}

/-! ## From one kind of text to another -/

/-- On every text in `P` the reader answers `a`, and what it leaves is in
`Q`. -/
def Leads (P : List Char → Prop) (r : Reader α) (a : α) (Q : List Char → Prop) :
    Prop :=
  ∀ l, P l → ∃ m, r.run l = .ok (a, m) ∧ Q m

/-- A reader that takes nothing leads nowhere else. -/
theorem Leads.pure (a : α) : Leads P (Pure.pure a) a P :=
  fun l hl => ⟨l, rfl, hl⟩

/-- One reader after another: where the first leads, the second goes on. -/
theorem Leads.bind (hr : Leads P r a Q) (hf : Leads Q (f a) b R) :
    Leads P (r >>= f) b R := by
  intro l hl
  obtain ⟨m, hm, hQ⟩ := hr l hl
  obtain ⟨k, hk, hR⟩ := hf m hQ
  refine ⟨k, ?_, hR⟩
  rw [StateT.run_bind, hm]
  exact hk

/-- Looking at all that is left takes nothing. -/
theorem run_get_bind (f : List Char → Reader β) (l : List Char) :
    (get >>= f).run l = (f l).run l := rfl

/-- Looking at the next character takes nothing. -/
theorem run_look_bind (f : Option Char → Reader β) (l : List Char) :
    (look >>= f).run l = (f l.head?).run l := rfl

/-! ## Marks -/

/-- Peeking skips blanks and stops before the next character. -/
theorem run_peek (l : List Char) :
    peek.run l = .ok ((l.dropWhile isBlank).head?, l.dropWhile isBlank) := rfl

/-- The character that is looked at is that of the next token; blanks before it
are taken. -/
theorem leads_need : Leads (Layout (t :: ts)) need t.first (Front t ts) := by
  intro l hl
  have hfront := hl.front
  refine ⟨l.dropWhile isBlank, ?_, hfront⟩
  obtain ⟨m, hm, -⟩ := hfront
  obtain ⟨rest, hrest⟩ := t.text_eq_cons
  rw [need, StateT.run_bind, run_peek, hm, hrest]
  rfl

/-- A mark at the front is dropped. -/
theorem leads_drop {k : Mark} :
    Leads (Front (.mark k) ts) drop () (Layout ts) := by
  rintro l ⟨m, rfl, -, hm⟩
  exact ⟨m, rfl, hm⟩

/-- An expected mark is read if it comes next, blanks or not. -/
theorem leads_expect {k : Mark} :
    Leads (Layout (.mark k :: ts)) (expect k.char) () (Layout ts) := by
  refine leads_need.bind ?_
  have hfirst : (Token.mark k).first = k.char := rfl
  rw [if_pos hfirst]
  exact leads_drop

/-! ## Numbers -/

/-- More digits never make a number smaller. -/
theorem le_ofDigitChars (digits : List Char) (k : Nat) :
    k ≤ Nat.ofDigitChars 10 digits k := by
  rw [Nat.ofDigitChars_eq_ofDigitChars_zero]
  have hpos : 0 < 10 ^ digits.length := Nat.pow_pos (by decide)
  have := Nat.le_mul_of_pos_left k hpos
  omega

/-- Digits are appended as long as the number stays within 64 bits. -/
theorem appendDigits_eq {digits : List Char} {k : Nat}
    (h : Nat.ofDigitChars 10 digits k < 0x10000000000000000) :
    appendDigits k digits = (Nat.ofDigitChars 10 digits k, 0) := by
  induction digits generalizing k with
  | nil => rfl
  | cons d digits ih =>
      rw [Nat.ofDigitChars_cons] at h ⊢
      have hle := le_ofDigitChars digits (10 * k + (d.toNat - '0'.toNat))
      rw [appendDigits, if_pos (by omega), ih h]

/-- Only the numeral of zero begins with a zero. -/
theorem eq_zero_of_head?_toDigits {k : Nat}
    (h : (Nat.toDigits 10 k).head? = some '0') : k = 0 := by
  induction k using Nat.strongRecOn with
  | ind k ih =>
      by_cases hk : k < 10
      · rw [Nat.toDigits_of_lt_base hk] at h
        have hdigits : ∀ k < 10, Nat.digitChar k = '0' → k = 0 := by decide
        exact hdigits k hk (by simpa using h)
      · rw [Nat.toDigits_of_base_le (by decide) (by omega),
          List.head?_append_of_ne_nil _ Nat.toDigits_ne_nil] at h
        have := ih (k / 10) (by omega) h
        omega

section

variable {digits rest : List Char}

/-- Digits are read up to the end of the numeral, and none beyond it. -/
theorem run_digits (hdigits : ∀ c ∈ digits, c.isDigit)
    (hend : EndsNumeral rest) :
    Reader.digits.run (digits ++ rest) = .ok (digits, rest) := by
  have hstop : rest.takeWhile Char.isDigit = [] ∧
      rest.dropWhile Char.isDigit = rest := by
    cases rest with
    | nil => exact ⟨rfl, rfl⟩
    | cons c rest =>
        have hc : c.isDigit = false := (hend c rfl).1
        simp [hc]
  have htake : (digits ++ rest).takeWhile Char.isDigit = digits := by
    rw [List.takeWhile_append_of_pos hdigits, hstop.1, List.append_nil]
  have hdrop : (digits ++ rest).dropWhile Char.isDigit = rest := by
    rw [List.dropWhile_append_of_pos hdigits, hstop.2]
  show Except.ok ((digits ++ rest).takeWhile Char.isDigit,
    (digits ++ rest).dropWhile Char.isDigit) = _
  rw [htake, hdrop]

/-- The same where at least one digit must stand. -/
theorem run_someDigits (hne : digits ≠ []) (hdigits : ∀ c ∈ digits, c.isDigit)
    (hend : EndsNumeral rest) :
    someDigits.run (digits ++ rest) = .ok (digits, rest) := by
  obtain ⟨c, l, rfl⟩ := List.exists_cons_of_ne_nil hne
  have hc : c.isDigit := hdigits c List.mem_cons_self
  rw [someDigits, run_look_bind]
  show (if c.isDigit then Reader.digits
    else throw .malformed : Reader (List Char)).run _ = _
  rw [if_pos hc]
  exact run_digits hdigits hend

/-- A numeral that ends has no fraction. -/
theorem run_decimals? (hend : EndsNumeral rest) :
    decimals?.run rest = .ok (none, rest) := by
  rw [decimals?, run_look_bind, if_neg hend.head?_ne.1]
  rfl

/-- Nor has it an exponent. -/
theorem run_exponent? (hend : EndsNumeral rest) :
    exponent?.run rest = .ok (none, rest) := by
  rw [exponent?, run_look_bind]
  split
  · rename_i heq
    exact absurd heq hend.head?_ne.2.1
  · rename_i heq
    exact absurd heq hend.head?_ne.2.2
  · rfl

/-- An integer of 64 bits, signed or not, is read back from its digits without
being made a float. -/
theorem run_makeNumber {n : Int} (hlow : -0x8000000000000000 ≤ n)
    (hhigh : n < 0x10000000000000000) :
    (makeNumber (decide (n < 0)) (Nat.toDigits 10 n.natAbs) none none).run
        rest =
      .ok (.integer n, rest) := by
  have hdigits : appendDigits 0 (Nat.toDigits 10 n.natAbs) = (n.natAbs, 0) := by
    have hvalue := Nat.ofDigitChars_ten_toDigits (n := n.natAbs)
    rw [appendDigits_eq (by omega), hvalue]
  rw [makeNumber, hdigits]
  by_cases hn : n < 0
  · have hbounds :
        (decide (0 < n.natAbs) && decide (n.natAbs ≤ 0x8000000000000000)) =
          true := by
      simp
      omega
    have hneg : -(n.natAbs : Int) = n := by omega
    simp only [hn, decide_true, Option.isNone_none, Bool.and_self, if_true,
      Bool.not_true, Bool.false_eq_true, if_false, hbounds, hneg]
    rfl
  · have hpos : (n.natAbs : Int) = n := by omega
    simp only [hn, decide_false, decide_true, Option.isNone_none,
      Bool.and_self, if_true, Bool.not_false, hpos]
    rfl

/-- What follows the sign is taken with it. -/
theorem run_unsigned {n : Int} {negative : Prop} [Decidable negative]
    (hneg : negative ↔ n < 0) (hlow : -0x8000000000000000 ≤ n)
    (hhigh : n < 0x10000000000000000) (hend : EndsNumeral rest) :
    (do
      let whole ← someDigits
      if whole.head? = some '0' && whole.length != 1 then throw .malformed
      let fraction ← decimals?
      let exponent ← exponent?
      makeNumber (decide negative) whole fraction exponent : Reader Number).run
        (Nat.toDigits 10 n.natAbs ++ rest) = .ok (.integer n, rest) := by
  have hdigits : ∀ c ∈ Nat.toDigits 10 n.natAbs, c.isDigit := fun _ =>
    isDigit_of_mem_toDigits
  -- A zero in front is refused, unless it stands alone.
  have hzero : (decide ((Nat.toDigits 10 n.natAbs).head? = some '0') &&
      (Nat.toDigits 10 n.natAbs).length != 1) = false := by
    by_cases h : (Nat.toDigits 10 n.natAbs).head? = some '0'
    · rw [eq_zero_of_head?_toDigits h]
      rfl
    · simp [h]
  rw [StateT.run_bind, run_someDigits Nat.toDigits_ne_nil hdigits hend]
  show (if (decide ((Nat.toDigits 10 n.natAbs).head? = some '0') &&
      (Nat.toDigits 10 n.natAbs).length != 1) = true then _
    else _ : Reader Number).run rest = _
  rw [hzero, if_neg Bool.false_ne_true, StateT.run_bind, run_decimals? hend]
  show (exponent? >>= _ : Reader Number).run rest = _
  rw [StateT.run_bind, run_exponent? hend]
  show (makeNumber (decide negative) _ none none).run rest = _
  rw [decide_eq_decide.mpr hneg]
  exact run_makeNumber hlow hhigh

/-- **A numeral is taken as its number.** -/
theorem run_number {n : Int} (hlow : -0x8000000000000000 ≤ n)
    (hhigh : n < 0x10000000000000000) (hend : EndsNumeral rest) :
    number.run ((Token.integer n).text ++ rest) = .ok (.integer n, rest) := by
  rw [Token.text_integer, number, StateT.run_bind]
  by_cases hn : 0 ≤ n
  · obtain ⟨c, l, heq⟩ :=
      List.exists_cons_of_ne_nil (Nat.toDigits_ne_nil (n := n.natAbs)
        (b := 10))
    have hc : some c ≠ some '-' := by
      rintro ⟨⟩
      have hdash : ('-' : Char).isDigit :=
        isDigit_of_mem_toDigits (k := n.natAbs) (by simp [heq])
      exact absurd hdash (by decide)
    have hlook : look.run (Nat.toDigits 10 n.natAbs ++ rest) =
        .ok (some c, Nat.toDigits 10 n.natAbs ++ rest) := by
      rw [heq]
      rfl
    rw [if_pos hn, List.nil_append, hlook]
    show (if some c = some '-' then _ else _ : Reader Number).run _ = _
    rw [if_neg hc]
    exact run_unsigned (iff_of_false hc (by omega)) hlow hhigh hend
  · have hlook : look.run (['-'] ++ Nat.toDigits 10 n.natAbs ++ rest) =
        .ok (some '-', ['-'] ++ Nat.toDigits 10 n.natAbs ++ rest) := rfl
    rw [if_neg hn, hlook]
    exact run_unsigned (iff_of_true (rfl : some '-' = some '-') (by omega)) hlow
      hhigh hend

end

/-- **An integer within the bounds is taken as it is written.** -/
theorem leads_integer {n low high : Int} (hlow : low ≤ n) (hhigh : n ≤ high)
    (hmin : -0x8000000000000000 ≤ low) (hmax : high < 0x10000000000000000) :
    Leads (Layout (.integer n :: ts)) (integer low high) n (Layout ts) := by
  refine leads_need.bind ?_
  have hfirst :
      ((Token.integer n).first = '-' || (Token.integer n).first.isDigit) =
        true := by
    simpa using Token.first_integer n
  rw [if_pos hfirst]
  have hnumber :
      Leads (Front (.integer n) ts) number (.integer n) (Layout ts) := by
    rintro l ⟨m, rfl, hend, hm⟩
    exact ⟨m, run_number (by omega) (by omega) (hend n rfl), hm⟩
  refine hnumber.bind ?_
  simp only [hlow, hhigh, and_self, if_true]
  exact .pure n

/-! ## Strings -/

/-- A hexadecimal digit is read back, modulo sixteen. -/
theorem hexDigit?_hexDigit (k : Nat) :
    hexDigit? (Tree.hexDigit k) = some (k % 16) := by
  have hall : ∀ k < 16, hexDigit? (Nat.digitChar k) = some k := by decide
  exact hall (k % 16) (Nat.mod_lt k (by decide))

/-- A control character is what its number stands for. -/
theorem escape_control (hc : c.toNat < 0x20) :
    escape true ('u' :: '0' :: '0' :: Tree.hexDigit (c.toNat / 16) ::
      Tree.hexDigit c.toNat :: l) =
      .ok (c, l) := by
  have hzero : hexDigit? '0' = some 0 := rfl
  have hfour :
      hexFour ('0' :: '0' :: Tree.hexDigit (c.toNat / 16) ::
        Tree.hexDigit c.toNat :: l) =
      .ok (c.toNat, l) := by
    have hvalue : ((0 * 16 + 0) * 16 + c.toNat / 16 % 16) * 16 + c.toNat % 16 =
      c.toNat := by omega
    simp only [hexFour, hzero, hexDigit?_hexDigit, hvalue]
  rw [escape, if_pos rfl, hfour]
  simp only
  rw [if_pos (.inl (by omega)), Char.ofNat_toNat]

/-- An escape is read as the character that it stands for. -/
theorem stringBody_escape {e read : List Char}
    (h : escape true (e ++ l) = .ok (c, l)) :
    stringBody true read ('\\' :: (e ++ l)) =
      stringBody true (c :: read) l := by
  rw [stringBody]
  split
  · rename_i heq
    rw [h] at heq
    cases heq
  · rename_i heq
    rw [h] at heq
    cases heq
    rfl

/-- Any character but a quotation mark, a backslash and a control character is
read as it stands. -/
theorem stringBody_plain {read : List Char} (hquote : c ≠ '"')
    (hslash : c ≠ '\\')
    (hc : ¬ c.toNat < 0x20) : stringBody true read (c :: l) =
      stringBody true (c :: read) l := by
  rw [stringBody]
  · rw [if_neg hc]
  · exact fun heq => hquote heq
  · exact fun heq => hslash heq

/-- **A character is taken as it was before it was quoted.** -/
theorem stringBody_quoteChar (c : Char) (read l : List Char) :
    stringBody true read (Tree.quoteChar c ++ l) =
      stringBody true (c :: read) l := by
  have hescape : ∀ {e : List Char}, escape true (e ++ l) = .ok (c, l) →
      stringBody true read ('\\' :: e ++ l) = stringBody true (c :: read) l :=
    stringBody_escape
  unfold Tree.quoteChar
  split
  · exact hescape (e := ['"']) (by subst c; rfl)
  split
  · exact hescape (e := ['\\']) (by subst c; rfl)
  split
  · exact hescape (e := ['n']) (by subst c; rfl)
  split
  · exact hescape (e := ['r']) (by subst c; rfl)
  split
  · exact hescape (e := ['t']) (by subst c; rfl)
  split
  · exact hescape (e := ['b']) (by subst c; rfl)
  split
  · exact hescape (e := ['f']) (by subst c; rfl)
  split
  · rename_i hc
    exact hescape (e := ['u', '0', '0', _, _]) (escape_control hc)
  · rename_i hquote hslash _ _ _ _ _ hc
    exact stringBody_plain hquote hslash hc

/-- A string is read back up to the closing quotation mark, whatever was read
before. -/
theorem stringBody_quote (cs read l : List Char) :
    stringBody true read (cs.flatMap Tree.quoteChar ++ '"' :: l) =
      .ok (String.ofList (read.reverse ++ cs), l) := by
  induction cs generalizing read with
  | nil => rw [List.flatMap_nil, List.nil_append, stringBody, List.append_nil]
  | cons c cs ih =>
      rw [List.flatMap_cons, List.append_assoc, stringBody_quoteChar, ih,
        List.reverse_cons, List.append_assoc]
      rfl

/-- **A string is taken as it was before it was quoted.** -/
theorem leads_string {s : String} :
    Leads (Front (.string s) ts) (string true) s (Layout ts) := by
  have hopen : Leads (Front (.string s) ts) drop ()
      fun l => ∃ m, stringBody true [] l = .ok (s, m) ∧ Layout ts m := by
    rintro l ⟨m, rfl, -, hm⟩
    refine ⟨s.toList.flatMap Tree.quoteChar ++ '"' :: m, ?_, m, ?_, hm⟩
    · rw [Token.text, toList_quote, List.cons_append, List.append_assoc]
      rfl
    · rw [stringBody_quote, List.reverse_nil, List.nil_append,
        String.ofList_toList]
  refine hopen.bind ?_
  rintro l ⟨m, hbody, hm⟩
  refine ⟨m, ?_, hm⟩
  rw [run_get_bind, StateT.run_bind, hbody]
  rfl

end Reader

end ConstraintNet.Json
