import ConstraintNet.Instance.Printer
import ConstraintNet.Proofs.Grammar

/-!
# Printed instances

The text of an instance is laid out in lines that hold the pieces of its
spelling, with every integer in the numeral that the core library writes: a
comment, the count, a line for each pair of bounds, and for each block a line of
its indices and a line for each pair of values.

A text that holds those pieces in any layout is read as the instance, and so is
the text that is printed.
-/

namespace ConstraintNet

/-! ## Words on lines -/

namespace Text

/-- A piece without separators and slashes. -/
structure IsWord (word : List Char) : Prop where
  ne_nil : word ≠ []
  not_isSeparator : ∀ c ∈ word, isSeparator c = false
  slash_notMem : '/' ∉ word

variable {word line text : List Char} {words words' : List (List Char)}
  {c : Char} {n : Int}

/-- No comment begins within a word. -/
theorem not_infix_of_slash_notMem (h : '/' ∉ word) :
    ¬ ['/', '/'] <:+: word ++ line.take 1 := by
  induction word with
  | nil =>
      intro hwithin
      have hle := hwithin.length_le
      have hone := List.length_take_le 1 line
      simp only [List.nil_append, List.length_cons, List.length_nil] at hle
      omega
  | cons c word ih =>
      obtain ⟨hc, hword⟩ := not_or.mp (mt List.mem_cons.mpr h)
      rw [List.cons_append, List.infix_cons_iff, not_or]
      exact ⟨fun hslashes => hc (prefix_slashes_iff.mp hslashes).1.symm,
        ih hword⟩

/-- The end of a line is a separator, and no word goes across it. -/
theorem IsWord.newline_notMem (h : IsWord word) : '\n' ∉ word :=
  fun hmem => absurd (h.not_isSeparator _ hmem) (by decide)

/-- A word may stand before a separator. -/
theorem LineLayout.firstWord (hword : IsWord word) (hc : isSeparator c)
    (h : LineLayout line words) :
    LineLayout (word ++ c :: line) (word :: words) :=
  .piece hword.ne_nil hword.not_isSeparator (.inr (.inl ⟨c, line, rfl, hc⟩))
    (not_infix_of_slash_notMem hword.slash_notMem) (.separator hc h)

/-- A word may end a line. -/
theorem LineLayout.lastWord (hword : IsWord word) : LineLayout word [word] := by
  have h : LineLayout (word ++ []) [word] :=
    .piece hword.ne_nil hword.not_isSeparator (.inl rfl)
      (not_infix_of_slash_notMem hword.slash_notMem) .done
  rwa [List.append_nil] at h

/-- Digits lie between the separators. -/
theorem isSeparator_of_isDigit (h : c.isDigit) : isSeparator c = false := by
  have hblank : ∀ range ∈ blankRanges, range.2 < 48 ∨ 57 < range.1 := by decide
  obtain ⟨hlow, hhigh⟩ := isDigit_iff.mp h
  have hne : ∀ d : Char, d.toNat < 48 → c ≠ d := by
    intro d hd heq
    rw [heq] at hlow
    omega
  have hnone : isBlank c = false := by
    rw [isBlank, List.any_eq_false]
    intro range hrange
    have := hblank range hrange
    simp
    omega
  rw [isSeparator, hnone, beq_false_of_ne (hne ',' (by decide)),
    beq_false_of_ne (hne '(' (by decide)),
    beq_false_of_ne (hne ')' (by decide))]
  rfl

/-- A character of a numeral is a sign or a digit. -/
theorem Numeral.of_mem (h : Numeral word n) (hc : c ∈ word) :
    c = '+' ∨ c = '-' ∨ c.isDigit := by
  cases h with
  | plain hne hdigits => exact .inr (.inr (hdigits c hc))
  | plus hne hdigits =>
      rcases List.mem_cons.mp hc with rfl | hc
      · exact .inl rfl
      · exact .inr (.inr (hdigits c hc))
  | minus hne hdigits =>
      rcases List.mem_cons.mp hc with rfl | hc
      · exact .inr (.inl rfl)
      · exact .inr (.inr (hdigits c hc))

/-- A numeral is a word: it has a digit, no separator and no slash. -/
theorem Numeral.isWord (h : Numeral word n) : IsWord word where
  ne_nil := by
    obtain ⟨c, hc, -⟩ := h.exists_digit
    exact List.ne_nil_of_mem hc
  not_isSeparator c hc := by
    rcases h.of_mem hc with rfl | rfl | hdigit
    · decide
    · decide
    · exact isSeparator_of_isDigit hdigit
  slash_notMem hmem := by
    rcases h.of_mem hmem with h | h | h
    · exact absurd h (by decide)
    · exact absurd h (by decide)
    · exact absurd h (by decide)

/-! ## Lines of a text -/

/-- A text holds these pieces, wherever it begins. -/
def Holds (text : List Char) (words : List (List Char)) : Prop :=
  ∀ k, ∃ ps, Layout k text ps ∧ ps.map Prod.snd = words

theorem Holds.nil : Holds [] [] := fun _ => ⟨_, .last (by simp) .done, rfl⟩

/-- A line holds its pieces before those of the lines below. -/
theorem Holds.cons (hline : '\n' ∉ line) (h : LineLayout line words)
    (hrest : Holds text words') :
    Holds (line ++ '\n' :: text) (words ++ words') := by
  intro k
  obtain ⟨ps, hps, rfl⟩ := hrest (k + 1)
  exact ⟨_, .line hline h hps, by simp [Function.comp_def]⟩

/-- An empty line adds no pieces, only one to the count of lines. -/
theorem Holds.emptyLine (h : Holds text words) :
    Holds ('\n' :: text) words := by
  have hline : Holds ([] ++ '\n' :: text) ([] ++ words) :=
    .cons List.not_mem_nil .done h
  exact hline

end Text

/-! ## The printed text -/

namespace Instance

open Text

/-- How a token is written. -/
def Token.spelling : Token → List Char
  | .integer n => n.repr.toList
  | .word text => text.toList

/-- An integer is printed as a numeral of its own value. -/
theorem numeral_repr (n : Int) : Numeral n.repr.toList n :=
  readInt?_eq_some_iff.mp (readInt?_repr n)

/-- The letter that begins a block is a word. -/
theorem isWord_c : IsWord ['c'] where
  ne_nil := List.cons_ne_nil _ _
  not_isSeparator := List.forall_mem_singleton.mpr (by decide)
  slash_notMem := by decide

section

variable {text : List Char} {words : List (List Char)}

/-- The line of a pair holds its two integers. -/
theorem holds_pairLine (x y : Int) (h : Holds text words) :
    Holds ((s!"{x}, {y}\n").toList ++ text)
      (x.repr.toList :: y.repr.toList :: words) := by
  have hx := (numeral_repr x).isWord
  have hy := (numeral_repr y).isWord
  have hline : LineLayout (x.repr.toList ++ ',' :: ' ' :: y.repr.toList)
      [x.repr.toList, y.repr.toList] :=
    .firstWord hx (by decide) (.separator (by decide) (.lastWord hy))
  have hnew : '\n' ∉ x.repr.toList ++ ',' :: ' ' :: y.repr.toList := by
    simp [hx.newline_notMem, hy.newline_notMem]
  have htext : (s!"{x}, {y}\n").toList ++ text =
      (x.repr.toList ++ ',' :: ' ' :: y.repr.toList) ++ '\n' :: text := by
    simp [toString]
  rw [htext]
  exact .cons hnew hline h

/-- Each pair of a block is a line of two numerals, in front of the rest of the
text. -/
theorem holds_pairLines (l : List (Int × Int)) (h : Holds text words) :
    Holds ((pairLines l).toList ++ text)
      ((pairTokens l).map Token.spelling ++ words) := by
  induction l with
  | nil => exact h
  | cons p l ih =>
      obtain ⟨x, y⟩ := p
      have htext : (pairLines ((x, y) :: l)).toList =
          (s!"{x}, {y}\n").toList ++ (pairLines l).toList := by
        simp [pairLines]
      rw [htext, List.append_assoc]
      exact holds_pairLine x y ih

/-- A block begins with an empty line and the line of its indices. -/
theorem holds_block (b : Block) (h : Holds text words) :
    Holds (b.text.toList ++ text) (b.spelled.map Token.spelling ++ words) := by
  have hfirst := (numeral_repr b.first).isWord
  have hsecond := (numeral_repr b.second).isWord
  have hline : LineLayout
      ('c' :: '(' ::
        (b.first.repr.toList ++ ',' :: ' ' :: (b.second.repr.toList ++ [')'])))
      [['c'], b.first.repr.toList, b.second.repr.toList] :=
    .firstWord isWord_c (by decide)
      (.firstWord hfirst (by decide) (.separator (by decide)
      (.firstWord hsecond (by decide) .done)))
  have hnew : '\n' ∉
      'c' :: '(' ::
        (b.first.repr.toList ++ ',' :: ' ' ::
          (b.second.repr.toList ++ [')'])) := by
    simp [hfirst.newline_notMem, hsecond.newline_notMem]
  have htext : b.text.toList ++ text = '\n' ::
      ('c' :: '(' ::
        (b.first.repr.toList ++ ',' :: ' ' ::
          (b.second.repr.toList ++ [')'])) ++
        '\n' :: ((pairLines b.tuples).toList ++ text)) := by
    simp [Block.text, toString]
  rw [htext]
  have hrest := Holds.cons hnew hline (holds_pairLines b.tuples h)
  exact hrest.emptyLine

/-- Each block is a line with its letter and its two variables, and a line for
each of its pairs. -/
theorem holds_blocks (l : List Block) :
    Holds (String.join (l.map Block.text)).toList
      ((l.flatMap Block.spelled).map Token.spelling) := by
  induction l with
  | nil => exact .nil
  | cons b l ih =>
      have htext : (String.join ((b :: l).map Block.text)).toList =
          b.text.toList ++ (String.join (l.map Block.text)).toList := by
        simp
      rw [htext, List.flatMap_cons, List.map_append]
      exact holds_block b ih

/-- **The text of an instance holds its spelling.** -/
theorem holds_text (c : Instance) :
    Holds c.text.toList (c.spelled.map Token.spelling) := by
  have hcount := (numeral_repr c.count).isWord
  have hnew : '\n' ∉ '/' :: '/' :: ' ' ::
      ((c.count : Int).repr.toList ++ " variables".toList) := by
    simp [hcount.newline_notMem]
  have htext : c.text.toList =
      '/' :: '/' :: ' ' ::
        ((c.count : Int).repr.toList ++ " variables".toList) ++
        '\n' :: ((c.count : Int).repr.toList ++ '\n' ::
          ((pairLines c.bounds).toList ++
          (String.join (c.blocks.map Block.text)).toList)) := by
    have hrepr : (c.count : Int).repr = c.count.repr := rfl
    simp [Instance.text, toString, hrepr]
  rw [htext, spelled, List.map_cons, List.map_append]
  exact .cons hnew (.comment _) (.cons hcount.newline_notMem (.lastWord hcount)
    (holds_pairLines c.bounds (holds_blocks c.blocks)))

end

/-! ## Reading what is printed -/

section

variable {c : Instance} {t : Token} {piece : List Char}

/-- A token that can be spelled is spelled as it is written. -/
theorem Spells.spelling (h : Spells piece t) : Spells t.spelling t := by
  cases h with
  | @integer n _ hn => exact .integer (numeral_repr n) hn
  | word hletters =>
      rw [Token.spelling, String.toList_ofList]
      exact .word hletters

/-- Tokens that have some spelling are spelled by the one that is printed. -/
theorem forall₂_spelling {ts : List Token}
    (h : ∀ t ∈ ts, ∃ piece, Spells piece t) :
    List.Forall₂ Spells (ts.map Token.spelling) ts := by
  rw [List.forall₂_map_left_iff, List.forall₂_same]
  intro t ht
  obtain ⟨piece, hpiece⟩ := h t ht
  exact hpiece.spelling

/-- A text whose pieces are those of an instance is read as the instance. -/
theorem read_of_pieces {text : String} (hmax : c.count ≤ maxVariables)
    (hspellable : ∀ t ∈ c.spelled, ∃ piece, Spells piece t)
    (h : (pieces text.toList).map Prod.snd = c.spelled.map Token.spelling) :
    read text = .ok c := by
  refine read_eq_ok_iff_spells.mpr ⟨hmax, ?_⟩
  rw [h]
  exact forall₂_spelling hspellable

/-- The pieces of the printed text are what the tokens of the instance print
as. -/
theorem pieces_text (c : Instance) :
    (pieces c.text.toList).map Prod.snd = c.spelled.map Token.spelling := by
  obtain ⟨ps, hlayout, hps⟩ := holds_text c 1
  rw [pieces_eq_iff.mpr hlayout, hps]

/-- The integers of an instance fit into 64 bits, and there are no more
variables than there may be.  Nothing else is asked of bounds, indices and
values. -/
structure Representable (c : Instance) : Prop where
  count_le : c.count ≤ maxVariables
  bounds : ∀ p ∈ c.bounds, isInt64 p.1 ∧ isInt64 p.2
  blocks : ∀ b ∈ c.blocks, isInt64 b.first ∧ isInt64 b.second ∧
    ∀ p ∈ b.tuples, isInt64 p.1 ∧ isInt64 p.2

/-- An integer of 64 bits has a spelling; others are not read. -/
theorem exists_spells_integer {n : Int} (hn : isInt64 n) :
    ∃ piece, Spells piece (.integer n) :=
  ⟨_, .integer (numeral_repr n) hn⟩

/-- So have the numbers of a list of pairs, if all are of 64 bits. -/
theorem exists_spells_of_mem_pairTokens {l : List (Int × Int)}
    (hl : ∀ p ∈ l, isInt64 p.1 ∧ isInt64 p.2) (ht : t ∈ pairTokens l) :
    ∃ piece, Spells piece t := by
  obtain ⟨⟨x, y⟩, hp, ht⟩ := List.mem_flatMap.mp ht
  obtain ⟨hx, hy⟩ := hl _ hp
  simp only [List.mem_cons, List.not_mem_nil, or_false] at ht
  rcases ht with rfl | rfl
  · exact exists_spells_integer hx
  · exact exists_spells_integer hy

/-- Every token of a representable instance can be spelled. -/
theorem Representable.exists_spells (hc : c.Representable)
    (ht : t ∈ c.spelled) : ∃ piece, Spells piece t := by
  rcases List.mem_cons.mp ht with rfl | ht
  · refine exists_spells_integer ?_
    have hmax := hc.count_le
    simp only [isInt64, maxVariables, Bool.and_eq_true, decide_eq_true_eq]
      at hmax ⊢
    omega
  · rcases List.mem_append.mp ht with ht | ht
    · exact exists_spells_of_mem_pairTokens hc.bounds ht
    · obtain ⟨b, hb, ht⟩ := List.mem_flatMap.mp ht
      obtain ⟨hfirst, hsecond, htuples⟩ := hc.blocks b hb
      simp only [Block.spelled, List.mem_cons] at ht
      rcases ht with rfl | rfl | rfl | ht
      · exact ⟨['c'], .word (List.forall_mem_singleton.mpr (by decide))⟩
      · exact exists_spells_integer hfirst
      · exact exists_spells_integer hsecond
      · exact exists_spells_of_mem_pairTokens htuples ht

/-- **An instance is read from any text that holds its pieces**, however these
are laid out, and in particular from the text that is printed. -/
theorem read_of_layout (hc : c.Representable) :
    (∀ text ps, Layout 1 text.toList ps →
        ps.map Prod.snd = c.spelled.map Token.spelling →
      read text = .ok c) ∧
    (∃ ps, Layout 1 c.text.toList ps ∧
      ps.map Prod.snd = c.spelled.map Token.spelling) ∧
    read c.text = .ok c := by
  refine ⟨fun text ps hlayout hps => ?_, holds_text c 1, ?_⟩
  · rw [← pieces_eq_iff.mpr hlayout] at hps
    exact read_of_pieces hc.count_le (fun t ht => hc.exists_spells ht) hps
  · exact read_of_pieces hc.count_le (fun t ht => hc.exists_spells ht)
      (pieces_text c)

/-- Bounds the wrong way round and an index that names no variable, in a layout
with a comment behind a piece and a pair across two lines. -/
theorem read_of_layout_of_one :
    (⟨[(9223372036854775807, -9223372036854775808)], [⟨7, 0, [(1, 2)]⟩]⟩ :
        Instance).Representable ∧
      read "1// c\n9223372036854775807(-9223372036854775808)c,7\t0 1\n\n//\n2" =
        .ok ⟨[(9223372036854775807, -9223372036854775808)],
          [⟨7, 0, [(1, 2)]⟩]⟩ := by
  have hc : (⟨[(9223372036854775807, -9223372036854775808)],
      [⟨7, 0, [(1, 2)]⟩]⟩ : Instance).Representable :=
    ⟨by decide, by decide, by decide⟩
  refine ⟨hc, (read_of_layout hc).1 _ _ (pieces_eq_iff.mp rfl) ?_⟩
  decide +kernel

end

end Instance

end ConstraintNet
