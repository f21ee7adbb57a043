import Mathlib.Data.List.Infix
import ConstraintNet.Text.Pieces

/-!
# The layout of a text

A text is laid out in lines.  On a line stand pieces and separators, in any
order and number, as long as something stands between two pieces; a comment may
end the line.  `Layout` says this without an algorithm, and tells for each piece
the line on which it stands.

Every text has a layout, and the pieces that it is cut into are those of its
layout.  So there is no more to a text than its layout shows: neither the
separators nor the comments nor the ends of lines matter beyond the numbers of
the lines.
-/

namespace ConstraintNet.Text

/-- The characters `line` of one line hold the pieces `words`. -/
inductive LineLayout : List Char → List (List Char) → Prop
  | done : LineLayout [] []
  | separator {c : Char} {line : List Char} {words : List (List Char)}
      (hc : isSeparator c)
      (h : LineLayout line words) : LineLayout (c :: line) words
  /-- A comment runs to the end of the line. -/
  | comment (note : List Char) : LineLayout ('/' :: '/' :: note) []
  /-- A piece runs to a separator, to a comment or to the end of the line, and
  no comment begins within it. -/
  | piece {word line : List Char} {words : List (List Char)} (hne : word ≠ [])
      (hword : ∀ c ∈ word, isSeparator c = false)
      (hend : line = [] ∨ (∃ c rest, line = c :: rest ∧ isSeparator c) ∨
        ['/', '/'] <+: line)
      (hcomment : ¬ ['/', '/'] <:+: word ++ line.take 1)
      (h : LineLayout line words) :
      LineLayout (word ++ line) (word :: words)

/-- A text whose first line has the number `k` holds the pieces of a list, each
with the number of its line. -/
inductive Layout : Nat → List Char → List (Nat × List Char) → Prop
  | last {k : Nat} {line : List Char} {words : List (List Char)}
      (hline : '\n' ∉ line)
      (h : LineLayout line words) : Layout k line (words.map (k, ·))
  | line {k : Nat} {line text : List Char} {words : List (List Char)}
      {pieces : List (Nat × List Char)} (hline : '\n' ∉ line)
      (h : LineLayout line words)
      (hrest : Layout (k + 1) text pieces) :
      Layout k (line ++ '\n' :: text) (words.map (k, ·) ++ pieces)

/-! ## Cutting -/

section

variable {α : Type} {p : α → Bool} {a : α} {l front : List α}

theorem cut_nil : cut p [] = [[]] := rfl

/-- A member that is cut at ends a part that is empty so far. -/
theorem cut_cons_of_pos (ha : p a) : cut p (a :: l) = [] :: cut p l := by
  rw [cut, List.foldr_cons, if_pos ha]
  rfl

/-- Any other member goes in front of the first part. -/
theorem cut_cons_of_neg {part : List α} {parts : List (List α)}
    (ha : p a = false) (hl : cut p l = part :: parts) :
    cut p (a :: l) = (a :: part) :: parts := by
  have hl' : l.foldr _ [[]] = part :: parts := hl
  rw [cut, List.foldr_cons, hl', if_neg (by simp [ha])]

/-- What passes no test stays in front of the first part. -/
theorem cut_append {part : List α} {parts : List (List α)}
    (hfront : ∀ a ∈ front, p a = false) (hl : cut p l = part :: parts) :
    cut p (front ++ l) = (front ++ part) :: parts := by
  induction front with
  | nil => exact hl
  | cons a front ih =>
      have hrest := ih fun b hb => hfront b (List.mem_cons_of_mem _ hb)
      exact cut_cons_of_neg (hfront a List.mem_cons_self) hrest

/-- A list without members that are cut at is one part. -/
theorem cut_of_forall (hfront : ∀ a ∈ front, p a = false) :
    cut p front = [front] := by
  have h := cut_append (l := []) hfront cut_nil
  rwa [List.append_nil] at h

/-- A part ends at the first element that passes the test. -/
theorem cut_append_cons (hfront : ∀ a ∈ front, p a = false) (ha : p a) :
    cut p (front ++ a :: l) = front :: cut p l := by
  rw [cut_append hfront (cut_cons_of_pos ha), List.append_nil]

end

/-! ## Comments -/

section

variable {c : Char} {l word line : List Char}

/-- A comment begins at two slashes. -/
theorem prefix_slashes_iff :
    ['/', '/'] <+: c :: l ↔ c = '/' ∧ l.head? = some '/' := by
  cases l <;> simp [eq_comm]

/-- A comment has nothing in front of it. -/
theorem beforeComment_comment (note : List Char) :
    beforeComment [] ('/' :: '/' :: note) = [] := rfl

/-- A character that begins no comment is kept. -/
theorem beforeComment_cons (h : ¬ ['/', '/'] <+: c :: l) :
    beforeComment [] (c :: l) = c :: beforeComment [] l := by
  rw [beforeComment.eq_def]
  split
  · rename_i note heq
    rw [heq] at h
    exact absurd (List.prefix_append ['/', '/'] note) h
  · rename_i heq
    cases heq
  · rename_i heq
    cases heq
    rw [beforeComment_eq]
    rfl

/-- So is a piece in which no comment begins. -/
theorem beforeComment_append
    (hcomment : ¬ ['/', '/'] <:+: word ++ line.take 1) :
    beforeComment [] (word ++ line) = word ++ beforeComment [] line := by
  induction word with
  | nil => rfl
  | cons c word ih =>
      rw [List.cons_append, List.infix_cons_iff, not_or] at hcomment
      obtain ⟨hfirst, hrest⟩ := hcomment
      -- Whether a comment begins at a character is decided by the next one.
      have hnext : (word ++ line.take 1).head? = (word ++ line).head? := by
        cases word <;> cases line <;> rfl
      have hfirst' : ¬ ['/', '/'] <+: c :: (word ++ line) := by
        rwa [prefix_slashes_iff, ← hnext, ← prefix_slashes_iff]
      rw [List.cons_append, beforeComment_cons hfirst', ih hrest,
        List.cons_append]

/-- A separator begins no comment. -/
theorem not_prefix_of_isSeparator (hc : isSeparator c) :
    ¬ ['/', '/'] <+: c :: l := by
  intro h
  rw [(prefix_slashes_iff.mp h).1] at hc
  exact absurd hc (by decide)

end

/-! ## One line -/

section

variable {c : Char} {word line : List Char} {words : List (List Char)}

/-- A separator in front adds no piece. -/
theorem linePieces_separator (hc : isSeparator c) :
    linePieces (c :: line) = linePieces line := by
  rw [linePieces, beforeComment_cons (not_prefix_of_isSeparator hc),
    cut_cons_of_pos hc]
  rfl

/-- A line that begins with a comment has no pieces. -/
theorem linePieces_comment (note : List Char) :
    linePieces ('/' :: '/' :: note) = [] := rfl

/-- A word in front is a piece of its own, if the line ends there, a separator
follows or a comment begins, and not before. -/
theorem linePieces_piece (hne : word ≠ [])
    (hword : ∀ c ∈ word, isSeparator c = false)
    (hend : line = [] ∨ (∃ c rest, line = c :: rest ∧ isSeparator c) ∨
      ['/', '/'] <+: line)
    (hcomment : ¬ ['/', '/'] <:+: word ++ line.take 1) :
    linePieces (word ++ line) = word :: linePieces line := by
  have hlone : (cut isSeparator word).filter (fun piece => !piece.isEmpty) =
      [word] := by
    rw [cut_of_forall hword, List.filter_cons_of_pos (by simpa using hne),
      List.filter_nil]
  rw [linePieces, beforeComment_append hcomment]
  rcases hend with rfl | ⟨c, rest, rfl, hc⟩ | ⟨note, rfl⟩
  · rw [linePieces, beforeComment, List.reverse_nil, List.append_nil, hlone]
    rfl
  · rw [linePieces_separator hc,
      beforeComment_cons (not_prefix_of_isSeparator hc),
      cut_append_cons hword hc, List.filter_cons_of_pos (by simpa using hne)]
    rfl
  · rw [List.cons_append, List.cons_append, List.nil_append, linePieces_comment,
      beforeComment_comment, List.append_nil, hlone]

/-- A line is cut into the pieces of its layout. -/
theorem LineLayout.linePieces_eq (h : LineLayout line words) :
    linePieces line = words := by
  induction h with
  | done => rfl
  | separator hc _ ih => rw [linePieces_separator hc, ih]
  | comment note => exact linePieces_comment note
  | piece hne hword hend hcomment _ ih =>
      rw [linePieces_piece hne hword hend hcomment, ih]

/-- Where neither a separator nor a comment begins, a piece does. -/
theorem exists_piece (hc : isSeparator c = false)
    (hcomment : ¬ ['/', '/'] <+: c :: line) :
    ∃ word rest, c :: line = word ++ rest ∧ word ≠ [] ∧
      (∀ d ∈ word, isSeparator d = false) ∧
      (rest = [] ∨ (∃ d r, rest = d :: r ∧ isSeparator d) ∨
        ['/', '/'] <+: rest) ∧
      ¬ ['/', '/'] <:+: word ++ rest.take 1 := by
  have hlone : ∀ d ∈ [c], isSeparator d = false := fun d hd =>
    List.mem_singleton.mp hd ▸ hc
  induction line generalizing c with
  | nil =>
      refine ⟨[c], [], rfl, by simp, hlone, .inl rfl, ?_⟩
      intro h
      have := h.length_le
      simp at this
  | cons d line ih =>
      have hpair : ¬ ['/', '/'] <:+: [c, d] := by
        intro h
        have heq : ['/', '/'] = [c, d] := h.eq_of_length rfl
        cases heq
        exact hcomment (List.prefix_append ['/', '/'] line)
      by_cases hd : isSeparator d
      · exact ⟨[c], d :: line, rfl, by simp, hlone,
          .inr (.inl ⟨d, line, rfl, hd⟩), hpair⟩
      · by_cases hnext : ['/', '/'] <+: d :: line
        · exact ⟨[c], d :: line, rfl, by simp, hlone, .inr (.inr hnext), hpair⟩
        · have hd' : isSeparator d = false := Bool.eq_false_iff.mpr hd
          obtain ⟨word, rest, heq, hne, hword, hend, hinside⟩ :=
            ih hd' hnext fun e he => List.mem_singleton.mp he ▸ hd'
          obtain ⟨e, word, rfl⟩ := List.exists_cons_of_ne_nil hne
          obtain ⟨rfl, -⟩ := List.cons.inj heq
          refine ⟨c :: d :: word, rest, by rw [heq]; rfl, by simp, ?_, hend, ?_⟩
          · exact List.forall_mem_cons.mpr ⟨hc, hword⟩
          · rw [List.cons_append, List.infix_cons_iff, not_or]
            refine ⟨fun h => hcomment ?_, hinside⟩
            obtain ⟨hfirst, hnext⟩ := prefix_slashes_iff.mp h
            exact prefix_slashes_iff.mpr ⟨hfirst, hnext⟩

/-- Every line has a layout. -/
theorem exists_lineLayout (line : List Char) :
    ∃ words, LineLayout line words := by
  induction hn : line.length using Nat.strongRecOn generalizing line with
  | ind n ih =>
      cases line with
      | nil => exact ⟨[], .done⟩
      | cons c line =>
          by_cases hc : isSeparator c
          · obtain ⟨words, h⟩ := ih line.length (by rw [← hn]; simp) line rfl
            exact ⟨words, .separator hc h⟩
          · by_cases hcomment : ['/', '/'] <+: c :: line
            · obtain ⟨note, hnote⟩ := hcomment
              exact ⟨[], hnote ▸ .comment note⟩
            · obtain ⟨word, rest, heq, hne, hword, hend, hinside⟩ :=
                exists_piece (Bool.eq_false_iff.mpr hc) hcomment
              have hlt : rest.length < n := by
                have := List.length_pos_of_ne_nil hne
                rw [← hn, heq, List.length_append]
                omega
              obtain ⟨words, h⟩ := ih rest.length hlt rest rfl
              exact ⟨word :: words, heq ▸ .piece hne hword hend hinside h⟩

end

/-! ## All lines -/

section

variable {k : Nat} {text : List Char} {ps : List (Nat × List Char)}

/-- The pieces of a text whose first line has the number `k`. -/
def piecesFrom (k : Nat) (text : List Char) : List (Nat × List Char) :=
  ((cut (· == '\n') text).zipIdx k).flatMap fun (line, k) =>
    (linePieces line).map (k, ·)

/-- A text is cut into the pieces of its layout. -/
theorem Layout.piecesFrom_eq (h : Layout k text ps) :
    piecesFrom k text = ps := by
  have hnone : ∀ {line : List Char}, '\n' ∉ line →
      ∀ c ∈ line, (c == '\n') = false := by
    intro line hline c hc
    exact beq_false_of_ne fun heq => hline (heq ▸ hc)
  induction h with
  | last hline h =>
      rw [piecesFrom, cut_of_forall (hnone hline)]
      simp [h.linePieces_eq]
  | line hline h _ ih =>
      rw [piecesFrom] at ih ⊢
      rw [cut_append_cons (hnone hline) (beq_self_eq_true _), List.zipIdx_cons,
        List.flatMap_cons, ih]
      simp only [h.linePieces_eq]

/-- Every text has a layout. -/
theorem exists_layout (k : Nat) (text : List Char) :
    ∃ ps, Layout k text ps := by
  induction text generalizing k with
  | nil => exact ⟨_, .last (by simp) .done⟩
  | cons c text ih =>
      by_cases hc : c = '\n'
      · subst hc
        obtain ⟨ps, h⟩ := ih (k + 1)
        exact ⟨_, .line List.not_mem_nil .done h⟩
      · have hfirst : ∀ {line : List Char}, '\n' ∉ line → '\n' ∉ c :: line :=
          fun hline => List.not_mem_cons_of_ne_of_not_mem (Ne.symm hc) hline
        obtain ⟨ps, h⟩ := ih k
        cases h with
        | last hline _ =>
            obtain ⟨words, h⟩ := exists_lineLayout (c :: text)
            exact ⟨_, .last (hfirst hline) h⟩
        | @line _ line rest _ _ hline _ hrest =>
            obtain ⟨words, h⟩ := exists_lineLayout (c :: line)
            exact ⟨_, .line (hfirst hline) h hrest⟩

/-- **A text is cut into the pieces of a list just when it has that layout.** -/
theorem pieces_eq_iff : pieces text = ps ↔ Layout 1 text ps := by
  constructor
  · intro h
    obtain ⟨qs, hqs⟩ := exists_layout 1 text
    have heq : piecesFrom 1 text = qs := hqs.piecesFrom_eq
    rwa [← h, show pieces text = qs from heq]
  · exact fun h => h.piecesFrom_eq

end

end ConstraintNet.Text
