import ConstraintNet.Proofs.Tokens

/-!
# The grammar of instances

An instance is spelled by the number of its variables, the two bounds of each,
and for each block the word `c`, two indices and the values of its pairs.  No
mark separates the bounds from the blocks or ends a list of pairs: the count
tells how many bounds there are, and a list of pairs runs to the next word.

Each reader takes what spells its result, and nothing else, and what follows a
spelling is left for the next.  So a text is read as an instance just when its
pieces spell the instance.
-/

namespace ConstraintNet.Instance

/-! ## Spellings -/

/-- The tokens of pairs of integers. -/
def pairTokens (l : List (Int × Int)) : List Token :=
  l.flatMap fun (x, y) => [.integer x, .integer y]

/-- The tokens of a block. -/
def Block.spelled (b : Block) : List Token :=
  .word "c" :: .integer b.first :: .integer b.second :: pairTokens b.tuples

/-- The tokens of an instance. -/
def spelled (c : Instance) : List Token :=
  .integer c.count :: (pairTokens c.bounds ++ c.blocks.flatMap Block.spelled)

/-- A pair of values is two integers. -/
theorem pairTokens_cons (x y : Int) (l : List (Int × Int)) :
    pairTokens ((x, y) :: l) = .integer x :: .integer y :: pairTokens l := rfl

/-- Whether the next token is an integer. -/
def StartsWithInteger (ts : List Token) : Prop := ∃ n us, ts = .integer n :: us

/-- What follows a block does not begin with an integer. -/
theorem not_startsWithInteger_blocks (blocks : List Block) :
    ¬ StartsWithInteger (blocks.flatMap Block.spelled) := by
  intro hstart
  obtain ⟨n, us, h⟩ := hstart
  cases blocks with
  | nil => cases h
  | cons b blocks => cases h

/-! ## What the readers take -/

section

variable {expected : Expectation} {line line' n k : Nat} {x : Int}
  {ts rest : Tokens} {read l : List (Int × Int)} {tail : List Token} {b : Block}
  {blocks : List Block}

/-- An integer is taken if the next token is one, and its line goes with it. -/
theorem takeInteger_eq_ok_iff :
    takeInteger expected line ts = .ok (x, line', rest) ↔
    ts = (line', .integer x) :: rest := by
  constructor
  · intro h
    unfold takeInteger at h
    split at h
    · cases h
      rfl
    · cases h
    · cases h
  · intro h
    rw [h]
    rfl

/-- A first token has a line. -/
theorem exists_cons_of_map_eq {t : Token} (h : ts.map Prod.snd = t :: tail) :
    ∃ line rest, ts = (line, t) :: rest ∧ rest.map Prod.snd = tail := by
  obtain ⟨⟨line, u⟩, rest, rfl, rfl, hrest⟩ := List.map_eq_cons_iff.mp h
  exact ⟨line, rest, rfl, hrest⟩

/-- The bounds that are read are spelled, and there are as many as there should
be. -/
theorem of_takeBounds_eq_ok
    (h : takeBounds read n k line ts = .ok (l, line', rest)) :
    ∃ new, new.length = k ∧ l = read.reverse ++ new ∧
      ts.map Prod.snd = pairTokens new ++ rest.map Prod.snd := by
  induction k generalizing read n line ts with
  | zero =>
      cases h
      exact ⟨[], rfl, by simp, rfl⟩
  | succ k ih =>
      obtain ⟨⟨x, line₁, ts₁⟩, hx, h⟩ := of_bind_eq_ok h
      obtain ⟨⟨y, line₂, ts₂⟩, hy, h⟩ := of_bind_eq_ok h
      obtain rfl := takeInteger_eq_ok_iff.mp hx
      obtain rfl := takeInteger_eq_ok_iff.mp hy
      obtain ⟨new, hlength, rfl, hspelled⟩ := ih h
      refine ⟨(x, y) :: new, by simp [hlength], by simp, ?_⟩
      simp [pairTokens_cons, hspelled]

/-- So are the pairs. -/
theorem of_takePairs_eq_ok (h : takePairs read line ts = .ok (l, line', rest)) :
    ∃ new, l = read.reverse ++ new ∧
      ts.map Prod.snd = pairTokens new ++ rest.map Prod.snd := by
  fun_induction takePairs read line ts with
  | case1 read line _ x line₁ y ts ih =>
      obtain ⟨new, rfl, hspelled⟩ := ih h
      exact ⟨(x, y) :: new, by simp, by simp [pairTokens_cons, hspelled]⟩
  | case2 => cases h
  | case3 => cases h
  | case4 =>
      cases h
      exact ⟨[], by simp, rfl⟩

/-- A block that begins with two integers goes on with its pairs. -/
theorem takeBlock_integers {y : Int} :
    takeBlock n ((line, .integer x) :: (line', .integer y) :: ts) = (do
      let (tuples, line, tokens) ← takePairs [] line' ts
      return ({ first := x, second := y, tuples }, line, tokens)) := rfl

/-- A block that is read is spelled, but for the word that was read before. -/
theorem of_takeBlock_eq_ok (h : takeBlock line ts = .ok (b, line', rest)) :
    .word "c" :: ts.map Prod.snd = b.spelled ++ rest.map Prod.snd := by
  obtain ⟨⟨first, line₁, ts₁⟩, hfirst, h₁⟩ := of_bind_eq_ok h
  obtain ⟨⟨second, line₂, ts₂⟩, hsecond, h₂⟩ := of_bind_eq_ok h₁
  obtain ⟨⟨tuples, line₃, ts₃⟩, htuples, h₃⟩ := of_bind_eq_ok h₂
  obtain rfl := takeInteger_eq_ok_iff.mp hfirst
  obtain rfl := takeInteger_eq_ok_iff.mp hsecond
  obtain ⟨new, rfl, hspelled⟩ := of_takePairs_eq_ok htuples
  cases h₃
  simp [Block.spelled, hspelled]

/-- The blocks that are read are spelled, and nothing follows them. -/
theorem of_takeBlocks_eq_ok {read l : List Block}
    (h : takeBlocks k read ts = .ok l) :
    ∃ new, l = read.reverse ++ new ∧
      ts.map Prod.snd = new.flatMap Block.spelled := by
  fun_induction takeBlocks k read ts with
  | case1 =>
      cases h
      exact ⟨[], by simp, rfl⟩
  | case2 => cases h
  | case3 => cases h
  | case4 read line ts b line' rest hblock ih =>
      obtain ⟨new, rfl, hspelled⟩ := ih h
      refine ⟨b :: new, by simp, ?_⟩
      rw [List.flatMap_cons, ← hspelled, ← of_takeBlock_eq_ok hblock]
      rfl
  | case5 => cases h

end

/-! ## What is taken

A spelling is taken with what follows it left.  The pairs of a block need what
follows not to
begin with an integer, which it would take as well.
-/

section

variable {line n k : Nat} {ts : Tokens} {read new : List (Int × Int)}
  {tail : List Token} {b : Block}

/-- Bounds are taken as they are spelled, whatever follows. -/
theorem takeBounds_of_spelled (hlength : new.length = k)
    (h : ts.map Prod.snd = pairTokens new ++ tail) :
    ∃ line' rest, takeBounds read n k line ts =
        .ok (read.reverse ++ new, line', rest) ∧
      rest.map Prod.snd = tail := by
  induction new generalizing read n k line ts with
  | nil =>
      subst hlength
      exact ⟨line, ts, by simp [takeBounds], h⟩
  | cons p new ih =>
      obtain ⟨x, y⟩ := p
      subst hlength
      obtain ⟨line₁, ts₁, rfl, h₁⟩ := exists_cons_of_map_eq h
      obtain ⟨line₂, ts₂, rfl, h₂⟩ := exists_cons_of_map_eq h₁
      obtain ⟨line', rest, hrest, htail⟩ :=
        @ih line₂ (n + 1) _ ts₂ ((x, y) :: read) rfl h₂
      refine ⟨line', rest, ?_, htail⟩
      rw [List.reverse_cons, List.append_assoc] at hrest
      exact hrest

/-- Pairs are taken as they are spelled, if no integer follows: one would begin
another pair. -/
theorem takePairs_of_spelled (htail : ¬ StartsWithInteger tail)
    (h : ts.map Prod.snd = pairTokens new ++ tail) :
    ∃ line' rest, takePairs read line ts =
        .ok (read.reverse ++ new, line', rest) ∧
      rest.map Prod.snd = tail := by
  induction new generalizing read line ts with
  | nil =>
      refine ⟨line, ts, ?_, h⟩
      rw [List.append_nil]
      rcases ts with _ | ⟨⟨line', x | word⟩, ts⟩
      · rfl
      · exact absurd ⟨x, _, h.symm⟩ htail
      · rfl
  | cons p new ih =>
      obtain ⟨x, y⟩ := p
      obtain ⟨line₁, ts₁, rfl, h₁⟩ := exists_cons_of_map_eq h
      obtain ⟨line₂, ts₂, rfl, h₂⟩ := exists_cons_of_map_eq h₁
      obtain ⟨line', rest, hrest, htail⟩ := @ih line₂ ts₂ ((x, y) :: read) h₂
      refine ⟨line', rest, ?_, htail⟩
      rw [List.reverse_cons, List.append_assoc] at hrest
      exact hrest

/-- A block is taken as it is spelled, under the same condition on what
follows. -/
theorem takeBlock_of_spelled (htail : ¬ StartsWithInteger tail)
    (h : .word "c" :: ts.map Prod.snd = b.spelled ++ tail) :
    ∃ line' rest, takeBlock line ts = .ok (b, line', rest) ∧
      rest.map Prod.snd = tail := by
  obtain ⟨line₁, ts₁, rfl, h₁⟩ := exists_cons_of_map_eq (List.cons.inj h).2
  obtain ⟨line₂, ts₂, rfl, h₂⟩ := exists_cons_of_map_eq h₁
  obtain ⟨line', rest, hrest, htail⟩ :=
    @takePairs_of_spelled line₂ ts₂ [] _ _ htail h₂
  refine ⟨line', rest, ?_, htail⟩
  rw [takeBlock_integers, hrest]
  rfl

/-- What spells blocks is read as those blocks. -/
theorem takeBlocks_of_spelled {read new : List Block}
    (h : ts.map Prod.snd = new.flatMap Block.spelled) :
    takeBlocks k read ts = .ok (read.reverse ++ new) := by
  induction new generalizing read ts with
  | nil =>
      rw [List.map_eq_nil_iff.mp h, takeBlocks, List.append_nil]
  | cons b new ih =>
      rw [List.flatMap_cons] at h
      obtain ⟨line, ts, rfl, h₁⟩ := exists_cons_of_map_eq h
      obtain ⟨line', rest, hblock, hrest⟩ := @takeBlock_of_spelled line ts _ b
        (not_startsWithInteger_blocks new) (congrArg _ h₁)
      rw [takeBlocks, if_pos rfl]
      split
      · rename_i hwhy
        rw [hblock] at hwhy
        cases hwhy
      · rename_i hok
        rw [hblock] at hok
        cases hok
        rw [ih hrest, List.reverse_cons, List.append_assoc]
        rfl

end

/-! ## Instances -/

section

variable {ts : Tokens} {c : Instance} {text : String}

/-- Behind the number of variables come their bounds and then the blocks. The
number is checked before anything else is read. -/
theorem ofTokens_integer {line : Nat} {count : Int} :
    ofTokens ((line, .integer count) :: ts) =
      if count < 0 then .error (.unreadable line (.negativeCount count))
      else if maxVariables < count.toNat then
        .error (.unreadable line (.countTooLarge count.toNat maxVariables))
      else do
        let (bounds, _, tokens) ← takeBounds [] 0 count.toNat line ts
        let blocks ← takeBlocks count.toNat [] tokens
        return { bounds, blocks } := rfl

/-- What reading an instance came through. -/
theorem of_ofTokens_eq_ok (h : ofTokens ts = .ok c) :
    ∃ count line rest line' rest',
        ts = (line, .integer count) :: rest ∧ 0 ≤ count ∧
      count.toNat ≤ maxVariables ∧
      takeBounds [] 0 count.toNat line rest = .ok (c.bounds, line', rest') ∧
      takeBlocks count.toNat [] rest' = .ok c.blocks := by
  obtain ⟨⟨count, line, rest⟩, hcount, h₁⟩ := of_bind_eq_ok h
  refine ⟨count, line, rest, ?_⟩
  simp only at h₁
  split at h₁
  · cases h₁
  · rename_i hnonneg
    split at h₁
    · cases h₁
    · rename_i hmax
      obtain ⟨⟨bounds, line', rest'⟩, hbounds, h₂⟩ := of_bind_eq_ok h₁
      obtain ⟨blocks, hblocks, h₃⟩ := of_bind_eq_ok h₂
      obtain rfl : ⟨bounds, blocks⟩ = c := Except.ok.inj h₃
      exact ⟨line', rest', takeInteger_eq_ok_iff.mp hcount,
        Int.not_lt.mp hnonneg, Nat.not_lt.mp hmax, hbounds, hblocks⟩

/-- **Tokens are read as an instance just when they spell it.** -/
theorem ofTokens_eq_ok_iff :
    ofTokens ts = .ok c ↔ c.count ≤ maxVariables ∧
    ts.map Prod.snd = c.spelled := by
  constructor
  · intro h
    obtain ⟨count, line, rest, line', rest', rfl, hnonneg, hmax, hbounds,
        hblocks⟩ :=
      of_ofTokens_eq_ok h
    obtain ⟨bounds, hlength, hread, hspelled⟩ := of_takeBounds_eq_ok hbounds
    obtain ⟨blocks, hread', hspelled'⟩ := of_takeBlocks_eq_ok hblocks
    rw [List.reverse_nil, List.nil_append] at hread hread'
    have hcount : (c.count : Int) = count := by
      rw [Instance.count, hread, hlength, Int.toNat_of_nonneg hnonneg]
    refine ⟨by omega, ?_⟩
    rw [spelled, hcount, List.map_cons, hspelled, hspelled', hread, hread']
  · intro h
    obtain ⟨hmax, h⟩ := h
    obtain ⟨line, ts, rfl, h₁⟩ := exists_cons_of_map_eq h
    obtain ⟨line', rest, hbounds, hrest⟩ :=
      @takeBounds_of_spelled line 0 _ ts [] _ _ rfl h₁
    have hblocks := @takeBlocks_of_spelled c.count rest [] c.blocks hrest
    have hnonneg : ¬ (c.count : Int) < 0 := by omega
    rw [ofTokens_integer, if_neg hnonneg, Int.toNat_natCast,
      if_neg (Nat.not_lt.mpr hmax),
      show takeBounds [] 0 c.count line ts = _ from hbounds]
    simp only [bind, Except.bind, hblocks]
    rfl

/-- Pieces that spell tokens do so on their lines. -/
theorem exists_spellsAt_iff {ps : List (Nat × List Char)} {us : List Token} :
    (∃ ts, List.Forall₂ SpellsAt ps ts ∧ ts.map Prod.snd = us) ↔
      List.Forall₂ Spells (ps.map Prod.snd) us := by
  constructor
  · intro h
    obtain ⟨ts, hts, rfl⟩ := h
    rw [List.forall₂_map_left_iff, List.forall₂_map_right_iff]
    exact hts.imp fun _ _ h => h.2
  · intro h
    induction ps generalizing us with
    | nil =>
        cases h
        exact ⟨[], .nil, rfl⟩
    | cons p ps ih =>
        cases h with
        | @cons _ t _ us hp hps =>
            obtain ⟨ts, hts, rfl⟩ := ih hps
            exact ⟨(p.1, t) :: ts, .cons ⟨rfl, hp⟩ hts, rfl⟩

/-- **A text is read as an instance just when its pieces spell it.** -/
theorem read_eq_ok_iff_spells :
    read text = .ok c ↔ c.count ≤ maxVariables ∧
      List.Forall₂ Spells ((Text.pieces text.toList).map Prod.snd)
        c.spelled := by
  rw [← exists_spellsAt_iff]
  constructor
  · intro h
    obtain ⟨ts, hts, hc⟩ := of_bind_eq_ok h
    obtain ⟨hmax, hspelled⟩ := ofTokens_eq_ok_iff.mp hc
    exact ⟨hmax, ts, tokens_eq_ok_iff.mp hts, hspelled⟩
  · intro h
    obtain ⟨hmax, ts, hts, hspelled⟩ := h
    rw [read, tokens_eq_ok_iff.mpr hts]
    exact ofTokens_eq_ok_iff.mpr ⟨hmax, hspelled⟩

/-- **A text is read as an instance just when it is laid out as a spelling of
it**: the number of its variables, which is at most the greatest that is
allowed, two bounds of each, and for each block the word `c`, two indices and an
even number of values.  An integer may be spelled by any numeral, but must fit
into 64 bits. -/
theorem read_eq_ok_iff_layout :
    read text = .ok c ↔ c.count ≤ maxVariables ∧
      ∃ ps, Text.Layout 1 text.toList ps ∧
      List.Forall₂ Spells (ps.map Prod.snd) c.spelled := by
  rw [read_eq_ok_iff_spells]
  constructor
  · intro h
    obtain ⟨hmax, hspells⟩ := h
    exact ⟨hmax, _, Text.pieces_eq_iff.mp rfl, hspells⟩
  · intro h
    obtain ⟨hmax, ps, hlayout, hspells⟩ := h
    rw [Text.pieces_eq_iff.mpr hlayout]
    exact ⟨hmax, hspells⟩

end

end ConstraintNet.Instance
