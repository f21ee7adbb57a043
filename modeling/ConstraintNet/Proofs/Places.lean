import ConstraintNet.Proofs.Grammar

/-!
# Places in a spelling

What may follow the tokens that were read depends on little: how many bounds are
still to come, or how many integers a block still needs.  Such a place is left
by the next token, if that may stand there, and some places are those at which a
text may end.

The tokens of an instance lead from the first place to an end, and from every
place there is a way to an end.  Where the readers fail, they fail at the first
token that may not stand at its place, or because the text ends at a place that
is no end.
-/

namespace ConstraintNet.Instance

/-! ## Places -/

/-- What is still to come of a spelling. -/
inductive Place
  /-- The number of variables. -/
  | count
  /-- So many integers, and then the blocks. -/
  | bounds (missing : Nat)
  /-- So many integers of a block, and then pairs of values or the next
  block. -/
  | block (missing : Nat)
deriving DecidableEq

namespace Place

variable {p q : Place} {t : Token} {ts us : List Token} {k : Nat} {n : Int}

/-- The place after a token, if the token may stand at a place. -/
def next : Place → Token → Option Place
  | count, .integer n =>
    if 0 ≤ n ∧ n ≤ maxVariables then some (bounds (2 * n.toNat)) else none
  | bounds (k + 1), .integer _ => some (bounds k)
  | block (k + 1), .integer _ => some (block k)
  | block 0, .integer _ => some (block 1)
  | bounds 0, .word text => if text = "c" then some (block 2) else none
  | block 0, .word text => if text = "c" then some (block 2) else none
  | _, _ => none

/-- Whether a text may end at a place. -/
def IsEnd (p : Place) : Prop := p = bounds 0 ∨ p = block 0

/-- The place after some tokens. -/
def run (p : Place) (ts : List Token) : Option Place := ts.foldlM next p

/-- Tokens are followed from the first of them on. -/
theorem run_cons : p.run (t :: ts) = (p.next t).bind fun q => q.run ts := rfl

/-- The tokens of two texts are followed one text after the other, which is how
the parts of a spelling are put together. -/
theorem run_append : p.run (ts ++ us) = (p.run ts).bind fun q => q.run us :=
  List.foldlM_append

/-- What leads somewhere leads somewhere at every point. -/
theorem exists_run_early (h : us <+: ts) (hrun : p.run ts = some q) :
    ∃ r, p.run us = some r := by
  obtain ⟨rest, rfl⟩ := h
  rw [run_append] at hrun
  obtain ⟨r, hr, -⟩ := Option.bind_eq_some_iff.mp hrun
  exact ⟨r, hr⟩

/-- Where a text may end, a new block may begin instead. -/
theorem IsEnd.next_c (h : p.IsEnd) : p.next (.word "c") = some (block 2) := by
  rcases h with rfl | rfl <;> rfl

/-- No other word may stand there. -/
theorem IsEnd.next_word {text : String} (h : p.IsEnd) (htext : text ≠ "c") :
    p.next (.word text) = none := by
  rcases h with rfl | rfl <;> exact if_neg htext

/-! ## From the first place to an end -/

/-- The bounds of the variables, two integers each, use up what is missing of
them. -/
theorem run_bounds_pairTokens (l : List (Int × Int)) :
    (bounds (2 * l.length)).run (pairTokens l) = some (bounds 0) := by
  induction l with
  | nil => rfl
  | cons p l ih => exact ih

/-- Pairs of values leave the tokens where they were, at a point where the block
may end. -/
theorem run_block_pairTokens (l : List (Int × Int)) :
    (block 0).run (pairTokens l) = some (block 0) := by
  induction l with
  | nil => rfl
  | cons p l ih => exact ih

/-- Blocks lead from one place where a text may end to another. -/
theorem IsEnd.run_blocks (h : p.IsEnd) (blocks : List Block) :
    ∃ q, p.run (blocks.flatMap Block.spelled) = some q ∧ q.IsEnd := by
  induction blocks generalizing p with
  | nil => exact ⟨p, rfl, h⟩
  | cons b blocks ih =>
      obtain ⟨q, hq, hend⟩ := ih (p := block 0) (.inr rfl)
      refine ⟨q, ?_, hend⟩
      have hblock : p.run b.spelled = some (block 0) := by
        rw [Block.spelled, run_cons, h.next_c]
        exact run_block_pairTokens b.tuples
      rw [List.flatMap_cons, run_append, hblock]
      exact hq

/-- The spelling of an instance leads to an end. -/
theorem run_spelled {c : Instance} (hmax : c.count ≤ maxVariables) :
    ∃ q, count.run c.spelled = some q ∧ q.IsEnd := by
  obtain ⟨q, hq, hend⟩ := IsEnd.run_blocks (p := bounds 0) (.inl rfl) c.blocks
  refine ⟨q, ?_, hend⟩
  have hcount : count.next (.integer c.count) =
      some (bounds (2 * c.bounds.length)) :=
    if_pos ⟨by omega, by omega⟩
  rw [spelled, run_cons, hcount, Option.bind_some, run_append,
    run_bounds_pairTokens]
  exact hq

/-- There is a way to an end from every place, by zeros. -/
theorem exists_run_zeros (p : Place) :
    ∃ k q, p.run (List.replicate k (.integer 0)) = some q ∧ q.IsEnd := by
  cases p with
  | count => exact ⟨1, bounds 0, rfl, .inl rfl⟩
  | bounds k =>
      induction k with
      | zero => exact ⟨0, bounds 0, rfl, .inl rfl⟩
      | succ k ih =>
          obtain ⟨m, q, hq, hend⟩ := ih
          exact ⟨m + 1, q, hq, hend⟩
  | block k =>
      induction k with
      | zero => exact ⟨0, block 0, rfl, .inr rfl⟩
      | succ k ih =>
          obtain ⟨m, q, hq, hend⟩ := ih
          exact ⟨m + 1, q, hq, hend⟩

end Place

/-! ## Where reading stops -/

/-- From a place, with the latest token on `line`, the tokens come to a stop on
another line: at a token that may not stand at its place, or at the end of the
text, which may not end there. -/
inductive Stuck : Place → Nat → Tokens → Nat → Prop
  | token {p : Place} {line line' : Nat} {t : Token} {rest : Tokens}
      (h : p.next t = none) : Stuck p line ((line', t) :: rest) line'
  | ended {p : Place} {line : Nat} (h : ¬ p.IsEnd) : Stuck p line [] line
  | step {p q : Place} {line line' stop : Nat} {t : Token} {rest : Tokens}
      (hnext : p.next t = some q) (h : Stuck q line' rest stop) :
      Stuck p line ((line', t) :: rest) stop

section

variable {p q : Place} {line line' stop k i : Nat} {t : Token}
  {ts rest : Tokens}

/-- Tokens that stop do not lead to an end. -/
theorem Stuck.not_isEnd (h : Stuck p line ts stop)
    (hrun : p.run (ts.map Prod.snd) = some q) : ¬ q.IsEnd := by
  induction h with
  | token hnext =>
      rw [List.map_cons, Place.run_cons, hnext] at hrun
      cases hrun
  | ended hend =>
      cases hrun
      exact hend
  | step hnext _ ih =>
      rw [List.map_cons, Place.run_cons, hnext] at hrun
      exact ih hrun

/-- Tokens stop at one of them, the first that may not stand at its place, or at
their end. -/
theorem Stuck.token_or_end (h : Stuck p line ts stop) :
    (∃ front t rest q, ts = front ++ (stop, t) :: rest ∧
        p.run (front.map Prod.snd) = some q ∧
      q.next t = none) ∨
    (∃ q, p.run (ts.map Prod.snd) = some q) ∧
      stop = (ts.map Prod.fst).getLastD line := by
  induction h with
  | @token p _ line' t rest h => exact .inl ⟨[], t, rest, p, rfl, rfl, h⟩
  | @ended p => exact .inr ⟨⟨p, rfl⟩, rfl⟩
  | @step _ _ _ line' _ t _ hnext _ ih =>
      rcases ih with ⟨front, u, rest, r, rfl, hrun, hu⟩ | ⟨⟨r, hrun⟩, hstop⟩
      · refine .inl ⟨(line', t) :: front, u, rest, r, rfl, ?_, hu⟩
        rw [List.map_cons, Place.run_cons, hnext]
        exact hrun
      · refine .inr ⟨⟨r, ?_⟩, ?_⟩
        · rw [List.map_cons, Place.run_cons, hnext]
          exact hrun
        · rw [hstop, List.map_cons, List.getLastD_cons]

end

/-! ## Where the readers fail -/

/-- A refusal names the line on which the tokens stop. -/
def Fails (p : Place) (line : Nat) (ts : Tokens) (why : Refusal) : Prop :=
  ∃ stop problem, why = .unreadable stop problem ∧ Stuck p line ts stop

section

variable {p q : Place} {line line' k i n : Nat} {x : Int} {t : Token}
  {ts rest : Tokens} {read l : List (Int × Int)} {why : Refusal}
  {expected : Expectation} {b : Block}

/-- A token that may stand at its place passes the failure of what follows
on. -/
theorem Fails.step (hnext : p.next t = some q) (h : Fails q line' rest why) :
    Fails p line ((line', t) :: rest) why := by
  obtain ⟨stop, problem, hwhy, hstuck⟩ := h
  exact ⟨stop, problem, hwhy, .step hnext hstuck⟩

/-- Where no word may stand and no text may end, an integer is missing. -/
theorem fails_of_takeInteger (hword : ∀ text, p.next (.word text) = none)
    (hend : ¬ p.IsEnd) (h : takeInteger expected line ts = .error why) :
    Fails p line ts why := by
  unfold takeInteger at h
  split at h
  · cases h
  · cases h
    exact ⟨_, _, rfl, .token (hword _)⟩
  · cases h
    exact ⟨_, _, rfl, .ended hend⟩

/-- Such a place is left by an integer that is taken. -/
theorem Fails.of_takeInteger (hnext : p.next (.integer x) = some q)
    (htake : takeInteger expected line ts = .ok (x, line', rest))
    (h : Fails q line' rest why) : Fails p line ts why := by
  obtain rfl := takeInteger_eq_ok_iff.mp htake
  exact h.step hnext

/-- A text may not end while bounds are missing. -/
theorem not_isEnd_bounds_succ : ¬ (Place.bounds (k + 1)).IsEnd := by
  simp [Place.IsEnd]

/-- A text may not end while the two variables of a block are missing. -/
theorem not_isEnd_block_succ : ¬ (Place.block (k + 1)).IsEnd := by
  simp [Place.IsEnd]

/-- A failure to read bounds stops at the place of the bound that is missing. -/
theorem fails_of_takeBounds (h : takeBounds read i n line ts = .error why) :
    Fails (.bounds (2 * n)) line ts why := by
  induction n generalizing read i line ts with
  | zero => cases h
  | succ n ih =>
      rcases of_bind_eq_error h with hx | ⟨⟨x, line₁, ts₁⟩, hx, h₁⟩
      · exact fails_of_takeInteger (fun _ => rfl) not_isEnd_bounds_succ hx
      · refine .of_takeInteger (q := .bounds (2 * n + 1)) rfl hx ?_
        rcases of_bind_eq_error h₁ with hy | ⟨⟨y, line₂, ts₂⟩, hy, h₂⟩
        · exact fails_of_takeInteger (fun _ => rfl) not_isEnd_bounds_succ hy
        · exact .of_takeInteger (q := .bounds (2 * n)) rfl hy (ih h₂)

/-- Bounds that are read lead to the place behind them, and a failure from there
on is one of the whole. -/
theorem Fails.of_takeBounds
    (htake : takeBounds read i n line ts = .ok (l, line', rest))
    (h : Fails (.bounds 0) line' rest why) :
    Fails (.bounds (2 * n)) line ts why := by
  induction n generalizing read i line ts with
  | zero =>
      cases htake
      exact h
  | succ n ih =>
      obtain ⟨⟨x, line₁, ts₁⟩, hx, h₁⟩ := of_bind_eq_ok htake
      obtain ⟨⟨y, line₂, ts₂⟩, hy, h₂⟩ := of_bind_eq_ok h₁
      exact .of_takeInteger (q := .bounds (2 * n + 1)) rfl hx
        (.of_takeInteger (q := .bounds (2 * n)) rfl hy (ih h₂))

/-- A failure to read pairs is one to read the second value of a pair; a missing
first value merely ends the block. -/
theorem fails_of_takePairs (h : takePairs read line ts = .error why) :
    Fails (.block 0) line ts why := by
  fun_induction takePairs read line ts with
  | case1 read line _ x line' y ts ih =>
      exact .step (q := .block 1) rfl (.step (q := .block 0) rfl (ih h))
  | case2 =>
      cases h
      exact .step (q := .block 1) rfl ⟨_, _, rfl, .token rfl⟩
  | case3 =>
      cases h
      exact .step (q := .block 1) rfl ⟨_, _, rfl, .ended not_isEnd_block_succ⟩
  | case4 => cases h

/-- Pairs are read as long as integers follow. -/
theorem Fails.of_takePairs
    (htake : takePairs read line ts = .ok (l, line', rest))
    (h : ¬ StartsWithInteger (rest.map Prod.snd) →
      Fails (.block 0) line' rest why) : Fails (.block 0) line ts why := by
  fun_induction takePairs read line ts with
  | case1 read line _ x line' y ts ih =>
      exact .step (q := .block 1) rfl (.step (q := .block 0) rfl (ih htake))
  | case2 => cases htake
  | case3 => cases htake
  | case4 read line ts hpair hword hend =>
      cases htake
      refine h ?_
      intro hstarts
      obtain ⟨n, us, hstart⟩ := hstarts
      obtain ⟨line₁, ts, rfl, -⟩ := exists_cons_of_map_eq hstart
      rcases ts with _ | ⟨⟨line₂, y | text⟩, ts⟩
      · exact hend _ _ rfl
      · exact hpair _ _ _ _ _ rfl
      · exact hword _ _ _ _ _ rfl

/-- A failure to read a block is one of its two variables or of its pairs. -/
theorem fails_of_takeBlock (h : takeBlock line ts = .error why) :
    Fails (.block 2) line ts why := by
  rcases of_bind_eq_error h with hfirst | ⟨⟨first, line₁, ts₁⟩, hfirst, h₁⟩
  · exact fails_of_takeInteger (fun _ => rfl) not_isEnd_block_succ hfirst
  · refine .of_takeInteger (q := .block 1) rfl hfirst ?_
    rcases of_bind_eq_error h₁ with
      hsecond | ⟨⟨second, line₂, ts₂⟩, hsecond, h₂⟩
    · exact fails_of_takeInteger (fun _ => rfl) not_isEnd_block_succ hsecond
    · refine .of_takeInteger (q := .block 0) rfl hsecond ?_
      rcases of_bind_eq_error h₂ with htuples | ⟨_, _, h₃⟩
      · exact fails_of_takePairs htuples
      · cases h₃

/-- A block that is read leads to a place where a text may end, at which no
integer follows: the pairs were read to their end. -/
theorem Fails.of_takeBlock (htake : takeBlock line ts = .ok (b, line', rest))
    (h : ¬ StartsWithInteger (rest.map Prod.snd) →
      Fails (.block 0) line' rest why) : Fails (.block 2) line ts why := by
  obtain ⟨⟨first, line₁, ts₁⟩, hfirst, h₁⟩ := of_bind_eq_ok htake
  obtain ⟨⟨second, line₂, ts₂⟩, hsecond, h₂⟩ := of_bind_eq_ok h₁
  obtain ⟨⟨tuples, line₃, ts₃⟩, htuples, h₃⟩ := of_bind_eq_ok h₂
  cases h₃
  exact .of_takeInteger (q := .block 1) rfl hfirst
    (.of_takeInteger (q := .block 0) rfl hsecond (.of_takePairs htuples h))

/-- Blocks are read from an end at which no integer may stand or none does. -/
theorem fails_of_takeBlocks {read : List Block} (hp : p.IsEnd)
    (hstart : p = .block 0 → ¬ StartsWithInteger (ts.map Prod.snd))
    (h : takeBlocks n read ts = .error why) : ∀ line, Fails p line ts why := by
  fun_induction takeBlocks n read ts generalizing p with
  | case1 => cases h
  | case2 read line x rest =>
      cases h
      intro _
      rcases hp with rfl | rfl
      · exact ⟨_, _, rfl, .token rfl⟩
      · exact absurd ⟨x, _, rfl⟩ (hstart rfl)
  | case3 read line ts why' hblock =>
      cases h
      exact fun _ => .step hp.next_c (fails_of_takeBlock hblock)
  | case4 read line ts b line' rest hblock ih =>
      refine fun _ => .step hp.next_c (.of_takeBlock hblock fun hrest => ?_)
      exact ih (.inr rfl) (fun _ => hrest) h line'
  | case5 read line text ts htext =>
      cases h
      exact fun _ => ⟨_, _, rfl, .token (hp.next_word htext)⟩

/-- **Tokens are refused for the line on which they stop.** -/
theorem fails_of_ofTokens (h : ofTokens ts = .error why) :
    Fails .count 1 ts why := by
  rcases of_bind_eq_error h with hcount | ⟨⟨count, line, rest⟩, hcount, h₁⟩
  · exact fails_of_takeInteger (fun _ => rfl) (by simp [Place.IsEnd]) hcount
  · obtain rfl := takeInteger_eq_ok_iff.mp hcount
    simp only at h₁
    split at h₁
    · cases h₁
      exact ⟨_, _, rfl, .token (if_neg (by omega))⟩
    · split at h₁
      · cases h₁
        exact ⟨_, _, rfl, .token (if_neg (by omega))⟩
      · refine .of_takeInteger (q := .bounds (2 * count.toNat))
          (if_pos (by omega)) hcount ?_
        rcases of_bind_eq_error h₁ with
          hbounds | ⟨⟨bounds, line', rest'⟩, hbounds, h₂⟩
        · exact fails_of_takeBounds hbounds
        · refine .of_takeBounds hbounds ?_
          rcases of_bind_eq_error h₂ with hblocks | ⟨_, _, h₃⟩
          · exact fails_of_takeBlocks (.inl rfl) (fun h => nomatch h)
              hblocks line'
          · cases h₃

end

end ConstraintNet.Instance
