import ConstraintNet.Proofs.Places
import ConstraintNet.Proofs.Printing

/-!
# Where a text is misread

A text that is not read as an instance is refused for one of three reasons.  A
piece may be neither an integer of 64 bits nor a word; then the line of the
first such piece is named.  Or some tokens at the beginning of the text begin no
text that is read; then the line is that of the last of them, for as few of them
as possible.  Or the text merely ends too early; then it is the line of its last
token, if there is one, and else the first.

Which tokens begin a text that is read is said of the reader itself.  They are
those that lead from the first place to some place, since there is always a way
on to an end, and what leads to an end is read.
-/

namespace ConstraintNet.Instance

/-- Tokens that a text spells that is read as an instance. -/
def Accepted (ts : List Token) : Prop :=
  ∃ text ps c, Text.Layout 1 text.toList ps ∧
    List.Forall₂ Spells (ps.map Prod.snd) ts ∧
    read text = .ok c

/-- Tokens that go on to accepted ones. -/
def Promising (ts : List Token) : Prop := ∃ rest, Accepted (ts ++ rest)

/-- A text with these pieces is misread on line `k`. -/
inductive Misread (ps : List (Nat × List Char)) : Nat → Prop
  /-- The first piece that spells no token stands there. -/
  | piece {front rest : List (Nat × List Char)} {k : Nat} {piece : List Char}
      (hps : ps = front ++ (k, piece) :: rest)
      (hfront : ∀ p ∈ front, ∃ t, Spells p.2 t)
      (hpiece : ¬ ∃ t, Spells piece t) : Misread ps k
  /-- The token there is the last of the fewest that are not promising. -/
  | token {front rest : Tokens} {k : Nat} {t : Token}
      (hts : List.Forall₂ SpellsAt ps (front ++ (k, t) :: rest))
      (hfront : ∀ early, early <+: front.map Prod.snd → Promising early)
      (ht : ¬ Promising (front.map Prod.snd ++ [t])) : Misread ps k
  /-- All tokens are promising, and the last of them stands there. -/
  | ended {ts : Tokens} (hts : List.Forall₂ SpellsAt ps ts)
      (hpromising : ∀ early, early <+: ts.map Prod.snd → Promising early) :
      Misread ps ((ts.map Prod.fst).getLastD 1)

section

variable {ts us : List Token} {t : Token} {c : Instance}
  {ps : List (Nat × List Char)} {k k' : Nat}

/-! ## Promising tokens -/

/-- A piece spells one token at most. -/
theorem Spells.unique : Relator.RightUnique Spells := by
  intro piece t t' h h'
  rw [← ofPiece?_eq_some_iff] at h h'
  exact Option.some.inj (h.symm.trans h')

/-- What is accepted spells an instance. -/
theorem Accepted.exists_spelled (h : Accepted ts) :
    ∃ c : Instance, c.count ≤ maxVariables ∧ ts = c.spelled := by
  obtain ⟨text, ps, c, hlayout, hts, hread⟩ := h
  obtain ⟨hmax, hspelled⟩ := read_eq_ok_iff_spells.mp hread
  rw [Text.pieces_eq_iff.mpr hlayout] at hspelled
  exact ⟨c, hmax, Spells.unique.forall₂ hts hspelled⟩

/-- An instance all of whose tokens can be spelled is accepted, since its text
is read. -/
theorem accepted_spelled (hmax : c.count ≤ maxVariables)
    (hspellable : ∀ t ∈ c.spelled, ∃ piece, Spells piece t) :
    Accepted c.spelled := by
  obtain ⟨ps, hlayout, hps⟩ := holds_text c 1
  refine ⟨c.text, ps, c, hlayout, ?_,
    read_of_pieces hmax hspellable (pieces_text c)⟩
  rw [hps]
  exact forall₂_spelling hspellable

/-- What begins a promising text is promising. -/
theorem Promising.early (h : Promising ts) (hearly : us <+: ts) :
    Promising us := by
  obtain ⟨rest, rfl⟩ := hearly
  obtain ⟨rest', h⟩ := h
  exact ⟨rest ++ rest', by rwa [← List.append_assoc]⟩

/-- Promising tokens lead somewhere. -/
theorem Promising.exists_run (h : Promising ts) :
    ∃ q, Place.count.run ts = some q := by
  obtain ⟨rest, h⟩ := h
  obtain ⟨c, hmax, hspelled⟩ := h.exists_spelled
  obtain ⟨q, hq, -⟩ := Place.run_spelled hmax
  rw [← hspelled] at hq
  exact Place.exists_run_early (List.prefix_append ts rest) hq

/-- What leads to an end is read. -/
theorem exists_eq_spelled_of_run {q : Place} (h : Place.count.run ts = some q)
    (hend : q.IsEnd) :
    ∃ c : Instance, c.count ≤ maxVariables ∧ ts = c.spelled := by
  have hmap : (ts.map fun t => (1, t)).map Prod.snd =
    ts := by simp [Function.comp_def]
  cases hread : ofTokens (ts.map fun t => (1, t)) with
  | ok c =>
      obtain ⟨hmax, hspelled⟩ := ofTokens_eq_ok_iff.mp hread
      exact ⟨c, hmax, hmap ▸ hspelled⟩
  | error why =>
      obtain ⟨stop, problem, -, hstuck⟩ := fails_of_ofTokens hread
      rw [← hmap] at h
      exact absurd hend (hstuck.not_isEnd h)

/-- **Tokens that lead somewhere are promising**, if each can be spelled. -/
theorem promising_of_run {p : Place} (h : Place.count.run ts = some p)
    (hspellable : ∀ t ∈ ts, ∃ piece, Spells piece t) : Promising ts := by
  obtain ⟨m, q, hq, hend⟩ := p.exists_run_zeros
  have hrun : Place.count.run (ts ++ List.replicate m (.integer 0)) =
      some q := by
    rw [Place.run_append, h]
    exact hq
  obtain ⟨c, hmax, hspelled⟩ := exists_eq_spelled_of_run hrun hend
  refine ⟨List.replicate m (.integer 0),
    hspelled ▸ accepted_spelled hmax fun t ht => ?_⟩
  rw [← hspelled] at ht
  rcases List.mem_append.mp ht with ht | ht
  · exact hspellable t ht
  · obtain rfl := List.eq_of_mem_replicate ht
    exact exists_spells_integer (by decide)

end

/-! ## The line of a misreading -/

section

variable {ts : Tokens} {ps : List (Nat × List Char)} {k k' : Nat}
  {text : String} {why : Refusal}

/-- A piece spells one token at most. -/
theorem SpellsAt.unique : Relator.RightUnique SpellsAt := by
  intro p t t' h h'
  exact Prod.ext (h.1.symm.trans h'.1) (Spells.unique h.2 h'.2)

/-- Pieces of which one spells no token have no tokens. -/
theorem not_forall₂_spellsAt {front rest : List (Nat × List Char)}
    {piece : List Char} (hps : ps = front ++ (k, piece) :: rest)
    (hpiece : ¬ ∃ t, Spells piece t) : ¬ List.Forall₂ SpellsAt ps ts := by
  intro hts
  obtain ⟨t, -, ht⟩ :=
    exists_mem_of_forall₂ hts (hps ▸ List.mem_append_cons_self)
  exact hpiece ⟨t.2, ht.2⟩

/-- Each of the tokens comes from a piece that spells it. -/
theorem exists_spells_of_mem (hts : List.Forall₂ SpellsAt ps ts) {t : Token}
    (ht : t ∈ ts.map Prod.snd) : ∃ piece, Spells piece t := by
  obtain ⟨u, hu, rfl⟩ := List.mem_map.mp ht
  obtain ⟨p, -, hp⟩ := exists_mem_of_forall₂ hts.flip hu
  exact ⟨p.2, hp.2⟩

/-- The first element without a property is determined. -/
theorem eq_of_first {α : Type} {P : α → Prop} {a a' : α}
    {front front' rest rest' : List α}
    (h : front ++ a :: rest = front' ++ a' :: rest') (hfront : ∀ b ∈ front, P b)
    (ha : ¬ P a) (hfront' : ∀ b ∈ front', P b) (ha' : ¬ P a') : a = a' := by
  induction front generalizing front' with
  | nil =>
      cases front' with
      | nil => exact (List.cons.inj h).1
      | cons b front' =>
          obtain ⟨rfl, -⟩ := List.cons.inj h
          exact absurd (hfront' _ List.mem_cons_self) ha
  | cons b front ih =>
      obtain ⟨hb, hrest⟩ := List.forall_mem_cons.mp hfront
      cases front' with
      | nil =>
          obtain ⟨rfl, -⟩ := List.cons.inj h
          exact absurd hb ha'
      | cons b' front' =>
          exact ih (List.cons.inj h).2 hrest (List.forall_mem_cons.mp hfront').2

/-- Of promising tokens, none is the last of some that are not promising. -/
theorem promising_of_mem_append {front rest : Tokens} {u : Nat × Token}
    (h : ∀ early,
      early <+: (front ++ u :: rest).map Prod.snd → Promising early) :
    Promising (front.map Prod.snd ++ [u.2]) :=
  h _ ⟨rest.map Prod.snd, by simp⟩

/-- The last of the fewest tokens that are not promising is determined. -/
theorem eq_of_not_promising {front front' rest rest' : Tokens}
    {u u' : Nat × Token} (heq : front ++ u :: rest = front' ++ u' :: rest')
    (hfront : ∀ early, early <+: front.map Prod.snd → Promising early)
    (hu : ¬ Promising (front.map Prod.snd ++ [u.2]))
    (hfront' : ∀ early, early <+: front'.map Prod.snd → Promising early)
    (hu' : ¬ Promising (front'.map Prod.snd ++ [u'.2])) : u = u' := by
  rcases List.append_eq_append_iff.mp heq with ⟨l, rfl, hl⟩ | ⟨l, rfl, hl⟩
  · cases l with
    | nil => exact (List.cons.inj hl).1
    | cons v l =>
        obtain ⟨rfl, -⟩ := List.cons.inj hl
        exact absurd (promising_of_mem_append hfront') hu
  · cases l with
    | nil => exact (List.cons.inj hl).1.symm
    | cons v l =>
        obtain ⟨rfl, -⟩ := List.cons.inj hl
        exact absurd (promising_of_mem_append hfront) hu'

/-- The line of a misreading is determined, and so the three cases exclude each
other. -/
theorem Misread.unique (h : Misread ps k) (h' : Misread ps k') : k = k' := by
  cases h with
  | piece hps hfront hpiece =>
      cases h' with
      | piece hps' hfront' hpiece' =>
          exact congrArg Prod.fst
            (eq_of_first (P := fun p => ∃ t, Spells p.2 t) (hps ▸ hps')
            hfront hpiece hfront' hpiece')
      | token hts => exact absurd hts (not_forall₂_spellsAt hps hpiece)
      | ended hts => exact absurd hts (not_forall₂_spellsAt hps hpiece)
  | token hts hfront ht =>
      cases h' with
      | piece hps hfront' hpiece =>
          exact absurd hts (not_forall₂_spellsAt hps hpiece)
      | token hts' hfront' ht' =>
          have heq := SpellsAt.unique.forall₂ hts hts'
          exact congrArg Prod.fst
            (eq_of_not_promising heq hfront ht hfront' ht')
      | ended hts' hpromising =>
          obtain rfl := SpellsAt.unique.forall₂ hts hts'
          exact absurd (promising_of_mem_append hpromising) ht
  | ended hts hpromising =>
      cases h' with
      | piece hps hfront' hpiece =>
          exact absurd hts (not_forall₂_spellsAt hps hpiece)
      | token hts' hfront' ht' =>
          obtain rfl := SpellsAt.unique.forall₂ hts hts'
          exact absurd (promising_of_mem_append hpromising) ht'
      | ended hts' => rw [SpellsAt.unique.forall₂ hts hts']

/-- Tokens that are refused are misread on the line that is named. -/
theorem exists_misread_of_ofTokens (hts : List.Forall₂ SpellsAt ps ts)
    (h : ofTokens ts = .error why) :
    ∃ line problem, why = .unreadable line problem ∧ Misread ps line := by
  have hpromising : ∀ {early us q}, us <+: ts.map Prod.snd →
      Place.count.run us = some q →
      early <+: us → Promising early := by
    intro early us q hus hrun hearly
    refine (promising_of_run hrun fun t ht => ?_).early hearly
    exact exists_spells_of_mem hts (hus.mem ht)
  obtain ⟨line, problem, rfl, hstuck⟩ := fails_of_ofTokens h
  refine ⟨line, problem, rfl, ?_⟩
  rcases hstuck.token_or_end with
    ⟨front, t, rest, q, rfl, hrun, hnext⟩ | ⟨⟨q, hrun⟩, rfl⟩
  · refine .token hts (fun early hearly => hpromising ?_ hrun hearly)
      fun hnot => ?_
    · rw [List.map_append]
      exact List.prefix_append _ _
    · obtain ⟨r, hr⟩ := hnot.exists_run
      rw [Place.run_append, hrun, Option.bind_some, Place.run_cons, hnext] at hr
      cases hr
  · exact .ended hts fun early hearly => hpromising List.prefix_rfl hrun hearly

/-- **A text that is refused is refused for the line on which it is
misread.** -/
theorem misread_of_read_eq_error (h : read text = .error why) :
    ∃ ps line problem, Text.Layout 1 text.toList ps ∧
      why = .unreadable line problem ∧
      ∀ k, Misread ps k ↔ k = line := by
  obtain ⟨line, problem, hwhy, hmisread⟩ : ∃ line problem,
    why = .unreadable line problem ∧
      Misread (Text.pieces text.toList) line := by
    rcases of_bind_eq_error h with htokens | ⟨ts, htokens, hread⟩
    · obtain ⟨front, line, piece, rest, hpieces, hfront, hpiece, rfl⟩ :=
        of_tokens_eq_error htokens
      exact ⟨line, _, rfl, .piece hpieces hfront hpiece⟩
    · exact exists_misread_of_ofTokens (tokens_eq_ok_iff.mp htokens) hread
  refine ⟨_, line, problem, Text.pieces_eq_iff.mp rfl, hwhy, fun k => ?_⟩
  constructor
  · exact fun hk => hk.unique hmisread
  · intro hk
    exact hk ▸ hmisread

/-- A block begins before the second variable has its upper bound. -/
theorem misread_of_read_eq_error_of_two :
    read "2\n0 3 0\nc 0 1" = .error
        (.unreadable 3 (.unexpectedWord (.upperBound 1) "c")) ∧
      ∃ ps, Text.Layout 1 "2\n0 3 0\nc 0 1".toList ps ∧ ∀ k, Misread ps k ↔
        k = 3 := by
  have hread : read "2\n0 3 0\nc 0 1" =
      .error (.unreadable 3 (.unexpectedWord (.upperBound 1) "c")) := rfl
  refine ⟨hread, ?_⟩
  obtain ⟨ps, line, problem, hlayout, hwhy, hmisread⟩ :=
    misread_of_read_eq_error hread
  cases hwhy
  exact ⟨ps, hlayout, hmisread⟩

end

end ConstraintNet.Instance
