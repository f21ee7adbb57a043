import ConstraintNet.Proofs.JsonReading

/-!
# Readers of shaped values

Lists, pairs, records and tagged values are read by readers of their parts.  If
these take the tokens of the parts, the whole takes the tokens of the tree that
is made of them.  A record is read member by member: `Fills` tells how each
member brings a draft further.
-/

namespace ConstraintNet.Json

/-! ## The tokens of a tree -/

section

variable {α : Type} {x : α} {t : Token} {ts us : List Token}

/-- The first part stands alone, and each other one behind the separator. -/
theorem intercalate_cons (x : α) (l : List α) (parts : List (List α)) :
    [x].intercalate (l :: parts) = l ++ parts.flatMap (x :: ·) := by
  induction parts generalizing l with
  | nil => simp
  | cons part parts ih =>
      rw [List.intercalate_cons_cons, ih, List.flatMap_cons, List.append_assoc]
      rfl

/-- There are as many separators as parts behind the first one. -/
theorem length_le_flatMap (x : α) (parts : List (List α)) :
    parts.length ≤ (parts.flatMap (x :: ·)).length := by
  induction parts with
  | nil => exact Nat.le_refl 0
  | cons part parts ih =>
      rw [List.flatMap_cons, List.length_append, List.length_cons,
        List.length_cons]
      omega

/-- The tokens of the elements are taken one element at a time. -/
theorem Tree.tokensOfItems_eq (l : List Tree) :
    tokensOfItems l = l.map tokens := by
  induction l with
  | nil => rfl
  | cons t l ih => rw [tokensOfItems, ih, List.map_cons]

/-- The tokens of a member. -/
def Tree.tokensOfMember (m : String × Tree) : List Token :=
  .string m.1 :: .mark .colon :: m.2.tokens

/-- The tokens of the members are taken one member at a time. -/
theorem Tree.tokensOfMembers_eq (l : List (String × Tree)) :
    tokensOfMembers l = l.map tokensOfMember := by
  induction l with
  | nil => rfl
  | cons m l ih => rw [tokensOfMembers, ih, List.map_cons, tokensOfMember]

/-- The tokens begin with one that closes no list. -/
def Opens (ts : List Token) : Prop := ∃ t us, ts = t :: us ∧ t.first ≠ ']'

/-- A numeral begins with a minus sign or a digit. -/
theorem Token.first_integer_ne (n : Int) : (Token.integer n).first ≠ ']' := by
  rcases Token.first_integer n with h | h
  · rw [h]
    decide
  · intro heq
    rw [heq] at h
    exact absurd h (by decide)

/-- Every tree opens with a token that closes no list, so that a reader of
elements does not take it for the end. -/
theorem Tree.opens_tokens (t : Tree) : Opens t.tokens := by
  cases t with
  | integer n => exact ⟨_, _, rfl, Token.first_integer_ne n⟩
  | string s => exact ⟨_, _, rfl, by rw [Token.first_string]; decide⟩
  | list items => exact ⟨_, _, rfl, by decide⟩
  | object members => exact ⟨_, _, rfl, by decide⟩

end

namespace Reader

variable {α β τ : Type} {r : Reader α} {a : α} {b : β}
  {P Q R : List Char → Prop} {t : Token} {ts us : List Token} {l : List Char}

theorem Leads.imp (h : Leads P r a Q) (hQ : ∀ l, Q l → R l) :
    Leads P r a R := by
  intro l hl
  obtain ⟨m, hm, hq⟩ := h l hl
  exact ⟨m, hm, hQ m hq⟩

/-- The reader takes the tokens `ts` for the value `a`, whichever tokens
follow. -/
def Takes (r : Reader α) (ts : List Token) (a : α) : Prop :=
  ∀ us, Leads (Layout (ts ++ us)) r a (Layout us)

/-- **A text of the tokens that a reader takes is read.** -/
theorem Takes.parse {text : String} (h : r.Takes ts a)
    (htext : Layout ts text.toList) : parse r text = .ok a := by
  have hts : Layout (ts ++ []) text.toList := by rwa [List.append_nil]
  obtain ⟨m, hm, hlayout⟩ := h [] text.toList hts
  rw [Reader.parse, hm]
  dsimp only [bind, Except.bind]
  rw [hlayout.dropWhile_eq_nil]
  rfl

/-- The length of a text is fuel for as many rounds as it has tokens, and one
more. -/
theorem leads_fuel {f : Nat → Reader α}
    (h : ∀ fuel, ts.length ≤ fuel → Leads (Layout ts) (f (fuel + 1)) a Q) :
    Leads (Layout ts) (do f ((← get).length + 1)) a Q := by
  intro l hl
  rw [run_get_bind]
  exact h _ hl.length_le l hl

/-! ## Lists -/

/-- The end of a list says that there is no other element. -/
theorem leads_another_close {isFirst : Bool} :
    Leads (Layout (.mark .closeList :: ts)) (another isFirst) false
      (Front (.mark .closeList) ts) := by
  refine leads_need.bind ?_
  have hfirst : (Token.mark .closeList).first = ']' := rfl
  rw [if_pos hfirst]
  exact .pure false

/-- An element that opens at once is the first one. -/
theorem leads_another_first (h : Opens ts) :
    Leads (Layout (ts ++ us)) (another true) true (Layout (ts ++ us)) := by
  obtain ⟨t, ts, rfl, ht⟩ := h
  refine leads_need.bind ?_
  rw [if_neg ht, if_pos rfl]
  exact (Leads.pure true).imp fun _ => Front.layout

/-- A comma and an element behind it are another one; a comma with the end of
the list behind it is refused. -/
theorem leads_another_next (h : Opens ts) :
    Leads (Layout (.mark .comma :: (ts ++ us))) (another false) true
      (Layout (ts ++ us)) := by
  obtain ⟨t, ts, rfl, ht⟩ := h
  refine leads_need.bind ?_
  have hfirst : (Token.mark .comma).first = ',' := rfl
  rw [hfirst, if_neg (by decide), if_neg Bool.false_ne_true, if_pos rfl]
  refine leads_drop.bind (leads_need.bind ?_)
  rw [if_neg ht]
  exact (Leads.pure true).imp fun _ => Front.layout

section

variable {item : Reader α} {trees : List Tree} {xs : List α} {x : α}
  {isFirst : Bool} {fuel : Nat}

/-- At the end of a list what was read is given, in the order in which it
stood. -/
theorem leads_elementsWithin_close (read : List α) :
    Leads (Layout (.mark .closeList :: us))
      (elementsWithin item (fuel + 1) isFirst read)
      read.reverse (Layout us) := by
  refine leads_another_close.bind ?_
  rw [if_neg Bool.false_ne_true]
  exact leads_drop.bind (.pure _)

/-- One round takes one element. -/
theorem leads_elementsWithin_item {read : List α}
    (hanother : Leads P (another isFirst) true (Layout (ts ++ us)))
    (hitem : Takes item ts x)
    (hrest : Leads (Layout us) (elementsWithin item fuel false (x :: read)) xs
      Q) : Leads P (elementsWithin item (fuel + 1) isFirst read) xs Q := by
  refine hanother.bind ?_
  rw [if_pos rfl]
  exact (hitem us).bind hrest

/-- Behind the first element each round takes a comma and an element. -/
theorem leads_elementsWithin {parts : List (List Token)}
    (h : List.Forall₂ (fun ts x => Opens ts ∧ Takes item ts x) parts xs)
    (read : List α) (hfuel : parts.length ≤ fuel) :
    Leads (Layout (parts.flatMap (.mark .comma :: ·) ++ .mark .closeList :: us))
      (elementsWithin item (fuel + 1) false read) (read.reverse ++ xs)
        (Layout us) := by
  induction h generalizing fuel read with
  | nil =>
      rw [List.append_nil]
      exact leads_elementsWithin_close read
  | @cons ts x parts xs hfirst _ ih =>
      -- One round of fuel goes with each element, so the rest still suffices
      -- behind it.
      obtain ⟨left, rfl⟩ := Nat.exists_eq_add_of_le' hfuel
      rw [List.flatMap_cons, List.cons_append, List.cons_append,
        List.append_assoc]
      refine leads_elementsWithin_item (leads_another_next hfirst.1) hfirst.2 ?_
      have hrest := ih (x :: read) (Nat.le_add_left parts.length left)
      rwa [List.reverse_cons, List.append_assoc] at hrest

/-- **An array takes the list of what its elements take.** -/
theorem takes_array
    (h : List.Forall₂ (fun t x => Takes item (Tree.tokens t) x) trees xs) :
    Takes (array item) (Tree.list trees).tokens xs := by
  have hparts :
      List.Forall₂ (fun ts x => Opens ts ∧ Takes item ts x)
        (trees.map Tree.tokens) xs :=
    List.forall₂_map_left_iff.mpr (h.imp fun t _ ht => ⟨t.opens_tokens, ht⟩)
  intro us
  rw [Tree.tokens, Tree.tokensOfItems_eq, List.cons_append, List.append_assoc]
  refine leads_need.bind ?_
  have hfirst : (Token.mark .openList).first = '[' := rfl
  rw [if_pos hfirst]
  refine leads_drop.bind
    (leads_fuel (f := (elementsWithin item · true [])) fun fuel hfuel => ?_)
  generalize trees.map Tree.tokens = parts at hparts hfuel
  cases hparts with
  | nil => exact leads_elementsWithin_close []
  | @cons ts x parts xs hfirst hrest =>
      rw [intercalate_cons, List.append_assoc] at hfuel ⊢
      have hparts : parts.length + 1 ≤ fuel := by
        have := length_le_flatMap (.mark .comma) parts
        simp only [List.length_append, List.length_cons] at hfuel
        omega
      obtain ⟨left, rfl⟩ := Nat.exists_eq_add_of_le' hparts
      refine leads_elementsWithin_item (leads_another_first hfirst.1)
        hfirst.2 ?_
      exact leads_elementsWithin hrest [x] (Nat.le_add_left parts.length left)

end

/-- **A pair takes the list of what its two readers take.** -/
theorem takes_pair {r' : Reader β} {x y : Tree} (hx : Takes r x.tokens a)
    (hy : Takes r' y.tokens b) :
    Takes (pair r r') (Tree.list [x, y]).tokens (a, b) := by
  intro us
  have htokens : (Tree.list [x, y]).tokens ++ us = Token.mark .openList ::
      (x.tokens ++ .mark .comma :: (y.tokens ++ .mark .closeList :: us)) := by
    simp [Tree.tokens, Tree.tokensOfItems_eq]
  rw [htokens]
  refine leads_need.bind ?_
  have hfirst : (Token.mark .openList).first = '[' := rfl
  rw [if_pos hfirst]
  refine leads_drop.bind ((leads_another_first x.opens_tokens).bind ?_)
  refine (hx _).bind ((leads_another_next y.opens_tokens).bind ?_)
  exact (hy _).bind (leads_expect.bind (.pure (a, b)))

/-! ## Records -/

/-- A name is a string, and is read with it. -/
theorem leads_name {s : String} :
    Leads (Layout (.string s :: ts)) name s (Layout ts) := by
  refine leads_need.bind ?_
  rw [if_pos (Token.first_string s)]
  exact leads_string

/-- The members bring one draft to another. -/
inductive Fills (member : String → α → Reader α) : List (String × Tree) →
    α → α → Prop
  | nil (a : α) : Fills member [] a a
  | cons {s : String} {t : Tree} {l : List (String × Tree)} {a b c : α}
      (h : Takes (member s a) (.mark .colon :: t.tokens) b)
      (hs : Fills member l b c) :
      Fills member ((s, t) :: l) a c

section

variable {f : String → α → Reader α} {members : List (String × Tree)} {b c : α}
  {isFirst : Bool} {fuel : Nat} {s : String}

/-- At the end of an object the draft is given as it is. -/
theorem leads_membersWithin_close :
    Leads (Layout (.mark .closeObject :: us))
      (membersWithin f (fuel + 1) isFirst a) a
      (Layout us) := by
  refine leads_need.bind ?_
  have hfirst : (Token.mark .closeObject).first = '}' := rfl
  rw [if_pos hfirst]
  exact leads_drop.bind (.pure a)

/-- The first round takes a member. -/
theorem leads_membersWithin_first (hmember : Takes (f s a) ts b)
    (hrest : Leads (Layout us) (membersWithin f fuel false b) c Q) :
    Leads (Layout (.string s :: (ts ++ us)))
      (membersWithin f (fuel + 1) true a) c Q := by
  refine leads_need.bind ?_
  rw [Token.first_string, if_neg (by decide)]
  show Leads _ (name >>= fun s => f s a >>= membersWithin f fuel false) c Q
  intro l hl
  exact leads_name.bind ((hmember us).bind hrest) l hl.layout

/-- Each other one takes a comma before it. -/
theorem leads_membersWithin_next (hmember : Takes (f s a) ts b)
    (hrest : Leads (Layout us) (membersWithin f fuel false b) c Q) :
    Leads (Layout (.mark .comma :: .string s :: (ts ++ us)))
      (membersWithin f (fuel + 1) false a) c
      Q := by
  refine leads_need.bind ?_
  have hfirst : (Token.mark .comma).first = ',' := rfl
  rw [hfirst, if_neg (by decide)]
  show Leads _ (expect ',' >>= fun _ => name >>= fun s =>
    f s a >>= membersWithin f fuel false) c Q
  intro l hl
  exact leads_expect.bind (leads_name.bind ((hmember us).bind hrest))
    l hl.layout

/-- Behind the first member each round takes a comma and a member. -/
theorem leads_membersWithin (h : Fills f members a b)
    (hfuel : members.length ≤ fuel) :
    Leads (Layout
      ((members.map Tree.tokensOfMember).flatMap (.mark .comma :: ·) ++
      .mark .closeObject :: us)) (membersWithin f (fuel + 1) false a) b
        (Layout us) := by
  induction h generalizing fuel with
  | nil a => exact leads_membersWithin_close
  | @cons s t members a b c hmember _ ih =>
      obtain ⟨left, rfl⟩ := Nat.exists_eq_add_of_le' hfuel
      rw [List.map_cons, List.flatMap_cons, List.cons_append, List.cons_append,
        List.append_assoc]
      exact leads_membersWithin_next hmember
        (ih (Nat.le_add_left members.length left))

/-- **A record takes the object of members that fill it.** -/
theorem takes_record {inOrder : Reader α} (h : Fills f members a b) :
    Takes (record a f inOrder) (Tree.object members).tokens b := by
  intro us
  rw [Tree.tokens, Tree.tokensOfMembers_eq, List.cons_append, List.append_assoc]
  refine leads_need.bind ?_
  show Leads _ (drop >>=
    fun _ => do membersWithin f ((← get).length + 1) true a) b _
  refine leads_drop.bind
    (leads_fuel (f := (membersWithin f · true a)) fun fuel hfuel => ?_)
  cases h with
  | nil => exact leads_membersWithin_close
  | @cons s t members _ a _ hmember hrest =>
      rw [List.map_cons, intercalate_cons, List.append_assoc] at hfuel ⊢
      have hmembers : members.length + 1 ≤ fuel := by
        have :=
          length_le_flatMap (.mark .comma) (members.map Tree.tokensOfMember)
        simp only [List.length_append, List.length_cons, List.length_map]
          at hfuel this
        omega
      obtain ⟨left, rfl⟩ := Nat.exists_eq_add_of_le' hmembers
      refine leads_membersWithin_first hmember ?_
      exact leads_membersWithin hrest (Nat.le_add_left members.length left)

end

/-- A member that is not known yet is taken behind its colon. -/
theorem takes_member (h : Takes r ts a) :
    Takes (member none r) (.mark .colon :: ts) (some a) := by
  intro us
  show Leads _ (expect ':' >>= fun _ => r >>= fun a => Pure.pure (some a)) _ _
  exact leads_expect.bind ((h us).bind (.pure (some a)))

/-- What is done with a value once it is taken. -/
theorem Takes.map {f : α → Reader β} (h : Takes r ts a)
    (hf : f a = Pure.pure b) : Takes (r >>= f) ts b := by
  intro us
  refine (h us).bind ?_
  rw [hf]
  exact .pure b

/-! ## Tagged values -/

section

variable {tag : String → Option τ} {bare : τ → Option α}
  {content : τ → Reader α} {s : String} {x : τ} {t : Tree}

/-- A tag that needs no content is taken as a string. -/
theorem takes_tagged_string (htag : tag s = some x) (hbare : bare x = some a) :
    Takes (tagged tag bare content) (Tree.string s).tokens a := by
  intro us
  refine leads_need.bind ?_
  rw [Token.first_string]
  refine leads_string.bind ?_
  rw [htag, Option.bind_some, hbare]
  exact .pure a

/-- A tag and its content are taken as an object of one member. -/
theorem takes_tagged_object (htag : tag s = some x)
    (hcontent : Takes (content x) t.tokens a) :
    Takes (tagged tag bare content) (Tree.object [(s, t)]).tokens a := by
  intro us
  have htokens : (Tree.object [(s, t)]).tokens ++ us = Token.mark .openObject ::
      .string s :: .mark .colon :: (t.tokens ++ .mark .closeObject :: us) := by
    simp [Tree.tokens, Tree.tokensOfMembers]
  rw [htokens]
  refine leads_need.bind (leads_drop.bind (leads_name.bind ?_))
  rw [htag]
  exact leads_expect.bind ((hcontent _).bind (leads_expect.bind (.pure a)))

end

end Reader

end ConstraintNet.Json
