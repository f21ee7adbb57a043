import ConstraintNet.Instance.Json
import ConstraintNet.Proofs.JsonShapes
import ConstraintNet.Settings.Json
import ConstraintNet.Text.Numeral

/-!
# What is written as JSON is read back

Each reader takes the tokens of the tree that its value is written as: integers
of 64 bits, pairs, lists, choices and limits first, then the records that are
made of them.  So an instance is read from any layout of its tokens, and
settings are too, unless their limit is refused.  Both ways of writing a tree
are such layouts.
-/

namespace ConstraintNet

open Json Json.Reader
open Text (isInt64)

/-- Every text of the tokens of a tree is read as `b`, and so are both that the
tree is written as. -/
structure ReadsBack {β : Type} (read : String → β) (t : Tree) (b : β) :
    Prop where
  layout : ∀ text : String, Layout t.tokens text.toList → read text = b
  compact : read t.compact = b
  pretty : read t.pretty = b

/-- A tree is read back if it is read from every layout of its tokens, since
both ways of writing it are such layouts. -/
theorem ReadsBack.of_layout {β : Type} {read : String → β} {t : Tree} {b : β}
    (h : ∀ text : String, Layout t.tokens text.toList → read text = b) :
    ReadsBack read t b :=
  ⟨h, h _ t.layout_compact, h _ t.layout_pretty⟩

/-! ## Instances -/

namespace Instance

/-- The integers of a block fit into 64 bits. -/
structure Block.FitsInt64 (b : Block) : Prop where
  first : isInt64 b.first
  second : isInt64 b.second
  tuples : ∀ p ∈ b.tuples, isInt64 p.1 ∧ isInt64 p.2

/-- The integers of an instance fit into 64 bits.  There may be any number of
variables. -/
structure FitsInt64 (c : Instance) : Prop where
  bounds : ∀ p ∈ c.bounds, isInt64 p.1 ∧ isInt64 p.2
  blocks : ∀ b ∈ c.blocks, b.FitsInt64

/-- A value of 64 bits is read from its numeral. -/
theorem takes_value {n : Int} (hn : isInt64 n) :
    Takes valueReader (Tree.integer n).tokens n := by
  simp only [isInt64, Bool.and_eq_true, decide_eq_true_eq] at hn
  exact fun us => leads_integer hn.1 hn.2 (by decide) (by decide)

/-- Pairs are read from a list of lists of two values. -/
theorem takes_pairs {l : List (Int × Int)}
    (hl : ∀ p ∈ l, isInt64 p.1 ∧ isInt64 p.2) :
    Takes pairsReader (pairsJson l).tokens l := by
  refine takes_array
    (List.forall₂_map_left_iff.mpr (List.forall₂_same.mpr fun p hp => ?_))
  obtain ⟨hx, hy⟩ := hl p hp
  exact takes_pair (takes_value hx) (takes_value hy)

/-- A block is read from the object with its members, if all of its numbers are
of 64 bits. -/
theorem Block.FitsInt64.takes {b : Block} (hb : b.FitsInt64) :
    Takes Block.reader b.json.tokens b := by
  refine Takes.map (a := ⟨some b.first, some b.second, some b.tuples⟩)
    (takes_record ?_) rfl
  refine .cons ((takes_member (takes_value hb.first)).map rfl) ?_
  refine .cons ((takes_member (takes_value hb.second)).map rfl) ?_
  exact .cons ((takes_member (takes_pairs hb.tuples)).map rfl) (.nil _)

/-- An instance is read likewise: its count, its bounds and its blocks. -/
theorem FitsInt64.takes {c : Instance} (hc : c.FitsInt64) :
    Takes reader c.json.tokens c := by
  have hblocks :
      Takes (array Block.reader) (Tree.list (c.blocks.map Block.json)).tokens
        c.blocks :=
    takes_array (List.forall₂_map_left_iff.mpr
      (List.forall₂_same.mpr fun b hb => (hc.blocks b hb).takes))
  refine Takes.map (a := ⟨some c.bounds, some c.blocks⟩) (takes_record ?_) rfl
  refine .cons ((takes_member (takes_pairs hc.bounds)).map rfl) ?_
  exact .cons ((takes_member hblocks).map rfl) (.nil _)

end Instance

/-! ## Settings -/

/-- A choice is read from the string of its name. -/
theorem Choice.takes {α : Type} [Choice α] (a : α) :
    Takes (Choice.reader α) (Choice.json a).tokens a :=
  takes_tagged_string (Choice.find?_name a) rfl

/-- The count of a limit, if it has one, fits into 64 bits without a sign. -/
def Limit.Readable (limit : Limit) : Prop :=
  ∀ count, limit = .atMost count → count ≤ Limit.maxCount

/-- A limit is read from a string, or from an object with its count, which may
be zero: that is refused only once all settings are read. -/
theorem Limit.Readable.takes {limit : Limit} (h : limit.Readable) :
    Takes Limit.reader limit.json.tokens limit := by
  cases limit with
  | first => exact takes_tagged_string (x := .first) rfl rfl
  | all => exact takes_tagged_string (x := .all) rfl rfl
  | atMost count =>
      have hcount := h count rfl
      have hinteger :
          Takes (integer 0 maxCount) (Tree.nat count).tokens count :=
        fun us => leads_integer (by omega) (by omega) (by decide) (by decide)
      refine takes_tagged_object (x := .atMost) rfl ?_
      exact hinteger.map rfl

namespace Settings

/-- A seed is read from its number, which always fits. -/
theorem takes_seed (seed : UInt64) :
    Takes seedReader (Tree.nat seed.toNat).tokens seed := by
  have hlt := seed.toNat_lt
  have hinteger :
      Takes (integer 0 0xFFFFFFFFFFFFFFFF) (Tree.nat seed.toNat).tokens
        seed.toNat :=
    fun us => leads_integer (by omega) (by omega) (by decide) (by decide)
  refine hinteger.map ?_
  rw [Int.toNat_natCast, UInt64.ofNat_toNat]

/-- Settings are read from an object with one member for each choice. -/
theorem takes {s : Settings} (hs : s.limit.Readable) :
    Takes reader s.json.tokens s := by
  refine Takes.map
    (a := ⟨some s.algorithm, some s.variableOrder, some s.valueOrder,
      some s.limit,
    some s.seed⟩) (takes_record ?_) rfl
  refine .cons ((takes_member (Choice.takes s.algorithm)).map rfl) ?_
  refine .cons ((takes_member (Choice.takes s.variableOrder)).map rfl) ?_
  refine .cons ((takes_member (Choice.takes s.valueOrder)).map rfl) ?_
  refine .cons ((takes_member hs.takes).map rfl) ?_
  exact .cons ((takes_member (takes_seed s.seed)).map rfl) (.nil _)

end Settings

/-- **Instances and settings are read back from what they are written as**, on
one line, on several, or with any other blanks between the tokens.  The integers
of the instance fit into 64 bits, and so does the count of the limit; the seed
does by its type.  Of all settings only those with a limit of at most no
solution are refused. -/
theorem readsBack_json :
    (∀ c : Instance, c.FitsInt64 → ReadsBack Instance.readJson c.json (.ok c)) ∧
    ∀ s : Settings, s.limit.Readable →
      ReadsBack Settings.read s.json
        (if s.limit = .atMost 0 then .error .noSolutions else .ok s) := by
  constructor
  · intro c hc
    exact .of_layout fun _ htext => hc.takes.parse htext
  · intro s hs
    refine .of_layout fun text htext => ?_
    rw [Settings.read, (Settings.takes hs).parse htext]

/-- The extreme integers as bounds the wrong way round and as indices, the
greatest count and the greatest seed, and settings that are refused. -/
theorem readsBack_json_of_extremes :
    ((⟨[(9223372036854775807, -9223372036854775808)],
        [⟨-9223372036854775808, 9223372036854775807, [(-1, 0)]⟩]⟩ :
          Instance).FitsInt64 ∧
      (Limit.atMost 18446744073709551615).Readable ∧
      (Limit.atMost 0).Readable) ∧
    Instance.readJson
      ("\x7b\"domain_bounds\":[[9223372036854775807,-9223372036854775808]]," ++
        "\"constraints\":[\x7b\"first\":-9223372036854775808,\"second\":9223372036854775807," ++
        "\"tuples\":[[-1,0]]\x7d]\x7d") =
      .ok ⟨[(9223372036854775807, -9223372036854775808)],
        [⟨-9223372036854775808, 9223372036854775807, [(-1, 0)]⟩]⟩ ∧
    Settings.read ("\x7b\"algorithm\":\"mac\",\"variable_order\":\"random\"," ++
        "\"value_order\":\"asc\",\"limit\":\x7b\"at_most\":18446744073709551615\x7d," ++
        "\"seed\":18446744073709551615\x7d") =
      .ok ⟨.maintainArcConsistency, .random, .ascending,
        .atMost 18446744073709551615, 18446744073709551615⟩ ∧
    Settings.read ("\x7b\"algorithm\":\"fc\",\"variable_order\":\"asc\"," ++
        "\"value_order\":\"desc\",\"limit\":\x7b\"at_most\":0\x7d,\"seed\":0\x7d") =
      .error .noSolutions := by
  have hc : (⟨[(9223372036854775807, -9223372036854775808)],
      [⟨-9223372036854775808, 9223372036854775807, [(-1, 0)]⟩]⟩ :
        Instance).FitsInt64 :=
    ⟨by decide, List.forall_mem_singleton.mpr ⟨by decide, by decide, by decide⟩⟩
  have hmost : (Limit.atMost 18446744073709551615).Readable := by
    rintro _ ⟨⟩
    decide
  have hnone : (Limit.atMost 0).Readable := by
    rintro _ ⟨⟩
    decide
  have hinstance := readsBack_json.1 _ hc
  have hsettings :=
    readsBack_json.2 ⟨.maintainArcConsistency, .random, .ascending, _,
      18446744073709551615⟩ hmost
  have hrefused :=
    readsBack_json.2 ⟨.forwardChecking, .ascending, .descending, _, 0⟩ hnone
  refine ⟨⟨hc, hmost, hnone⟩, ?_, ?_, ?_⟩
  · exact (congrArg Instance.readJson (by decide +kernel)).trans
      hinstance.compact
  · exact (congrArg Settings.read (by decide +kernel)).trans hsettings.compact
  · exact (congrArg Settings.read (by decide +kernel)).trans hrefused.compact

end ConstraintNet
