import Mathlib.Data.List.Forall2
import ConstraintNet.Json.Reader
import ConstraintNet.Json.Tree

/-!
# The layout of a JSON text

A JSON text is made of tokens: marks, numerals and quoted strings.  Blanks may
stand before and behind each of them, and where no blank stands behind a numeral
the next character must be one that cannot go on with it.  `Layout` says this
without an algorithm.

The tokens of a tree are those of its parts between marks.  Both ways of writing
a tree lay out its tokens, on one line as well as on several.
-/

namespace ConstraintNet.Json

open Reader (isBlank)

/-- What stands around the values of a JSON text. -/
inductive Mark
  | openList
  | closeList
  | openObject
  | closeObject
  | comma
  | colon

/-- How a mark is written. -/
def Mark.char : Mark → Char
  | openList => '['
  | closeList => ']'
  | openObject => '{'
  | closeObject => '}'
  | comma => ','
  | colon => ':'

/-- What a JSON text is made of. -/
inductive Token
  | mark (m : Mark)
  | integer (n : Int)
  | string (s : String)

/-- How a token is written. -/
def Token.text : Token → List Char
  | .mark m => [m.char]
  | .integer n => n.repr.toList
  | .string s => (Tree.quote s).toList

/-- A numeral may end before this text: no character in front goes on with
it. -/
def EndsNumeral (l : List Char) : Prop :=
  ∀ c, l.head? = some c → c.isDigit = false ∧ c ≠ '.' ∧ c ≠ 'e' ∧ c ≠ 'E'

/-- The text `l` is made of the tokens of a list, with blanks between them. -/
inductive Layout : List Token → List Char → Prop
  | done : Layout [] []
  | blank {ts : List Token} {c : Char} {l : List Char} (hc : isBlank c)
      (h : Layout ts l) : Layout ts (c :: l)
  | token {t : Token} {ts : List Token} {l : List Char}
      (hend : ∀ n, t = .integer n → EndsNumeral l) (h : Layout ts l) :
      Layout (t :: ts) (t.text ++ l)

/-! ## The tokens of a tree -/

mutual

/-- The tokens of a tree. -/
def Tree.tokens : Tree → List Token
  | .integer n => [.integer n]
  | .string s => [.string s]
  | .list items =>
    .mark .openList ::
      ([.mark .comma].intercalate (tokensOfItems items) ++ [.mark .closeList])
  | .object members =>
    .mark .openObject ::
      ([.mark .comma].intercalate (tokensOfMembers members) ++
        [.mark .closeObject])

/-- The tokens of each element of a list. -/
def Tree.tokensOfItems : List Tree → List (List Token)
  | [] => []
  | t :: l => t.tokens :: tokensOfItems l

/-- The tokens of each member of an object. -/
def Tree.tokensOfMembers : List (String × Tree) → List (List Token)
  | [] => []
  | (name, t) :: l =>
      (.string name :: .mark .colon :: t.tokens) :: tokensOfMembers l

end

/-! ## Texts that spell tokens -/

section

variable {c : Char} {m : Mark} {l s s' : List Char} {ts ts' : List Token}

theorem endsNumeral_nil : EndsNumeral [] := fun _ h => nomatch h

/-- A numeral may end in front of a closing bracket, a comma or the end of a
line: these are all the characters that are written behind one. -/
theorem endsNumeral_cons (hc : c ∈ [']', '}', ',', '\n']) :
    EndsNumeral (c :: l) := by
  rintro d ⟨⟩
  simp only [List.mem_cons, List.not_mem_nil, or_false] at hc
  rcases hc with rfl | rfl | rfl | rfl <;> decide

/-- The text `s` is made of the tokens `ts`, whatever that may end a numeral
stands behind it. -/
def Spells (ts : List Token) (s : List Char) : Prop :=
  ∀ us l, EndsNumeral l → Layout us l → Layout (ts ++ us) (s ++ l)

theorem Spells.nil : Spells [] [] := fun _ _ _ h => h

/-- A token is spelled by its own text, since what stands behind it may end a
numeral. -/
theorem Spells.token (t : Token) : Spells [t] t.text :=
  fun _ _ hend h => .token (fun _ _ => hend) h

/-- A text that spells tokens is a layout of them, with nothing behind it. -/
theorem Spells.layout (h : Spells ts s) : Layout ts s := by
  have := h [] [] endsNumeral_nil .done
  rwa [List.append_nil, List.append_nil] at this

/-- Blanks in front of a text do not change what it spells. -/
theorem Spells.blanks {blanks : List Char} (hblanks : ∀ c ∈ blanks, isBlank c)
    (h : Spells ts s) : Spells ts (blanks ++ s) := by
  induction blanks with
  | nil => exact h
  | cons c blanks ih =>
      obtain ⟨hc, hblanks⟩ := List.forall_mem_cons.mp hblanks
      exact fun us l hend hl => .blank hc (ih hblanks us l hend hl)

/-- Behind a mark or a string anything may follow. -/
theorem Spells.cons {t : Token} (ht : ∀ n, t ≠ .integer n) (h : Spells ts s) :
    Spells (t :: ts) (t.text ++ s) := by
  intro us l hend hl
  rw [List.append_assoc]
  exact .token (fun n heq => absurd heq (ht n)) (h us l hend hl)

/-- A mark in front of a text; no mark is a numeral, and nothing is asked of the
text. -/
theorem Spells.cons_mark (h : Spells ts s) :
    Spells (.mark m :: ts) (m.char :: s) :=
  .cons (fun _ heq => nomatch heq) h

/-- Two texts that spell tokens do so one behind the other, if a numeral may end
in front of the second. -/
theorem Spells.append (h : Spells ts s) (h' : Spells ts' s')
    (hends : ∀ l, EndsNumeral l → EndsNumeral (s' ++ l)) :
    Spells (ts ++ ts') (s ++ s') := by
  intro us l hend hl
  rw [List.append_assoc, List.append_assoc]
  exact h _ _ (hends l hend) (h' us l hend hl)

/-- Texts between commas spell their tokens between commas. -/
theorem Spells.intercalate {parts : List (List Token)}
    {texts : List (List Char)} (h : List.Forall₂ Spells parts texts) :
    Spells ([.mark .comma].intercalate parts) ([','].intercalate texts) := by
  induction h with
  | nil => exact .nil
  | cons hfirst hrest ih =>
      cases hrest with
      | nil => simpa using hfirst
      | cons _ _ =>
          rw [List.intercalate_cons_cons, List.intercalate_cons_cons,
            List.append_assoc, List.append_assoc]
          exact hfirst.append (ih.cons_mark (m := .comma)) fun l _ =>
            endsNumeral_cons (by decide)

/-- Brackets around a text, with blanks before the closing one. -/
theorem Spells.enclose {o d : Mark} {blanks : List Char} (h : Spells ts s)
    (hblanks : ∀ c ∈ blanks, isBlank c)
    (hends : ∀ l, EndsNumeral (blanks ++ d.char :: l)) :
    Spells (.mark o :: (ts ++ [.mark d]))
      (o.char :: (s ++ (blanks ++ [d.char]))) := by
  refine .cons_mark
    (h.append (Spells.nil.cons_mark.blanks hblanks) fun l _ => ?_)
  rw [List.append_assoc]
  exact hends l

end

/-! ## Both ways of writing a tree -/

namespace Tree

open String (toList_append toList_intercalate)

mutual

/-- **A tree written on one line spells its tokens.** -/
theorem spells_compact : ∀ t : Tree, Spells t.tokens t.compact.toList
  | .integer n => .token (.integer n)
  | .string s => .token (.string s)
  | .list items => by
      have h := Spells.intercalate (spells_compactItems items)
      have hends : ∀ l, EndsNumeral ([] ++ ']' :: l) := fun l =>
        endsNumeral_cons (by decide)
      have := h.enclose (o := .openList) (d := .closeList) (by simp) hends
      simpa [Mark.char, tokens, compact, toList_append, toList_intercalate]
        using this
  | .object members => by
      have h := Spells.intercalate (spells_compactMembers members)
      have hends : ∀ l, EndsNumeral ([] ++ '}' :: l) := fun l =>
        endsNumeral_cons (by decide)
      have := h.enclose (o := .openObject) (d := .closeObject) (by simp) hends
      simpa [Mark.char, tokens, compact, toList_append, toList_intercalate]
        using this

/-- The elements of a list on one line spell their tokens, one by one. -/
theorem spells_compactItems : ∀ l : List Tree,
    List.Forall₂ Spells (tokensOfItems l) ((compactItems l).map String.toList)
  | [] => .nil
  | t :: l => .cons (spells_compact t) (spells_compactItems l)

/-- So do the members of an object, each with its name and a colon in front. -/
theorem spells_compactMembers : ∀ l : List (String × Tree),
    List.Forall₂ Spells (tokensOfMembers l)
      ((compactMembers l).map String.toList)
  | [] => .nil
  | (name, t) :: l => by
      refine .cons ?_ (spells_compactMembers l)
      have hmember :=
        ((spells_compact t).cons_mark (m := .colon)).cons (t := .string name)
          fun _ heq => nomatch heq
      simpa [Mark.char, Token.text, toList_append] using hmember

end

/-- A new line is the end of a line and two spaces for each level. -/
theorem toList_newLine (level : Nat) :
    (newLine level).toList = '\n' :: List.replicate (2 * level) ' ' := by
  rw [newLine, String.pushn_eq_repeat_push]
  induction 2 * level with
  | zero => rfl
  | succ n ih =>
      rw [Nat.repeat, String.toList_push, ih, List.replicate_succ']; rfl

/-- The start of a new line is made of blanks. -/
theorem isBlank_of_mem_newLine {level : Nat} {c : Char}
    (hc : c ∈ (newLine level).toList) : isBlank c := by
  rw [toList_newLine, List.mem_cons] at hc
  rcases hc with rfl | hc
  · decide
  · rw [List.eq_of_mem_replicate hc]
    decide

/-- The list or object around texts that are put on lines of their own spells
the marks and the tokens of these texts; an empty one stays on its line. -/
theorem spells_enclose {o d : Mark} (hclose : d.char ∈ [']', '}', ',', '\n'])
    (level : Nat) {parts : List (List Token)} {texts : List String}
    (h : List.Forall₂ Spells parts (texts.map String.toList)) :
    Spells (.mark o :: ([.mark .comma].intercalate parts ++ [.mark d]))
      (enclose level (String.singleton o.char) (String.singleton d.char)
        texts).toList := by
  rw [enclose]
  split
  · rename_i hempty
    rw [List.isEmpty_iff.mp hempty] at h
    cases h
    have hends : ∀ l, EndsNumeral ([] ++ d.char :: l) := fun l =>
      endsNumeral_cons hclose
    have := Spells.nil.enclose (o := o) (by simp) hends
    simpa [toList_append] using this
  · have hlines : List.Forall₂ Spells parts
        ((texts.map (newLine (level + 1) ++ ·)).map String.toList) := by
      rw [List.map_map]
      rw [List.forall₂_map_right_iff] at h ⊢
      refine h.imp fun ts s hs => ?_
      rw [Function.comp_apply, toList_append]
      exact hs.blanks fun c hc => isBlank_of_mem_newLine hc
    have hends : ∀ l, EndsNumeral ((newLine level).toList ++ d.char :: l) := by
      intro l
      rw [toList_newLine]
      exact endsNumeral_cons (by decide)
    have := (Spells.intercalate hlines).enclose (o := o)
      (fun c hc => isBlank_of_mem_newLine hc) hends
    simpa [toList_append, toList_intercalate] using this

mutual

/-- **So does a tree written on several lines.** -/
theorem spells_prettyAt (level : Nat) :
    ∀ t : Tree, Spells t.tokens (t.prettyAt level).toList
  | .integer n => .token (.integer n)
  | .string s => .token (.string s)
  | .list items =>
      spells_enclose (by decide) level (spells_prettyItems (level + 1) items)
  | .object members =>
      spells_enclose (by decide) level
        (spells_prettyMembers (level + 1) members)

/-- The elements of a list on lines of their own spell their tokens, one by
one. -/
theorem spells_prettyItems (level : Nat) : ∀ l : List Tree,
    List.Forall₂ Spells (tokensOfItems l)
      ((prettyItems level l).map String.toList)
  | [] => .nil
  | t :: l => .cons (spells_prettyAt level t) (spells_prettyItems level l)

/-- So do the members of an object, where a blank stands behind the colon. -/
theorem spells_prettyMembers (level : Nat) : ∀ l : List (String × Tree),
    List.Forall₂ Spells (tokensOfMembers l)
      ((prettyMembers level l).map String.toList)
  | [] => .nil
  | (name, t) :: l => by
      refine .cons ?_ (spells_prettyMembers level l)
      have hblank : ∀ c ∈ [' '], isBlank c :=
        List.forall_mem_singleton.mpr (by decide)
      have hmember :=
        (((spells_prettyAt level t).blanks hblank).cons_mark (m := .colon)).cons
          (t := .string name) fun _ heq => nomatch heq
      simpa [Mark.char, Token.text, toList_append] using hmember

end

/-- **Whichever way a tree is written, its tokens are laid out.** -/
theorem layout_compact (t : Tree) : Layout t.tokens t.compact.toList :=
  (spells_compact t).layout

/-- The same for a tree that is written on several lines. -/
theorem layout_pretty (t : Tree) : Layout t.tokens t.pretty.toList :=
  (spells_prettyAt 0 t).layout

end Tree

end ConstraintNet.Json
