import ConstraintNet.Instance
import ConstraintNet.Refusal
import ConstraintNet.Text.Letter
import ConstraintNet.Text.Numeral
import ConstraintNet.Text.Pieces
/-!
# Reading the text of an instance

The pieces of the text are integers and words.  First comes the number of
variables, then the two bounds of each, and then any number of blocks: the word
`c`, two indices, and an even number of values.  Every piece is looked at before
the order of the pieces is.

Main facts:

* `length_takeInteger`, `length_takePairs` — reading leaves less text, which is
  what makes `takeBlocks` end.
-/

namespace ConstraintNet.Instance

/-- A piece of the text. -/
inductive Token
  | integer (value : Int)
  | word (text : String)
deriving DecidableEq, Inhabited

/-- The token that a piece writes, if it writes one. -/
def Token.ofPiece? (piece : List Char) : Option Token :=
  match Text.readInt64? piece with
  | some n => some (.integer n)
  | none =>
    if piece.all Text.isLetter then some (.word (String.ofList piece)) else none

/-- Tokens with the numbers of their lines. -/
abbrev Tokens := List (Nat × Token)

/-- The tokens of a text. -/
def tokens (text : List Char) : Except Refusal Tokens :=
  (Text.pieces text).mapM fun (line, piece) =>
    match Token.ofPiece? piece with
    | some token => .ok (line, token)
    | none => .error (.unreadable line (.unexpectedPiece (String.ofList piece)))

/-- Reads an integer.  `line` is the line of the latest token that was read. -/
def takeInteger (expected : Expectation) (line : Nat) :
    Tokens → Except Refusal (Int × Nat × Tokens)
  | (line, .integer n) :: rest => .ok (n, line, rest)
  | (line, .word word) :: _ =>
      .error (.unreadable line (.unexpectedWord expected word))
  | [] => .error (.unreadable line (.unexpectedEnd expected))

/-- Reads the bounds of so many variables, the first of which has the index
`i`. -/
def takeBounds (read : List (Int × Int)) (i : Nat) : Nat → Nat → Tokens →
    Except Refusal (List (Int × Int) × Nat × Tokens)
  | 0, line, tokens => .ok (read.reverse, line, tokens)
  | count + 1, line, tokens => do
    let (lower, line, tokens) ← takeInteger (.lowerBound i) line tokens
    let (upper, line, tokens) ← takeInteger (.upperBound i) line tokens
    takeBounds ((lower, upper) :: read) (i + 1) count line tokens

/-- Reads pairs of values as long as integers follow. -/
def takePairs (read : List (Int × Int)) (line : Nat) : Tokens →
    Except Refusal (List (Int × Int) × Nat × Tokens)
  | (_, .integer x) :: (line, .integer y) :: rest =>
      takePairs ((x, y) :: read) line rest
  | (_, .integer _) :: (line, .word word) :: _ =>
      .error (.unreadable line (.unexpectedWord .secondValue word))
  | [(line, .integer _)] =>
      .error (.unreadable line (.unexpectedEnd .secondValue))
  | tokens => .ok (read.reverse, line, tokens)

/-- An integer is a token less to read. -/
theorem length_takeInteger {expected : Expectation} {line line' : Nat}
    {tokens rest : Tokens} {n : Int}
    (h : takeInteger expected line tokens = .ok (n, line', rest)) :
    rest.length < tokens.length := by
  unfold takeInteger at h
  split at h
  · cases h
    simp
  · cases h
  · cases h

/-- Reading pairs leaves no more tokens than there were. -/
theorem length_takePairs {read pairs : List (Int × Int)} {line line' : Nat}
    {tokens rest : Tokens}
    (h : takePairs read line tokens = .ok (pairs, line', rest)) :
    rest.length ≤ tokens.length := by
  fun_induction takePairs read line tokens with
  | case1 read line _ x line'' y tail ih =>
      have := ih h
      simp only [List.length_cons]
      omega
  | case2 => cases h
  | case3 => cases h
  | case4 =>
      cases h
      exact Nat.le_refl _

/-- Reads what follows the word that begins a block. -/
def takeBlock (line : Nat) (tokens : Tokens) :
    Except Refusal (Block × Nat × Tokens) := do
  let (first, line, tokens) ← takeInteger .variableIndex line tokens
  let (second, line, tokens) ← takeInteger .variableIndex line tokens
  let (tuples, line, tokens) ← takePairs [] line tokens
  return ({ first, second, tuples }, line, tokens)

/-- The same for a block; with its letter before it, every block leaves
fewer. -/
theorem length_takeBlock {line line' : Nat} {tokens rest : Tokens} {b : Block}
    (h : takeBlock line tokens = .ok (b, line', rest)) :
    rest.length ≤ tokens.length := by
  simp only [takeBlock, bind, Except.bind, pure, Except.pure] at h
  split at h
  · cases h
  · rename_i _ h1
    split at h
    · cases h
    · rename_i _ h2
      split at h
      · cases h
      · rename_i _ h3
        cases h
        have := length_takeInteger h1
        have := length_takeInteger h2
        have := length_takePairs h3
        omega

/-- Reads blocks to the end of the text, which declares so many variables. -/
def takeBlocks (count : Nat) (read : List Block) :
    Tokens → Except Refusal (List Block)
  | [] => .ok read.reverse
  | (line, .integer n) :: _ =>
      .error (.unreadable line (.surplusInteger n count))
  | (line, .word word) :: tokens =>
    if word = "c" then
      match _h : takeBlock line tokens with
      | .error why => .error why
      | .ok (b, _, rest) => takeBlocks count (b :: read) rest
    else .error (.unreadable line (.noBlock word))
termination_by tokens => tokens.length
decreasing_by
  have := length_takeBlock _h
  simp only [List.length_cons]
  omega

/-- Reads the tokens of an instance. -/
def ofTokens (tokens : Tokens) : Except Refusal Instance := do
  let (count, line, tokens) ← takeInteger .variableCount 1 tokens
  if count < 0 then .error (.unreadable line (.negativeCount count))
  else if maxVariables < count.toNat then
    .error (.unreadable line (.countTooLarge count.toNat maxVariables))
  else do
    let (bounds, _, tokens) ← takeBounds [] 0 count.toNat line tokens
    let blocks ← takeBlocks count.toNat [] tokens
    return { bounds, blocks }

/-- Reads the text of an instance. -/
def read (text : String) : Except Refusal Instance :=
  do ofTokens (← tokens text.toList)

end ConstraintNet.Instance
