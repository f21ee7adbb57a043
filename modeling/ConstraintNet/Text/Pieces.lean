import ConstraintNet.Text.Blank
/-!
# Pieces of a text

A text is cut into lines, each line ends at its first comment, and what is left
falls into pieces between separators.

Main facts:

* `beforeComment_eq` — what was passed stays in front of what precedes the
  comment.
-/

namespace ConstraintNet.Text

/-- Cuts a list at the elements that pass a test, which are left out. -/
def cut {α : Type} (p : α → Bool) (l : List α) : List (List α) :=
  l.foldr (fun a parts =>
    if p a then [] :: parts else
      match parts with
      | [] => [[a]]
      | part :: parts => (a :: part) :: parts) [[]]

/-- What precedes the first two slashes of a line, behind what was passed
already. -/
def beforeComment (passed : List Char) : List Char → List Char
  | '/' :: '/' :: _ => passed.reverse
  | [] => passed.reverse
  | c :: l => beforeComment (c :: passed) l

/-- What was passed stays in front. -/
theorem beforeComment_eq (passed l : List Char) :
    beforeComment passed l = passed.reverse ++ beforeComment [] l := by
  induction l generalizing passed with
  | nil => simp [beforeComment]
  | cons c l ih =>
      rw [beforeComment.eq_def, beforeComment.eq_def []]
      split
      · simp
      · rename_i h
        cases h
      · rename_i d r _ h
        cases h
        rw [ih, ih [c]]
        simp

/-- Whether a character stands between pieces: a blank, a comma or a
parenthesis. -/
def isSeparator (c : Char) : Bool :=
  isBlank c || c == ',' || c == '(' || c == ')'

/-- The pieces of a line. -/
def linePieces (line : List Char) : List (List Char) :=
  (cut isSeparator (beforeComment [] line)).filter fun piece => !piece.isEmpty

/-- The pieces of a text, each with the number of its line. -/
def pieces (text : List Char) : List (Nat × List Char) :=
  ((cut (· == '\n') text).zipIdx 1).flatMap fun (line, k) =>
    (linePieces line).map (k, ·)

end ConstraintNet.Text
