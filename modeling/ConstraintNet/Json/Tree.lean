/-!
# Writing JSON

A tree of integers, strings, lists and objects, whose members keep their order.
It is written without blanks on one line, or with each element and each member
on a line of its own, indented by two blanks for each level.
-/

namespace ConstraintNet.Json

/-- A value to write. -/
inductive Tree
  | integer (n : Int)
  | string (s : String)
  | list (items : List Tree)
  | object (members : List (String × Tree))

namespace Tree

/-- A natural number as a value to write. -/
def nat (n : Nat) : Tree := .integer n

/-- A digit of base sixteen. -/
def hexDigit (n : Nat) : Char := Nat.digitChar (n % 16)

/-- A character inside quotes. -/
def quoteChar (c : Char) : List Char :=
  if c = '"' then ['\\', '"']
  else if c = '\\' then ['\\', '\\']
  else if c = '\n' then ['\\', 'n']
  else if c = '\r' then ['\\', 'r']
  else if c = '\t' then ['\\', 't']
  else if c = '\x08' then ['\\', 'b']
  else if c = '\x0c' then ['\\', 'f']
  else if c.toNat < 0x20 then
    ['\\', 'u', '0', '0', hexDigit (c.toNat / 16), hexDigit c.toNat]
  else [c]

/-- A string inside quotes. -/
def quote (s : String) : String :=
  "\"" ++ String.ofList (s.toList.flatMap quoteChar) ++ "\""

mutual

/-- Written on one line. -/
def compact : Tree → String
  | .integer n => toString n
  | .string s => quote s
  | .list items => "[" ++ ",".intercalate (compactItems items) ++ "]"
  | .object members =>
      "\x7b" ++ ",".intercalate (compactMembers members) ++ "\x7d"

/-- The elements of a list, each written on one line. -/
def compactItems : List Tree → List String
  | [] => []
  | t :: l => compact t :: compactItems l

/-- The members of an object, each written on one line. -/
def compactMembers : List (String × Tree) → List String
  | [] => []
  | (name, t) :: l => (quote name ++ ":" ++ compact t) :: compactMembers l

end

/-- A new line, indented. -/
def newLine (level : Nat) : String := "\n".pushn ' ' (2 * level)

/-- Parts between brackets, each on a line of its own; empty brackets stay
together. -/
def enclose (level : Nat) (opening closing : String) (parts : List String) :
    String :=
  if parts.isEmpty then opening ++ closing
  else
    opening ++ ",".intercalate (parts.map (newLine (level + 1) ++ ·)) ++
      newLine level ++ closing

mutual

/-- Written on several lines, inside so many levels. -/
def prettyAt (level : Nat) : Tree → String
  | .integer n => toString n
  | .string s => quote s
  | .list items => enclose level "[" "]" (prettyItems (level + 1) items)
  | .object members =>
      enclose level "\x7b" "\x7d" (prettyMembers (level + 1) members)

/-- The elements of a list, each written on several lines. -/
def prettyItems (level : Nat) : List Tree → List String
  | [] => []
  | t :: l => prettyAt level t :: prettyItems level l

/-- The members of an object, each written on several lines. -/
def prettyMembers (level : Nat) : List (String × Tree) → List String
  | [] => []
  | (name, t) :: l =>
      (quote name ++ ": " ++ prettyAt level t) :: prettyMembers level l

end

/-- Written on several lines. -/
def pretty (t : Tree) : String := prettyAt 0 t

end Tree

end ConstraintNet.Json
