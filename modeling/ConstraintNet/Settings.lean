import ConstraintNet.Strategy
/-!
# Settings

What can be chosen about a search, and the short names of the choices.

Main facts:

* `Choice.find?_name` — every choice is found by its own name.
-/

namespace ConstraintNet

/-- A type with finitely many choices, each with a short name. -/
class Choice (α : Type) where
  all : List α
  name : α → String
  find?_name : ∀ a, all.find? (name · == name a) = some a

namespace Choice

/-- The choice with a name. -/
def find? (α : Type) [Choice α] (text : String) : Option α :=
  (all : List α).find? (name · == text)

/-- The choice with a name, large and small letters of the alphabet taken as the
same. -/
def findIgnoringCase? (α : Type) [Choice α] (text : String) : Option α :=
  (all : List α).find? fun a => (name a).toLower == text.toLower

end Choice

instance : Choice Algorithm where
  all := [.forwardChecking, .maintainArcConsistency]
  name
    | .forwardChecking => "fc"
    | .maintainArcConsistency => "mac"
  find?_name a := by cases a <;> decide

instance : Choice VariableOrder where
  all := [.ascending, .smallestDomainFirst, .mostConstrainedFirst, .random]
  name
    | .ascending => "asc"
    | .smallestDomainFirst => "sdf"
    | .mostConstrainedFirst => "mcf"
    | .random => "random"
  find?_name a := by cases a <;> decide

instance : Choice ValueOrder where
  all := [.ascending, .descending]
  name
    | .ascending => "asc"
    | .descending => "desc"
  find?_name a := by cases a <;> decide

/-- The choices for a search. -/
structure Settings where
  algorithm : Algorithm := .forwardChecking
  variableOrder : VariableOrder := .ascending
  valueOrder : ValueOrder := .ascending
  limit : Limit := .first
  seed : UInt64 := 0
deriving DecidableEq, Inhabited

end ConstraintNet
