/-!
# Refusals

Why an input is not solved: it cannot be read, or it does not describe an
instance, or the settings are wrong.  Each refusal has a message.
-/

namespace ConstraintNet

/-- What is wrong with a text that should be JSON of a given shape. -/
inductive Json.Problem
  /-- The text ends too early. -/
  | ended
  /-- The text is no JSON. -/
  | malformed
  /-- The text is JSON of another shape. -/
  | mismatch
deriving DecidableEq, Inhabited

/-- What is wrong with settings. -/
inductive SettingsProblem
  | json (problem : Json.Problem)
  /-- The limit is at most no solution. -/
  | noSolutions
deriving DecidableEq, Inhabited

/-- Why a file cannot be read as text. -/
inductive FileProblem
  | missing
  | directory
  /-- The path goes through a file. -/
  | notDirectory
  | nameTooLong
  | denied
  | notText
deriving DecidableEq, Inhabited

/-- What the text of an instance should have had at some place. -/
inductive Expectation
  | variableCount
  | lowerBound (index : Nat)
  | upperBound (index : Nat)
  | variableIndex
  | value
  | secondValue
deriving DecidableEq, Inhabited

/-- How the text of an instance breaks the format. -/
inductive FormatProblem
  /-- The piece is neither an integer nor a word. -/
  | unexpectedPiece (piece : String)
  /-- A word stands where something else was expected. -/
  | unexpectedWord (expected : Expectation) (word : String)
  /-- The text ends where something was expected. -/
  | unexpectedEnd (expected : Expectation)
  | negativeCount (count : Int)
  | countTooLarge (count max : Nat)
  /-- A word other than the one that begins a block stands where a block should
  begin. -/
  | noBlock (word : String)
  /-- An integer stands where a block should begin. -/
  | surplusInteger (value : Int) (count : Nat)
deriving DecidableEq, Inhabited

/-- Why an input is not solved. -/
inductive Refusal
  /-- The variable at a position has another identity. -/
  | misplaced (position id : Nat)
  /-- The text of an instance breaks the format on a line. -/
  | unreadable (line : Nat) (problem : FormatProblem)
  /-- A constraint names a variable that is not there. -/
  | unknownVariable (index : Int) (count : Nat)
  /-- The lower bound of a domain is above its upper bound. -/
  | emptyDomain (index : Nat) (lower upper : Int)
  /-- A domain has more values than a variable may have. -/
  | domainTooLarge (index : Nat) (lower upper : Int) (max : Nat)
  /-- There are more variables than an instance may have. -/
  | tooManyVariables (count max : Nat)
  /-- A constraint names one variable twice. -/
  | selfConstraint (index : Nat)
  /-- A file cannot be read. -/
  | file (problem : FileProblem)
  /-- The settings are wrong. -/
  | settings (problem : SettingsProblem)
deriving DecidableEq, Inhabited

/-- What a file problem says. -/
def FileProblem.message : FileProblem → String
  | missing => "No such file or directory (os error 2)"
  | directory => "Is a directory (os error 21)"
  | notDirectory => "Not a directory (os error 20)"
  | nameTooLong => "File name too long (os error 36)"
  | denied => "Permission denied (os error 13)"
  | notText => "stream did not contain valid UTF-8"

/-- What was expected, in words. -/
def Expectation.text : Expectation → String
  | variableCount => "the number of variables"
  | lowerBound i => s!"the lower bound of variable {i}"
  | upperBound i => s!"the upper bound of variable {i}"
  | variableIndex => "a variable index"
  | value => "a value"
  | secondValue => "the second value of the pair"

/-- What a format problem says. -/
def FormatProblem.message : FormatProblem → String
  | unexpectedPiece piece => s!"unexpected token `{piece}`"
  | unexpectedWord expected word => s!"expected {expected.text}, found `{word}`"
  | unexpectedEnd expected => s!"expected {expected.text}, found end of input"
  | negativeCount count => s!"negative variable count {count}"
  | countTooLarge count max =>
      s!"variable count {count} exceeds the limit of {max}"
  | noBlock word => s!"expected `c(<var>, <var>)`, found `{word}`"
  | surplusInteger value count =>
      s!"expected `c(<var>, <var>)`, found `{value}`; the instance declares {count} variables"

/-- What a refusal says. -/
def Refusal.message : Refusal → String
  | misplaced position id => s!"variable at position {position} has id {id}"
  | unreadable line problem => s!"line {line}: {problem.message}"
  | unknownVariable index count =>
      s!"constraint references variable {index}, but the problem only has {count} variables"
  | emptyDomain index lower upper =>
      s!"variable {index} has an empty domain {lower}..={upper}"
  | domainTooLarge index lower upper max =>
      s!"variable {index} has domain {lower}..={upper}, larger than {max} values"
  | tooManyVariables count max =>
      s!"{count} variables exceed the limit of {max}"
  | selfConstraint index =>
      s!"constraint scope ({index}, {index}) names a single variable"
  | file problem => problem.message
  | settings (.json _) => "invalid solver configuration"
  | settings .noSolutions =>
      "invalid solver configuration: `limit.at_most` must be at least 1"

end ConstraintNet
