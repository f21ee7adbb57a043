import ConstraintNet.Settings
import ConstraintNet.Text.Numeral
/-!
# Options of the command

Options and the one file come in any order.  The value of an option is the next
argument, or stands behind an equals sign, or, for an option of one letter,
directly behind the letter.  Behind two dashes every argument is a file.  No
option is given twice, and a value that is an argument of its own does not
begin with a dash.  Asking for the version or for help ends the reading at once.
-/

namespace ConstraintNet.Command

/-- What the arguments ask for, together with the file. -/
structure Options where
  algorithm : Option Algorithm := none
  variableOrder : Option VariableOrder := none
  valueOrder : Option ValueOrder := none
  all : Bool := false
  solutions : Option Nat := none
  seed : Option UInt64 := none
  config : Option String := none
  json : Bool := false
  stats : Bool := false
  file : Option String := none
deriving DecidableEq, Inhabited

/-- An option with a value. -/
inductive Valued
  | algorithm
  | variableOrder
  | valueOrder
  | solutions
  | seed
  | config
deriving DecidableEq, Inhabited

/-- An option without a value. -/
inductive Flag
  | all
  | json
  | stats
  | help
  | version
deriving DecidableEq, Inhabited

/-- Why the arguments are not read to the end. -/
inductive Stop
  | misuse
  | help
  | version
deriving DecidableEq, Inhabited

/-- The options by their long names. -/
def longNames : List (String × (Valued ⊕ Flag)) :=
  [("algorithm", .inl .algorithm), ("var-order", .inl .variableOrder),
    ("val-order", .inl .valueOrder), ("solutions", .inl .solutions),
    ("seed", .inl .seed),
    ("config", .inl .config), ("all", .inr .all), ("json", .inr .json),
    ("stats", .inr .stats), ("help", .inr .help), ("version", .inr .version)]

/-- The options by their letters. -/
def letters : List (Char × (Valued ⊕ Flag)) :=
  [('a', .inl .algorithm), ('n', .inl .solutions), ('h', .inr .help),
    ('V', .inr .version)]

namespace Options

/-- Gives a value to what has none yet. -/
def fill {α : Type} (old new : Option α) : Except Stop (Option α) :=
  if old.isSome || new.isNone then .error .misuse else .ok new

/-- A path, which must not be empty. -/
def path? (text : String) : Option String :=
  if text.isEmpty then none else some text

/-- Sets an option to a value. -/
def setValue (o : Options) (v : Valued) (text : String) : Except Stop Options :=
  let number := Text.readNat64? text.toList
  match v with
  | .algorithm =>
      (fill o.algorithm (Choice.find? _ text)).map ({ o with algorithm := · })
  | .variableOrder =>
    (fill o.variableOrder (Choice.find? _ text)).map
      ({ o with variableOrder := · })
  | .valueOrder =>
      (fill o.valueOrder (Choice.find? _ text)).map ({ o with valueOrder := · })
  | .solutions => (fill o.solutions number).map ({ o with solutions := · })
  | .seed => (fill o.seed (number.map UInt64.ofNat)).map ({ o with seed := · })
  | .config => (fill o.config (path? text)).map ({ o with config := · })

/-- Sets a flag. -/
def setFlag (o : Options) : Flag → Except Stop Options
  | .all => if o.all then .error .misuse else .ok { o with all := true }
  | .json => if o.json then .error .misuse else .ok { o with json := true }
  | .stats => if o.stats then .error .misuse else .ok { o with stats := true }
  | .help => .error .help
  | .version => .error .version

/-- Sets the file. -/
def setFile (o : Options) (text : String) : Except Stop Options :=
  (fill o.file (path? text)).map ({ o with file := · })

/-- Reads an option by its long name, with the value behind the equals sign, if
there is one.  An option that still awaits its value is answered too. -/
def readLong (o : Options) (body : List Char) :
    Except Stop (Options × Option Valued) :=
  let name := String.ofList (body.takeWhile (· != '='))
  let value? := (body.dropWhile (· != '=')).tail? |>.map String.ofList
  match longNames.lookup name, value? with
  | some (.inl v), some text => (o.setValue v text).map (·, none)
  | some (.inl v), none => .ok (o, some v)
  | some (.inr f), none => (o.setFlag f).map (·, none)
  | some (.inr _), some _ => .error .misuse
  | none, _ => .error .misuse

/-- Reads options by their letters.  An option that still awaits its value is
answered too. -/
def readLetters (o : Options) :
    List Char → Except Stop (Options × Option Valued)
  | [] => .ok (o, none)
  | c :: rest =>
    match letters.lookup c with
    | some (.inl v) =>
      match rest with
      | [] => .ok (o, some v)
      | '=' :: text => (o.setValue v (String.ofList text)).map (·, none)
      | text => (o.setValue v (String.ofList text)).map (·, none)
    | some (.inr f) =>
      match o.setFlag f with
      | .ok o => o.readLetters rest
      | .error e => .error e
    | none => .error .misuse

/-- Reads arguments; `awaited` is the option whose value the next one is. -/
def readFrom (o : Options) (awaited : Option Valued) :
    List String → Except Stop Options
  | [] => if awaited.isSome then .error .misuse else .ok o
  | argument :: rest =>
    match argument.toList, awaited with
    | '-' :: '-' :: [], some _ => .error .misuse
    | '-' :: '-' :: [], none => rest.foldlM setFile o
    | '-' :: _ :: _, some _ => .error .misuse
    | '-' :: '-' :: body, none =>
      match o.readLong body with
      | .ok (o, awaited) => o.readFrom awaited rest
      | .error e => .error e
    | '-' :: c :: body, none =>
      match o.readLetters (c :: body) with
      | .ok (o, awaited) => o.readFrom awaited rest
      | .error e => .error e
    | _, some v =>
      match o.setValue v argument with
      | .ok o => o.readFrom none rest
      | .error e => .error e
    | _, none =>
      match o.setFile argument with
      | .ok o => o.readFrom none rest
      | .error e => .error e

/-- Reads the arguments of the command. -/
def read (arguments : List String) : Except Stop Options := do
  let o ← readFrom {} none arguments
  if o.file.isNone || o.all && o.solutions.isSome then .error .misuse
  else return o

/-- Settings with what the options ask for. -/
def override (o : Options) (s : Settings) : Settings where
  algorithm := o.algorithm.getD s.algorithm
  variableOrder := o.variableOrder.getD s.variableOrder
  valueOrder := o.valueOrder.getD s.valueOrder
  limit :=
    if o.all then .all else o.solutions.elim s.limit fun n => .atMost (max n 1)
  seed := o.seed.getD s.seed

end Options

end ConstraintNet.Command
