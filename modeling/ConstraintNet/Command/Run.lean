import ConstraintNet.Command.Options
import ConstraintNet.Engine
import ConstraintNet.Instance.Reader
import ConstraintNet.Outcome
import ConstraintNet.Settings.Json
/-!
# Running the command

The command reads settings from a file, if one is named, and sets what the
options ask for; then it reads the instance from its file, solves it and
prints the outcome.  All that it needs from outside is the contents of files.
-/

namespace ConstraintNet.Command

/-- The contents of the files by their names. -/
abbrev Files := String → Except FileProblem ByteArray

/-- The text of a file. -/
def readText (files : Files) (name : String) : Except Refusal String :=
  match files name with
  | .error problem => .error (.file problem)
  | .ok bytes =>
    match String.fromUTF8? bytes with
    | some text => .ok text
    | none => .error (.file .notText)

/-- The settings that the options ask for. -/
def settings (files : Files) (o : Options) : Except Refusal Settings := do
  match o.config with
  | none => return o.override {}
  | some name =>
    match Settings.read (← readText files name) with
    | .ok s => return o.override s
    | .error problem => throw (.settings problem)

/-- What the command prints about an outcome. -/
def printed (o : Options) (outcome : Outcome) (network : Network) : String :=
  (if o.json then outcome.json.pretty ++ "\n" else outcome.text) ++
    (if o.stats then outcome.tally.grid network ++ "\n" else "")

/-- Solves the instance in the file and answers what is printed. -/
def solve (files : Files) (o : Options) : Except Failure String :=
  let built : Except Refusal (Settings × Arena × Network) := do
    let settings ← settings files o
    let c ← Instance.read (← readText files (o.file.getD ""))
    return (settings, ← c.build)
  match built with
  | .error why => .error (.refused why)
  | .ok (settings, arena, network) =>
    ((Engine.ofSettings settings).solveBuilt arena network).map
      fun (outcome, _, _) =>
      printed o outcome network

/-- The name of the command with its version. -/
def version : String := "bincsp 0.1.0"

/-- How the command is used. -/
def usage : String :=
  "Usage: bincsp [OPTIONS] <FILE>\n\n" ++
  "Options:\n" ++
  "  -a, --algorithm <fc|mac>              Search algorithm\n" ++
  "      --var-order <asc|sdf|mcf|random>  Variable ordering\n" ++
  "      --val-order <asc|desc>            Value ordering\n" ++
  "      --all                             Enumerate every solution\n" ++
  "  -n, --solutions <N>                   Stop after this many solutions\n" ++
  "      --seed <SEED>                     Seed for the random variable ordering\n" ++
  "      --config <FILE>                   JSON solver configuration\n" ++
  "      --json                            Print the outcome as JSON\n" ++
  "      --stats                           Print per-constraint statistics\n" ++
  "  -h, --help                            Print help\n" ++
  "  -V, --version                         Print version\n"

/-- What a run of the command comes to: its exit status and what it prints. -/
structure Result where
  status : Nat
  output : String := ""
  complaint : String := ""
deriving DecidableEq, Inhabited

/-- Runs the command. -/
def run (files : Files) (arguments : List String) : Result :=
  match Options.read arguments with
  | .error .misuse => { status := 2, complaint := usage }
  | .error .help => { status := 0, output := usage }
  | .error .version => { status := 0, output := version ++ "\n" }
  | .ok o =>
    match solve files o with
    | .ok output => { status := 0, output }
    | .error (.refused why) => { status := 1, complaint := why.message ++ "\n" }
    | .error (.broken fault) =>
        { status := 101, complaint := fault.message ++ "\n" }

/-- The files that the arguments name. -/
def fileNames (arguments : List String) : List String :=
  match Options.read arguments with
  | .ok o => o.config.toList ++ o.file.toList
  | .error _ => []

end ConstraintNet.Command
