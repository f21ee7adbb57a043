import ConstraintNet.Command.Run
/-!
# The command line

Reads the files that the arguments name, runs the command and prints what it
answers.
-/

namespace ConstraintNet

/-- The contents of a file. -/
def readContents (name : String) : IO (Except FileProblem ByteArray) := do
  try
    return .ok (← IO.FS.readBinFile name)
  catch
    | .noFileOrDirectory _ _ _ => return .error .missing
    | .permissionDenied _ _ _ => return .error .denied
    | .inappropriateType (some _) _ _ => return .error .notDirectory
    | .invalidArgument _ _ _ => return .error .nameTooLong
    | _ => return .error .directory

end ConstraintNet

open ConstraintNet in
/-- Solves the instance in a file. -/
def main (arguments : List String) : IO UInt32 := do
  let mut contents := []
  for name in Command.fileNames arguments do
    contents := (name, ← readContents name) :: contents
  let files : Command.Files := fun name =>
    (contents.lookup name).getD (.error .missing)
  let result := Command.run files arguments
  IO.print result.output
  IO.eprint result.complaint
  return result.status.toUInt32
