import PackagePlanner.CommandLine.Run

/-!
The program: it runs on the files of the system and prints the outcome.
-/

namespace PackagePlanner

/-- What a path of the system leads to. A directory opens like a file and shows itself only when it is
read, without its name; a path that goes on behind a file does not open. -/
def lookUp (path : String) : IO Found := do
  if let some failure := refusal? path then return .missing failure
  try
    return .file (← IO.FS.readBinFile path)
  catch e =>
    match e with
    | .noFileOrDirectory _ _ _ => return .missing .notFound
    | .invalidArgument _ _ _ => return .missing .tooLong
    | .inappropriateType (some _) _ _ => return .missing .notDirectory
    | .inappropriateType none _ _ => return .unreadable .isDirectory
    | .permissionDenied _ _ _ => return .unreadable (.system "Permission denied" 13)
    | other => return .unreadable (.system other.toString 5)

end PackagePlanner

/-- Runs the program on the arguments. -/
def main (args : List String) : IO UInt32 := do
  let outcome ← PackagePlanner.Run.program PackagePlanner.lookUp args
  IO.print outcome.output
  IO.eprint outcome.error
  return outcome.exit
