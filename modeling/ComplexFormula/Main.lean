import ComplexFormula.CommandLine.Report

/-! # The program

Looks up the settings file that the arguments ask for, runs the command and writes its report.
-/

namespace ComplexFormula.CommandLine

def fileState (path : String) : IO FileState := do
  try
    return .text (← IO.FS.readFile path)
  catch
    | .noFileOrDirectory .. => return .missing
    -- Opening fails where the path goes on below a file, reading where it ends at a directory.
    | .inappropriateType (some _) .. => return .missing
    | .inappropriateType none .. => return .directory
    | _ => return .unreadable

/-- Runs the program; no file is read unless a command needs its settings. -/
def perform (arguments : List String) : IO Outcome := do
  match Request.parse arguments with
  | .ok (.run invocation) => return invocation.run (← fileState invocation.config)
  | _ => return execute (fun _ => .missing) arguments

end ComplexFormula.CommandLine

def main (arguments : List String) : IO UInt32 := do
  let outcome ← ComplexFormula.CommandLine.perform arguments
  IO.print outcome.output
  IO.eprint outcome.complaint
  return outcome.exitCode.toUInt32
