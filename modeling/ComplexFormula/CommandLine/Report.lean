import ComplexFormula.CommandLine.Run

/-! # Reports

What an outcome writes to the output and what it writes to the error stream. The help, and what is
said of arguments that cannot be read, are worded by the option parser and are no part of a report.
-/

namespace ComplexFormula.CommandLine

def versionLine : String :=
  programName ++ " " ++ version

namespace Outcome

def output : Outcome → String
  | printed text => text
  | version => versionLine ++ "\n"
  | _ => ""

def complaint : Outcome → String
  | badVariable message => message ++ "\n"
  | badSettings message => "Config error: " ++ message ++ "\n"
  | badFormula message => message
  | _ => ""

end Outcome

end ComplexFormula.CommandLine
