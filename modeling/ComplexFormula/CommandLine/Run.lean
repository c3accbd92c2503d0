import ComplexFormula.CommandLine.Request
import ComplexFormula.Compilation
import ComplexFormula.Settings.Load
import ComplexFormula.Symbol.Fields

/-! # Running commands

A command reads its settings first, then its variables, then the formula, and stops at the first
thing that is wrong. It writes to one stream only, so that nothing is printed before a fault.
-/

namespace ComplexFormula.CommandLine

def version : String := "0.1.0"

def programName : String := "complexpr"

def defaultConfig : String := "complexpr.toml"

inductive FileState
  | missing
  | directory
  | unreadable
  | text (content : String)

/-- What a command cannot report, since it is no fault of the user's formula. -/
inductive Crash
  | settings (fault : Settings.LoadFault)
  | settingsDirectory
  | unreadableSettings
  | unknownShell
  | callable (fault : Fault)

inductive Outcome
  | printed (text : String)
  | help
  | version
  | usage (fault : UsageFault)
  | badVariable (message : String)
  | badSettings (message : String)
  | badFormula (message : String)
  | crashed (crash : Crash)

def normalizePath (path : String) : String :=
  let parts := (path.splitOn "/").filter fun part => part != "" && part != "."
  let root :=
    if path.startsWith "//" && !path.startsWith "///" then "//"
    else if path.startsWith "/" then "/"
    else ""
  let joined := root ++ "/".intercalate parts
  if joined.isEmpty then "." else joined

namespace Invocation

def config (invocation : Invocation) : String :=
  normalizePath (invocation.configPath.getD defaultConfig)

end Invocation

def describeIssues (issues : List Issue) : String :=
  ", ".intercalate (issues.map fun issue => issue.field ++ " " ++ issue.kind.code)

def loadSettings (path : String) : FileState → Except Outcome Settings
  | .directory => .error (.crashed .settingsDirectory)
  | .unreadable => .error (.crashed .unreadableSettings)
  | .missing => .ok {}
  | .text content =>
    match Settings.load (some content) with
    | .ok settings => .ok settings
    | .error (.invalidDocument cause) =>
      .error (.badSettings ("Invalid TOML in " ++ path ++ ": " ++ cause.message))
    | .error (.invalidSettings issues) =>
      .error (.badSettings ("Invalid [complexpr] settings in " ++ path ++ ": " ++
        describeIssues issues))
    | .error fault => .error (.crashed (.settings fault))

/-- The cells of a command are never assigned, and it has no callables. -/
def host : Host Cell Empty Unit where
  read c := pure c.content
  function := nofun
  closure := nofun

def trimmed (s : String) : String :=
  String.ofList (Text.trim Text.isBlank s.toList)

def variableValue (name source : String) : Except Outcome ComplexFloat :=
  match compile emptyHost {} source [] () with
  | .ok h _ =>
    match h.evaluate emptyHost () with
    | .ok z _ => .ok z
    | .error fault _ => .error (.crashed (.callable fault))
  | .error fault _ =>
    match fault.diagnostic? source, fault with
    | some d, _ => .error (.badVariable ("Invalid value for " ++ name ++ ": " ++ d.message))
    | none, .escaped fault => .error (.crashed (.callable fault))
    | none, _ => .error (.crashed (.callable .outOfMemory))

def variableOf (spec : String) : Except Outcome (Symbol Cell Empty) :=
  let (before, after) := splitEquals spec.toList
  let name := trimmed (String.ofList before)
  match after with
  | some source =>
    if name.isEmpty then .error (.badVariable ("Expected name=value, got " ++ Text.quote spec))
    else do
      let z ← variableValue name (String.ofList source)
      match Symbol.ofCell name (Cell.of z) with
      | .ok symbol => .ok symbol
      | .error _ => .error (.badVariable ("Invalid variable name " ++ Text.quote name))
  | none => .error (.badVariable ("Expected name=value, got " ++ Text.quote spec))

def reportCompileFault (source : String) (fault : CompileFault) : Outcome :=
  match fault with
  | .malformed parseFault =>
    let context : SourceContext := ⟨source, parseFault.offset⟩
    .badFormula ("Syntax error at offset " ++ toString parseFault.offset ++ ": " ++
      parseFault.message ++ "\n" ++ context.render ++ "\n")
  | .outOfMemory =>
    .badFormula ("Compile error: Out of memory compiling " ++ Text.quote source ++ "\n")
  | .escaped fault => .crashed (.callable fault)

def answer (command : Command) (h : Handle Cell Empty) : Outcome :=
  match command with
  | .outline => .printed (h.outline ++ "\n")
  | .evaluate =>
    match h.evaluate host () with
    | .ok z _ => .printed (z.display ++ "\n")
    | .error fault _ => .crashed (.callable fault)

namespace Invocation

def attempt (invocation : Invocation) (file : FileState) : Except Outcome Outcome := do
  let settings ← loadSettings invocation.config file
  let settings := if invocation.unfolded then { settings with folding := false } else settings
  let bindings ← invocation.assignments.mapM variableOf
  match compile host settings invocation.expression bindings () with
  | .ok h _ => .ok (answer invocation.command h)
  | .error fault _ => .error (reportCompileFault invocation.expression fault)

def run (invocation : Invocation) (file : FileState) : Outcome :=
  match invocation.attempt file with
  | .ok outcome => outcome
  | .error outcome => outcome

end Invocation

def execute (look : String → FileState) (arguments : List String) : Outcome :=
  match Request.parse arguments with
  | .error fault => .usage fault
  | .ok .help => .help
  | .ok .version => .version
  | .ok .completion => .crashed .unknownShell
  | .ok (.run invocation) => invocation.run (look invocation.config)

namespace Outcome

def exitCode : Outcome → Nat
  | printed _ | help | version => 0
  | badFormula _ | crashed _ => 1
  | usage _ | badVariable _ | badSettings _ => 2

end Outcome

end ComplexFormula.CommandLine
