import ComplexFormula.CommandLine.Options

/-! # Requests

What the arguments of the command line ask for.
-/

namespace ComplexFormula.CommandLine

inductive Command
  | evaluate
  | outline
deriving Repr, DecidableEq

structure Invocation where
  command : Command
  expression : String
  /-- The variables to be bound, each as `name=value`. -/
  assignments : List String
  configPath : Option String
  /-- Constants stay as they are, whatever the settings say. -/
  unfolded : Bool

inductive Request
  | help
  | version
  | completion
  | run (invocation : Invocation)

inductive Key
  | help
  | version
  | verbose
  | completion
  | assignments
  | config
  | unfolded
deriving Repr, DecidableEq

namespace Request

def helpSwitch : Switch Key := ⟨.help, "--help", none, false⟩

def programSwitches : List (Switch Key) :=
  [⟨.version, "--version", none, false⟩, ⟨.verbose, "--verbose", some 'v', false⟩,
    ⟨.completion, "--install-completion", none, false⟩,
    ⟨.completion, "--show-completion", none, false⟩, helpSwitch]

def commandSwitches : Command → List (Switch Key)
  | .evaluate => shared
  | .outline => ⟨.unfolded, "--no-fold", none, false⟩ :: shared
where
  shared :=
    [⟨.assignments, "--var", some 'x', true⟩, ⟨.config, "--config", some 'c', true⟩, helpSwitch]

def command? (name : String) : Option Command :=
  if name = "eval" then some .evaluate else if name = "tree" then some .outline else none

def invocation (command : Command) (arguments : Arguments Key) : Except UsageFault Request :=
  if arguments.given.any (·.1 == .help) then .ok .help
  else
    match arguments.positional with
    | [] => .error (.missingArgument "EXPRESSION")
    | [expression] =>
      .ok (.run
        { command := command
          expression := expression
          assignments := arguments.values .assignments
          configPath := (arguments.values .config).getLast?
          unfolded := arguments.given.any (·.1 == .unfolded) })
    | _ :: extra :: _ => .error (.extraArgument extra)

/-- What is to be shown and nothing else: of help and version the first that is asked for, and the
completion after both. -/
def shown? (program : Arguments Key) : Option Request :=
  let keys := program.given.map Prod.fst
  match keys.find? (fun key => key == .help || key == .version) with
  | some .version => some .version
  | some _ => some .help
  | none => if keys.contains .completion then some .completion else none

/-- A command with its own arguments. Where no command is known by the name, the arguments are read
as options of the program once more, since they may stand after two dashes. -/
def ofCommand : List String → Except UsageFault Request
  | [] => .error .missingCommand
  | name :: rest =>
    match command? name with
    | some command => do
      let arguments ← readArguments (commandSwitches command) true rest
      invocation command arguments
    | none => do
      let program ← readArguments programSwitches false (name :: rest)
      match shown? program with
      | some request => .ok request
      | none => .error (.unknownCommand name)

def parse (arguments : List String) : Except UsageFault Request :=
  if arguments.isEmpty then .error .noArguments
  else do
    let program ← readArguments programSwitches false arguments
    match shown? program with
    | some request => .ok request
    | none => ofCommand program.positional

end Request

end ComplexFormula.CommandLine
