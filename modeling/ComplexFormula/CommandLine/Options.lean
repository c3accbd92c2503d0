/-! # Command line options

A long option has two dashes and takes its value after an equals sign or from the next argument. A
short one has one dash and one letter; several may be joined, and what follows the first that takes
a value is that value. After two dashes alone nothing is an option.
-/

namespace ComplexFormula.CommandLine

inductive UsageFault
  | noArguments
  | unknownOption (option : String)
  | missingValue (option : String)
  | unexpectedValue (option : String)
  | missingCommand
  | unknownCommand (name : String)
  | missingArgument (name : String)
  | extraArgument (argument : String)
deriving Repr, DecidableEq

structure Switch (α : Type) where
  key : α
  long : String
  short : Option Char
  takesValue : Bool

/-- What one argument gives: options with their values, and one whose value is to follow. -/
structure Reading (α : Type) where
  given : List (α × String)
  awaiting : Option α

structure Arguments (α : Type) where
  given : List (α × String)
  positional : List String

variable {α : Type}

def splitEquals (cs : List Char) : List Char × Option (List Char) :=
  match cs.dropWhile (· != '=') with
  | _ :: after => (cs.takeWhile (· != '='), some after)
  | [] => (cs, none)

def readJoined (switches : List (Switch α)) : List Char → Except UsageFault (Reading α)
  | [] => .ok ⟨[], none⟩
  | c :: cs =>
    match switches.find? (·.short == some c) with
    | none => .error (.unknownOption (String.ofList ['-', c]))
    | some switch =>
      if switch.takesValue then
        if cs.isEmpty then .ok ⟨[], some switch.key⟩
        else .ok ⟨[(switch.key, String.ofList cs)], none⟩
      else do
        let reading ← readJoined switches cs
        .ok { reading with given := (switch.key, "") :: reading.given }

def readOption (switches : List (Switch α)) (argument : String) :
    Except UsageFault (Reading α) :=
  let (name, value?) := splitEquals argument.toList
  match switches.find? (·.long == String.ofList name), value? with
  | some switch, some value =>
    if switch.takesValue then .ok ⟨[(switch.key, String.ofList value)], none⟩
    else .error (.unexpectedValue switch.long)
  | some switch, none =>
    if switch.takesValue then .ok ⟨[], some switch.key⟩ else .ok ⟨[(switch.key, "")], none⟩
  | none, _ =>
    match argument.toList with
    | '-' :: '-' :: _ => .error (.unknownOption (String.ofList name))
    | _ :: joined => readJoined switches joined
    | [] => .ok ⟨[], none⟩

def isOption (argument : String) : Bool :=
  match argument.toList with
  | '-' :: _ :: _ => true
  | _ => false

/-- Sorts arguments into options and others. Unless they are `mixed`, all arguments after the first
that is no option are taken as they are. -/
def readArguments (switches : List (Switch α)) (mixed : Bool) :
    List String → Except UsageFault (Arguments α)
  | [] => .ok ⟨[], []⟩
  | argument :: rest =>
    if argument = "--" then .ok ⟨[], rest⟩
    else if isOption argument then do
      let reading ← readOption switches argument
      match reading.awaiting, rest with
      | none, rest => do
        let arguments ← readArguments switches mixed rest
        .ok { arguments with given := reading.given ++ arguments.given }
      | some key, value :: rest => do
        let arguments ← readArguments switches mixed rest
        .ok { arguments with given := reading.given ++ (key, value) :: arguments.given }
      | some _, [] => .error (.missingValue argument)
    else if mixed then do
      let arguments ← readArguments switches mixed rest
      .ok { arguments with positional := argument :: arguments.positional }
    else .ok ⟨[], argument :: rest⟩

def Arguments.values [BEq α] (arguments : Arguments α) (key : α) : List String :=
  (arguments.given.filter (·.1 == key)).map Prod.snd

end ComplexFormula.CommandLine
