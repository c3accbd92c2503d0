import ComplexFormula.Parsing.Fault

/-! # Diagnostics

What a user is told: a message of some kind, and for a fault of the source the source itself with a
caret under the place.
-/

namespace ComplexFormula

inductive ErrorKind
  | general
  | compilation
  | malformed
  | nesting
  | allocation
  | settings
deriving Repr, DecidableEq

namespace ErrorKind

/-- The kind and those that it is a case of, the narrowest first. -/
def ancestry : ErrorKind → List ErrorKind
  | general => [general]
  | compilation => [compilation, general]
  | malformed => [malformed, compilation, general]
  | nesting => [nesting, malformed, compilation, general]
  | allocation => [allocation, compilation, general]
  | settings => [settings, general]

end ErrorKind

structure SourceContext where
  source : String
  offset : Int

namespace SourceContext

/-- How far the caret is set in: it stands under the last character read, or under the last of the
source. -/
def column (c : SourceContext) : Nat :=
  (min c.offset c.source.length - 1).toNat

def marker (c : SourceContext) : String :=
  String.ofList (List.replicate c.column ' ') ++ "^"

def render (c : SourceContext) : String :=
  "  " ++ c.source ++ "\n  " ++ c.marker

end SourceContext

structure Diagnostic where
  kind : ErrorKind
  message : String
  context : Option SourceContext

namespace Diagnostic

def text (d : Diagnostic) : String :=
  match d.context with
  | some context => d.message ++ "\n" ++ context.render
  | none => d.message

/-- Places are counted from one: something has been looked at, even if the source is empty. -/
def place (offset : Int) : Int :=
  max offset 1

def located (kind : ErrorKind) (message : String) (offset : Int) (source : Option String) :
    Diagnostic :=
  ⟨kind, message, source.map fun s => ⟨s, place offset⟩⟩

end Diagnostic

namespace ParseFault

def kind (f : ParseFault) : ErrorKind :=
  if f.isNesting then .nesting else .malformed

def offset (f : ParseFault) : Int :=
  Diagnostic.place f.cursor

def diagnostic (f : ParseFault) (source : String) : Diagnostic :=
  .located f.kind f.message f.cursor (some source)

end ParseFault

end ComplexFormula
