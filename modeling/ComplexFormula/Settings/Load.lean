import ComplexFormula.Settings.Basic
import ComplexFormula.Toml.Document

/-! # Loading settings

Settings stand in a table of their own or among those of other tools; the first counts unless it is
empty. A file that is not there gives the defaults. What is found is left to a validator, which is a
parameter up to the last step.
-/

namespace ComplexFormula.Settings

inductive LoadFault
  | invalidDocument (cause : Toml.Cause)
  | invalidSettings (issues : List Issue)
  | sectionNoTable
  | toolNoTable
  | hugeInteger
  | nesting

def sectionName : String := "complexpr"

def toolName : String := "tool"

def toolSection? (document : Datum.Entries) : Except LoadFault (Option Datum) :=
  match document.lookup toolName with
  | none => .ok none
  | some (.table tools) => .ok (tools.lookup sectionName)
  | some _ => .error .toolNoTable

def section? (document : Datum.Entries) : Except LoadFault (Option Datum) :=
  match document.lookup sectionName with
  | some own => if own.isTruthy then .ok (some own) else toolSection? document
  | none => toolSection? document

/-- Settings or what is wrong with the entries of their table. -/
abbrev Validator := Datum.Entries → Except (List Issue) Settings

def ofDocument (validate : Validator) (document : Datum.Entries) : Except LoadFault Settings := do
  match ← section? document with
  | none => .ok {}
  | some found =>
    if !found.isTruthy then .ok {}
    else
      match found with
      | .table entries => (validate entries).mapError .invalidSettings
      | _ => .error .sectionNoTable

def ofText (validate : Validator) (text : String) : Except LoadFault Settings :=
  match Toml.read text with
  | .ok document => ofDocument validate document
  | .error (.malformed cause) => .error (.invalidDocument cause)
  | .error .hugeInteger => .error .hugeInteger
  | .error .nesting => .error .nesting

def load : Option String → Except LoadFault Settings
  | some text => ofText ofTable text
  | none => .ok {}

end ComplexFormula.Settings
