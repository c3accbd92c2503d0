import ComplexFormula.Text.Quoted

/-! # Faults of a source text

Why a text is no formula, with the place of the token that shows it.
-/

namespace ComplexFormula

/-- The text of the token that stands where another was needed, or the end of the source. -/
abbrev Found := Option String

def Found.describe : Found → String
  | none => "end of expression"
  | some text => Text.quote text

inductive ParseFault.Cause
  | unexpected (found : Found)
  | unknown (text : Found)
  | unclosed (found : Found)
  /-- The parenthesis after a name without arguments is not closed. -/
  | unclosedName (name : String) (found : Found)
  /-- A function of several arguments has no list of them. -/
  | unopened (name : String) (found : Found)
  | argumentCount (name : String) (arity : Nat)
  | trailing (found : Found)
  | nesting (limit : Int)
  /-- Operands are nested deeper than the reader can follow. -/
  | exhausted

structure ParseFault where
  cause : ParseFault.Cause
  cursor : Nat

namespace ParseFault

def Cause.message : Cause → String
  | unexpected found => "Unexpected " ++ found.describe
  | unknown text => "Unknown symbol " ++ text.describe
  | unclosed found => "Expected ')' to close '(', got " ++ found.describe
  | unclosedName name found => "Expected ')' after " ++ name ++ "(, got " ++ found.describe
  | unopened name found => "Expected '(' after " ++ name ++ ", got " ++ found.describe
  | argumentCount name arity =>
    name ++ "() takes exactly " ++ toString arity ++ " arguments"
  | trailing found => "Unexpected " ++ found.describe ++ " after expression"
  | nesting limit => "Expression nested deeper than " ++ toString limit ++ " levels"
  | exhausted => "Expression nested too deeply"

def message (f : ParseFault) : String :=
  f.cause.message

def isNesting (f : ParseFault) : Bool :=
  match f.cause with
  | .nesting _ | .exhausted => true
  | _ => false

end ParseFault

end ComplexFormula
