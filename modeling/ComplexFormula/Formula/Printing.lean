import ComplexFormula.Complex.Printing
import ComplexFormula.Formula.Walk

/-! # Texts of formulas

A formula is shown on one line as a text that reads like its source, or as an outline with one node
a line and a space of indent for each level.
-/

namespace ComplexFormula.Formula

variable {κ φ : Type}

inductive TextFault
  | noOperand
  /-- Calls inside calls, deeper than they are followed. -/
  | nesting
deriving Repr, DecidableEq

/-- Which form a call is written in goes by its name and the number of its arguments alone. -/
inductive CallForm
  | infixed
  | signed
  | applied
deriving Repr, DecidableEq

def CallForm.of (name : String) (size : Nat) : CallForm :=
  if (Operator.ofSymbol? name).isSome && size = 2 then .infixed
  else if name = Callee.negationName then .signed
  else .applied

def CallForm.cost : CallForm → Nat
  | infixed | signed => 4
  | applied => 5

/-- The text of a call from those of its arguments, the first fault of which counts. A minus sign
shows its first operand only. -/
def callText (name : String) (args : List (Except TextFault String)) : Except TextFault String :=
  match CallForm.of name args.length with
  | .infixed => do
    let operands ← args.mapM id
    .ok ("(" ++ (" " ++ name ++ " ").intercalate operands ++ ")")
  | .signed =>
    match args with
    | first :: _ => ("-" ++ ·) <$> first
    | [] => .error .noOperand
  | .applied => do
    let args ← args.mapM id
    .ok (name ++ "(" ++ ", ".intercalate args ++ ")")

mutual

def textWithin : (room : Nat) → Formula κ φ → Except TextFault String
  | _, constant z => .ok z.brief
  | _, cell name _ => .ok name
  | room, call callee args =>
    let cost := (CallForm.of callee.name args.length).cost
    if room < cost then .error .nesting
    else callText callee.name (textsWithin (room - cost) args)

def textsWithin : (room : Nat) → List (Formula κ φ) → List (Except TextFault String)
  | _, [] => []
  | room, t :: ts => textWithin room t :: textsWithin room ts

end

def textRoom : Nat := 984

def text (t : Formula κ φ) : Except TextFault String :=
  textWithin textRoom t

/-- One node of an outline: a value, a bound name, or arity and name of a callable. -/
def label : Formula κ φ → String
  | constant z => z.display
  | cell name _ => "bound " ++ name
  | call callee _ =>
    (if callee.target.isClosure then "c" else "f") ++ toString callee.arity ++ " " ++ callee.name

def outlineLine (entry : Formula κ φ × Nat) : String :=
  String.ofList (List.replicate entry.2 ' ') ++ entry.1.label

def outline (t : Formula κ φ) : String :=
  "\n".intercalate (t.walk.map outlineLine)

end ComplexFormula.Formula
