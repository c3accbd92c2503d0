import ComplexFormula.Primitive

/-! # Formulas

A formula is a constant, a reference to a cell, or a call. Operators and the minus sign are calls of
primitives, so that evaluation and folding meet these three shapes only. The types `κ` of cells and
`φ` of callables are the caller's.
-/

namespace ComplexFormula

/-- What a call applies; a closure hands its context on in front of the arguments. -/
inductive Target (κ φ : Type)
  | primitive (p : Primitive)
  | native (f : φ)
  | closure (f : φ) (context : Option κ)

namespace Target

variable {κ φ : Type}

def isClosure : Target κ φ → Bool
  | closure .. => true
  | _ => false

end Target

/-- A callable under its name; a pure one may be called before evaluation. -/
structure Callee (κ φ : Type) where
  name : String
  target : Target κ φ
  arity : Nat
  pure : Bool

def maxArity : Nat := 6

inductive Formula (κ φ : Type)
  | constant (z : ComplexFloat)
  | cell (name : String) (cell : κ)
  | call (callee : Callee κ φ) (args : List (Formula κ φ))

namespace Callee

variable {κ φ : Type}

def operator (op : Operator) : Callee κ φ :=
  ⟨op.symbol, .primitive (.operator op), 2, true⟩

def negationName : String := "neg"

def negation : Callee κ φ :=
  ⟨negationName, .primitive .negation, 1, true⟩

def builtin (f : Builtin) : Callee κ φ :=
  ⟨f.name, .primitive (.builtin f), f.arity, true⟩

end Callee

namespace Formula

variable {κ φ : Type}

def binary (op : Operator) (left right : Formula κ φ) : Formula κ φ :=
  .call (.operator op) [left, right]

def negate (operand : Formula κ φ) : Formula κ φ :=
  .call .negation [operand]

def isLeaf : Formula κ φ → Bool
  | call .. => false
  | _ => true

def constant? : Formula κ φ → Option ComplexFloat
  | constant z => some z
  | _ => none

inductive WellFormed : Formula κ φ → Prop
  | constant (z : ComplexFloat) : WellFormed (.constant z)
  | cell (name : String) (c : κ) : WellFormed (.cell name c)
  | call {callee : Callee κ φ} {args : List (Formula κ φ)} (length_eq : args.length = callee.arity)
      (args_wellFormed : ∀ t ∈ args, WellFormed t) : WellFormed (.call callee args)

/-- A bound on the steps of a pass: each call is met twice. -/
def weight : Formula κ φ → Nat
  | constant _ => 1
  | cell .. => 1
  | call _ args => 2 + weights args
where
  weights : List (Formula κ φ) → Nat
    | [] => 0
    | t :: ts => weight t + weights ts

end Formula

end ComplexFormula
