import ComplexFormula.Formula.Basic

/-! # Symbols

A symbol binds an identifier to a cell or to a callable.
-/

namespace ComplexFormula

def isIdentifierTail (c : Char) : Bool :=
  c.isAlphanum || c = '_'

/-- An ASCII letter, then ASCII letters, digits and underscores. -/
def isIdentifier (name : String) : Bool :=
  match name.toList with
  | [] => false
  | c :: cs => c.isAlpha && cs.all isIdentifierTail

inductive Symbol (κ φ : Type)
  | cell (name : String) (cell : κ)
  | callable (callee : Callee κ φ)

inductive SymbolKind
  | cell
  | function
  | closure
deriving Repr, DecidableEq

namespace SymbolKind

def word : SymbolKind → String
  | cell => "variable"
  | function => "function"
  | closure => "closure"

def ofWord? (s : String) : Option SymbolKind :=
  [cell, function, closure].find? (·.word == s)

end SymbolKind

namespace Symbol

variable {κ φ : Type}

def name : Symbol κ φ → String
  | cell name _ => name
  | callable callee => callee.name

def kind : Symbol κ φ → SymbolKind
  | cell .. => .cell
  | callable callee => if callee.target.isClosure then .closure else .function

/-- A cell takes no arguments. -/
def arity : Symbol κ φ → Nat
  | cell .. => 0
  | callable callee => callee.arity

def pure : Symbol κ φ → Bool
  | cell .. => false
  | callable callee => callee.pure

/-- What every symbol fulfils that a caller may bind. -/
def Valid (s : Symbol κ φ) : Prop :=
  isIdentifier s.name ∧ s.arity ≤ maxArity

instance (s : Symbol κ φ) : Decidable s.Valid :=
  inferInstanceAs (Decidable (_ ∧ _))

end Symbol

end ComplexFormula
