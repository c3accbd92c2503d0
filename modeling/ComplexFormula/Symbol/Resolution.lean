import ComplexFormula.Symbol.Basic

/-! # Resolution of identifiers

The caller's bindings come first, in order, so that they may shadow a builtin; the builtins are
found by binary search.
-/

namespace ComplexFormula

/-- The first index at or after `low` where `before` fails, if it holds below some index and fails
from there on. -/
def lowerBoundFrom {α : Type} (before : α → Bool) (xs : Array α) (low high : Nat) : Nat :=
  if _h : low < high then
    let middle := (low + high) / 2
    match xs[middle]? with
    | some x =>
      if before x then lowerBoundFrom before xs (middle + 1) high
      else lowerBoundFrom before xs low middle
    | none => lowerBoundFrom before xs low middle
  else low
termination_by high - low

def lowerBound {α : Type} (before : α → Bool) (xs : Array α) : Nat :=
  lowerBoundFrom before xs 0 xs.size

namespace Builtin

/-- All builtins in the order of their names, as the search needs. -/
def table : Array Builtin :=
  #[i, abs, acos, acosh, arg, asin, asinh, atan, atanh, conj, cos, cosh, e, exp, imag, inf, log, pi,
    pow, real, sin, sinh, sqrt, tan, tanh]

def find? (name : String) : Option Builtin :=
  match table[lowerBound (fun f => f.name < name) table]? with
  | some f => if f.name = name then some f else none
  | none => none

end Builtin

namespace Symbol

variable {κ φ : Type}

def builtin (f : Builtin) : Symbol κ φ :=
  .callable (.builtin f)

def findBinding? (name : String) (bindings : List (Symbol κ φ)) : Option (Symbol κ φ) :=
  bindings.find? (·.name == name)

def findBuiltin? (name : String) : Option (Symbol κ φ) :=
  (Builtin.find? name).map builtin

def resolve? (name : String) (bindings : List (Symbol κ φ)) : Option (Symbol κ φ) :=
  match findBinding? name bindings with
  | some s => some s
  | none => findBuiltin? name

end Symbol

end ComplexFormula
