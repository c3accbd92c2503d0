import ComplexFormula.Formula.Basic
import ComplexFormula.Scalar

/-! # The caller's side

Cells and callables belong to the caller, whose state they may read and change. Whatever happens to
the state before a fault stays.
-/

namespace ComplexFormula

/-- A step on the caller's state `σ` that may end in a fault. -/
abbrev Action (σ α : Type) := EStateM Fault σ α

namespace Action

variable {σ α : Type}

def ofExcept : Except Fault α → Action σ α
  | .ok a => pure a
  | .error f => throw f

/-- Gives `value` in place of an arithmetic or domain fault. -/
def orUndefined (value : α) (action : Action σ α) : Action σ α :=
  tryCatch action fun f => if f.isUndefined then pure value else throw f

end Action

structure Host (κ φ σ : Type) where
  read : κ → Action σ Scalar
  function : φ → List ComplexFloat → Action σ Scalar
  /-- A closure applied to its context and its arguments. -/
  closure : φ → Option κ → List ComplexFloat → Action σ Scalar

namespace Host

variable {κ φ σ : Type}

def value (host : Host κ φ σ) (cell : κ) : Action σ ComplexFloat := do
  let content ← host.read cell
  Action.ofExcept content.toComplex

/-- What the target itself gives, before the result is made complex. -/
def invoke (host : Host κ φ σ) (target : Target κ φ) (args : List ComplexFloat) : Action σ Scalar :=
  match target with
  | .primitive p => Action.ofExcept (.complex <$> p.apply args)
  | .native f => host.function f args
  | .closure f context => host.closure f context args

/-- The value of a call. A mathematical fault of the callable makes it undefined, which is a value;
a result that is no number is a fault. -/
def apply (host : Host κ φ σ) (callee : Callee κ φ) (args : List ComplexFloat) :
    Action σ ComplexFloat := do
  let result ← Action.orUndefined (.complex .notANumber) (host.invoke callee.target args)
  Action.ofExcept result.toComplex

end Host

end ComplexFormula
