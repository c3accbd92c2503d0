import ComplexFormula.Evaluation.Pass

/-! # Evaluation

Cells are read when they are met, so that each evaluation sees what the caller has assigned.
-/

namespace ComplexFormula

namespace Formula

variable {κ φ σ : Type}

def evaluation (host : Host κ φ σ) : Pass κ φ σ ComplexFloat where
  constant := pure
  cell _ c := host.value c
  call := host.apply

def evaluate (host : Host κ φ σ) (t : Formula κ φ) : Action σ ComplexFloat := do
  let values ← (evaluation host).run [.visit t] []
  return values.headD .notANumber

end Formula

/-- A formula that is missing has no number as its value. -/
def evaluateOption {κ φ σ : Type} (host : Host κ φ σ) : Option (Formula κ φ) → Action σ ComplexFloat
  | some t => t.evaluate host
  | none => pure .notANumber

end ComplexFormula
