import ComplexFormula.Evaluation.Pass

/-! # Folding constants

A pure call whose arguments are constants, or become so, is replaced by its value. Cells and impure
calls stay, though arguments inside of them are folded.
-/

namespace ComplexFormula

inductive Folded (κ φ : Type)
  /-- The formula as it was given, shared and not built anew. -/
  | kept (t : Formula κ φ)
  | value (z : ComplexFloat)
  | rebuilt (callee : Callee κ φ) (args : List (Formula κ φ))

namespace Folded

variable {κ φ : Type}

def formula : Folded κ φ → Formula κ φ
  | kept t => t
  | value z => .constant z
  | rebuilt callee args => .call callee args

def isKept : Folded κ φ → Bool
  | kept _ => true
  | _ => false

def constant? (f : Folded κ φ) : Option ComplexFloat :=
  f.formula.constant?

end Folded

namespace Formula

variable {κ φ σ : Type}

def foldCall (host : Host κ φ σ) (callee : Callee κ φ) (args : List (Folded κ φ)) :
    Action σ (Folded κ φ) :=
  match callee.pure, args.mapM Folded.constant? with
  | true, some values => Folded.value <$> host.apply callee values
  | _, _ =>
    if args.all Folded.isKept then pure (.kept (.call callee (args.map Folded.formula)))
    else pure (.rebuilt callee (args.map Folded.formula))

def folding (host : Host κ φ σ) : Pass κ φ σ (Folded κ φ) where
  constant z := pure (.kept (.constant z))
  cell name c := pure (.kept (.cell name c))
  call := foldCall host

def fold (host : Host κ φ σ) (t : Formula κ φ) : Action σ (Folded κ φ) := do
  let results ← (folding host).run [.visit t] []
  return results.headD (.kept t)

end Formula

end ComplexFormula
