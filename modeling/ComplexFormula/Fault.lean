/-! # Faults of a callable

A callable that cannot give a number says why. Arithmetic and domain faults mean that the result is
undefined there; every other fault ends the evaluation.
-/

namespace ComplexFormula

inductive Fault
  | zeroDivision
  | overflow
  | floatingPoint
  | arithmetic
  /-- An argument outside the domain, or a text that is not a number. -/
  | domain
  /-- A result or content that is no number at all. -/
  | notNumeric
  | argumentCount
  | outOfMemory
  /-- A failure of the caller's own, known by name. -/
  | raised (name : String)
deriving Repr, DecidableEq

namespace Fault

def isUndefined : Fault → Bool
  | zeroDivision | overflow | floatingPoint | arithmetic | domain => true
  | notNumeric | argumentCount | outOfMemory | raised _ => false

end Fault

end ComplexFormula
