import ComplexFormula.Complex.Reading
import ComplexFormula.Complex.Printing

/-! # Contents of cells and results of callables

Callers may give any kind of number, or a text that writes one; it becomes complex when it is used.
-/

namespace ComplexFormula

inductive Scalar
  | complex (z : ComplexFloat)
  | real (x : Float)
  | int (n : Int)
  | text (s : String)
  | absent

namespace Scalar

/-- The double nearest to an integer, which must not be infinite. -/
def realOfInt (n : Int) : Except Fault Float :=
  let size := Binary64.nearest ⟨n.natAbs, 1⟩
  if size.isInf then .error .overflow else .ok (if n < 0 then -size else size)

def toComplex : Scalar → Except Fault ComplexFloat
  | complex z => .ok z
  | real x => .ok (.ofReal x)
  | int n => ComplexFloat.ofReal <$> realOfInt n
  | text s =>
    match ComplexFloat.ofText? s with
    | some z => .ok z
    | none => .error .domain
  | absent => .error .notNumeric

end Scalar

/-- Storage that a caller owns and may assign between evaluations. -/
structure Cell where
  content : Scalar

namespace Cell

def of (z : ComplexFloat) : Cell := ⟨.complex z⟩

def describe (z : ComplexFloat) : String :=
  "Cell(" ++ z.exact ++ ")"

end Cell

end ComplexFormula
