import ComplexFormula.Complex.Basic
import ComplexFormula.Decimal.Shortest

/-! # Texts of complex numbers

A number is shown in fixed notation as a result, in few digits inside a formula, and in as many
digits as it needs as a constant of its own.
-/

namespace ComplexFormula.ComplexFloat

/-- Six decimal places; the imaginary part only when it is not zero. -/
def display (z : ComplexFloat) : String :=
  if z.im == 0.0 then Decimal.fixed 6 z.re
  else
    Decimal.fixed 6 z.re ++ (if z.im < 0.0 then "-" else "+") ++ Decimal.fixed 6 z.im.abs ++ "I"

/-- Six significant digits, in parentheses unless the number is real. -/
def brief (z : ComplexFloat) : String :=
  if z.im == 0.0 then Decimal.general false 6 z.re
  else "(" ++ Decimal.general false 6 z.re ++ Decimal.general true 6 z.im ++ "I)"

/-- The shortest text that reads back; a positive zero real part is left out. -/
def exact (z : ComplexFloat) : String :=
  if z.re == 0.0 && !Binary64.isNegative z.re then Decimal.shortest false z.im ++ "j"
  else "(" ++ Decimal.shortest false z.re ++ Decimal.shortest true z.im ++ "j)"

end ComplexFormula.ComplexFloat
