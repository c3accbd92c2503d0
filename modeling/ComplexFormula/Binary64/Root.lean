import ComplexFormula.Binary64.Basic

/-! # Square roots of sums

The length of a plane vector, rounded once from the exact root, so that no square overflows or
underflows on the way; and the logarithm near one.
-/

namespace ComplexFormula.Binary64

/-- The largest `r` with `r * r ≤ n`. -/
def squareRoot (n : Nat) : Nat :=
  go (n.log2 / 2 + 1) 0
where
  go : Nat → Nat → Nat
    | 0, root => root
    | bit + 1, root =>
      let candidate := root + Nat.pow 2 bit
      go bit (if candidate * candidate ≤ n then candidate else root)

/-- The double nearest to the root of `n` times `2 ^ exponent`; a last digit one marks an inexact
root, which lies strictly between two candidates then. -/
def rootScaled (n : Nat) (exponent : Int) : Float :=
  let extra := 64 - Quotient.binaryDigits n / 2
  let widened := n * Nat.pow 4 extra
  let root := squareRoot widened
  let marked := if root * root = widened then 2 * root else 2 * root + 1
  nearest (.scaled 2 marked (exponent - extra - 1))

/-- The length of the vector `(x, y)`; infinite when a part is, even if the other is not a
number. -/
def hypot (x y : Float) : Float :=
  match form x, form y with
  | .infinite _, _ => infinity
  | _, .infinite _ => infinity
  | .finite _ m p, .finite _ n q =>
    let low := min p q
    let a := m * Nat.pow 2 (p - low).toNat
    let b := n * Nat.pow 2 (q - low).toNat
    rootScaled (a * a + b * b) low
  | _, _ => notANumber

/-- `log (1 + x)`, exact in its leading digits also for small `x`. The quotient makes up for what
the sum loses, and is near one, so that nothing overflows. -/
def logOnePlus (x : Float) : Float :=
  let u := 1.0 + x
  if u == 1.0 || u.isInf then x else u.log * (x / (u - 1.0))

end ComplexFormula.Binary64
