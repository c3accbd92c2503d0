/-! # Rounding quotients

Positive rationals are held as a numerator over a denominator. Scaling by a power of the base and
rounding to the nearest integer, ties to even, serves doubles and decimals alike.
-/

namespace ComplexFormula

structure Quotient where
  num : Nat
  den : Nat

namespace Quotient

def scaled (base mantissa : Nat) (exponent : Int) : Quotient :=
  ⟨mantissa * base.pow exponent.toNat, base.pow (-exponent).toNat⟩

def shift (q : Quotient) (base : Nat) (exponent : Int) : Quotient :=
  ⟨q.num * base.pow exponent.toNat, q.den * base.pow (-exponent).toNat⟩

/-- The nearest integer, a half going to the even neighbour. -/
def round (q : Quotient) : Nat :=
  let below := q.num / q.den
  let twice := 2 * (q.num % q.den)
  if twice < q.den then below
  else if q.den < twice then below + 1
  else if below % 2 = 0 then below else below + 1

def binaryDigits (n : Nat) : Nat :=
  if n = 0 then 0 else n.log2 + 1

def decimalDigits (n : Nat) : Nat :=
  (Nat.toDigits 10 n).length

/-- The greatest `j` with `base ^ j ≤ q`, when it is known to be `k` or one less. -/
def leading (q : Quotient) (base : Nat) (k : Int) : Int :=
  let unit := q.shift base (-k)
  if unit.den ≤ unit.num then k else k - 1

def binaryMagnitude (q : Quotient) : Int :=
  q.leading 2 ((binaryDigits q.num : Int) - binaryDigits q.den)

def decimalMagnitude (q : Quotient) : Int :=
  q.leading 10 ((decimalDigits q.num : Int) - decimalDigits q.den)

end Quotient

end ComplexFormula
