import ComplexFormula.Rounding

/-! # Doubles

A double is read apart into sign, integer mantissa and power of two, and put together again by
rounding to the nearest double, ties to even.
-/

namespace ComplexFormula.Binary64

/-- The value that a double's bits stand for: a finite one is `±mantissa · 2 ^ exponent`. -/
inductive Form
  | nan
  | infinite (negative : Bool)
  | finite (negative : Bool) (mantissa : Nat) (exponent : Int)
deriving Repr, DecidableEq

/-- One more than the largest fraction that a double can store. -/
def fractionRange : Nat := Nat.pow 2 52

def Form.ofBits (bits : Nat) : Form :=
  let negative := bits.testBit 63
  let biased := bits / fractionRange % Nat.pow 2 11
  let fraction := bits % fractionRange
  if biased = 2047 then
    if fraction = 0 then .infinite negative else .nan
  else if biased = 0 then
    .finite negative fraction (-1074)
  else
    .finite negative (fractionRange + fraction) ((biased : Int) - 1075)

def form (x : Float) : Form :=
  .ofBits x.toBits.toNat

def infinity : Float := 1.0 / 0.0

def notANumber : Float := 0.0 / 0.0

def largest : Float := 1.7976931348623157e308

def smallestNormal : Float := 2.2250738585072014e-308

/-- The sign bit, which also tells the two zeros apart. -/
def isNegative (x : Float) : Bool :=
  x.toBits.toNat.testBit 63

def copySign (x y : Float) : Float :=
  if isNegative y then -x.abs else x.abs

/-- The bits of the double nearest to `q`; past the largest one, those of infinity. -/
def nearestBits (q : Quotient) : Nat :=
  if q.num = 0 then 0
  else
    let unit := max (q.binaryMagnitude - 52) (-1074)
    let units := (q.shift 2 (-unit)).round
    min ((unit + 1074).toNat * fractionRange + units) (2047 * fractionRange)

def nearest (q : Quotient) : Float :=
  Float.ofBits (nearestBits q).toUInt64

end ComplexFormula.Binary64
