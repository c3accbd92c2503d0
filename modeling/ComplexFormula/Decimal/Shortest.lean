import ComplexFormula.Decimal.Layout

/-! # Shortest decimal texts

The fewest digits that lie nearer to a double than to any of its neighbours, and of those the
nearest ones.
-/

namespace ComplexFormula.Decimal

/-- The reals that round to a positive double: four times its mantissa and the borders around it,
as multiples of `2 ^ exponent`. -/
structure Basin where
  lower : Nat
  middle : Nat
  upper : Nat
  exponent : Int
  closed : Bool

/-- Below a power of two the next double is only half as far away. -/
def Basin.of (mantissa : Nat) (exponent : Int) : Basin :=
  let narrow := mantissa = Binary64.fractionRange ∧ -1074 < exponent
  { lower := 4 * mantissa - (if narrow then 1 else 2)
    middle := 4 * mantissa
    upper := 4 * mantissa + 2
    exponent := exponent - 2
    closed := mantissa % 2 = 0 }

def Basin.contains (b : Basin) (units : Nat) (power : Int) : Bool :=
  let point := (Quotient.scaled 10 units power).shift 2 (-b.exponent)
  let low := b.lower * point.den
  let high := b.upper * point.den
  if b.closed then low ≤ point.num && point.num ≤ high
  else low < point.num && point.num < high

def Basin.nearest? (b : Basin) (power : Int) : Option Nat :=
  let middle := (Quotient.scaled 2 b.middle b.exponent).shift 10 (-power)
  let below := middle.num / middle.den
  let nearer := middle.round
  let farther := if nearer = below then below + 1 else below
  if b.contains nearer power then some nearer
  else if b.contains farther power then some farther
  else none

/-- The digits for `count` significant ones, `left` being how many counts may still be tried. -/
def Basin.shortest (b : Basin) (top : Int) : (left count : Nat) → Significand
  | 0, count => Significand.round count (.scaled 2 b.middle b.exponent)
  | left + 1, count =>
    match b.nearest? (top - count + 1) with
    | some units =>
      if units < Nat.pow 10 count then ⟨Decimal.digits units, top⟩
      else ⟨Decimal.digits (units / 10), top + 1⟩
    | none => b.shortest top left (count + 1)

/-- Seventeen digits always tell a double from its neighbours. -/
def Significand.shortest (mantissa : Nat) (exponent : Int) : Significand :=
  if mantissa = 0 then ⟨['0'], 0⟩
  else
    let b := Basin.of mantissa exponent
    (b.shortest (Quotient.scaled 2 mantissa exponent).decimalMagnitude 16 1).strip

def shortest (plus : Bool) (x : Float) : String :=
  String.ofList (signedText plus
    (fun mantissa exponent => (Significand.shortest mantissa exponent).general 16) x)

end ComplexFormula.Decimal
