import ComplexFormula.Binary64.Basic

/-! # Decimal literals

Digits with an optional point, at least one digit on either side of it, and an optional exponent.
Scanning takes the longest literal at the start of a text.
-/

namespace ComplexFormula.Decimal

def natOfDigits (cs : List Char) : Nat :=
  cs.foldl (fun n c => 10 * n + (c.toNat - '0'.toNat)) 0

structure Exponent where
  mark : Char
  sign : Option Char
  digits : List Char

def Exponent.text (e : Exponent) : List Char :=
  e.mark :: (e.sign.toList ++ e.digits)

def Exponent.value (e : Exponent) : Int :=
  if e.sign = some '-' then -(natOfDigits e.digits : Int) else natOfDigits e.digits

structure Numeral where
  whole : List Char
  fraction : Option (List Char)
  exponent : Option Exponent

def Numeral.text (n : Numeral) : List Char :=
  n.whole ++ (n.fraction.map ('.' :: ·)).getD [] ++ (n.exponent.map Exponent.text).getD []

def splitSign : List Char → Option Char × List Char
  | '+' :: cs => (some '+', cs)
  | '-' :: cs => (some '-', cs)
  | cs => (none, cs)

/-- A complete exponent at the start of the text; a lone mark or sign is left alone. -/
def scanExponent : List Char → Option Exponent × List Char
  | [] => (none, [])
  | mark :: cs =>
    let (sign, ds) := splitSign cs
    let digits := ds.takeWhile Char.isDigit
    if (mark == 'e' || mark == 'E') && !digits.isEmpty then
      (some ⟨mark, sign, digits⟩, ds.dropWhile Char.isDigit)
    else (none, mark :: cs)

def scanNumeral? (cs : List Char) : Option (Numeral × List Char) :=
  let whole := cs.takeWhile Char.isDigit
  match cs.dropWhile Char.isDigit with
  | '.' :: after =>
    let fraction := after.takeWhile Char.isDigit
    if whole.isEmpty && fraction.isEmpty then none
    else
      let (exponent, rest) := scanExponent (after.dropWhile Char.isDigit)
      some (⟨whole, some fraction, exponent⟩, rest)
  | after =>
    if whole.isEmpty then none
    else
      let (exponent, rest) := scanExponent after
      some (⟨whole, none, exponent⟩, rest)

/-- The double nearest to `mantissa · 10 ^ exponent`. An exponent far outside the range of doubles
is cut short; `size` digits of the mantissa cannot bring it back. -/
def nearestScaled (size mantissa : Nat) (exponent : Int) : Float :=
  if mantissa = 0 then 0.0
  else if 400 < exponent then Binary64.infinity
  else if (size : Int) + exponent < -400 then 0.0
  else Binary64.nearest (.scaled 10 mantissa exponent)

def Numeral.value (n : Numeral) : Float :=
  let fraction := n.fraction.getD []
  let digits := n.whole ++ fraction
  nearestScaled digits.length (natOfDigits digits)
    ((n.exponent.map Exponent.value).getD 0 - fraction.length)

end ComplexFormula.Decimal
