import ComplexFormula.Binary64.Basic

/-! # Decimal texts of doubles

A finite double is rounded exactly to a number of places or of significant digits; the digits are
then laid out positionally or with an exponent.
-/

namespace ComplexFormula.Decimal

open Binary64 (Form form)

def digits (n : Nat) : List Char :=
  Nat.toDigits 10 n

/-- The text of `x`: its sign, then what `finite` writes for its mantissa and binary exponent. A
value that is not a number has no minus sign. -/
def signedText (plus : Bool) (finite : Nat → Int → List Char) (x : Float) : List Char :=
  let mark (negative : Bool) := if negative then ['-'] else if plus then ['+'] else []
  match form x with
  | .nan => mark false ++ ['n', 'a', 'n']
  | .infinite negative => mark negative ++ ['i', 'n', 'f']
  | .finite negative mantissa exponent => mark negative ++ finite mantissa exponent

/-- `units` of the last of `places` decimal places, with a digit before the point at least. -/
def fixedDigits (places units : Nat) : List Char :=
  let padded := (digits units).leftpad (places + 1) '0'
  padded.take (padded.length - places) ++ '.' :: padded.drop (padded.length - places)

def fixed (places : Nat) (x : Float) : String :=
  String.ofList (signedText false
    (fun mantissa exponent => fixedDigits places
      ((Quotient.scaled 2 mantissa exponent).shift 10 places).round) x)

/-- Leading digits of a value and the decimal exponent of the first of them. -/
structure Significand where
  digits : List Char
  exponent : Int

/-- A value rounded to `count` significant digits; zero has as many zeros. -/
def Significand.round (count : Nat) (q : Quotient) : Significand :=
  if q.num = 0 then ⟨List.replicate count '0', 0⟩
  else
    let top := q.decimalMagnitude
    let units := (q.shift 10 ((count : Int) - 1 - top)).round
    if units < Nat.pow 10 count then ⟨Decimal.digits units, top⟩
    else ⟨Decimal.digits (units / 10), top + 1⟩

/-- Zeros at the end are dropped, save the first digit. -/
def Significand.strip (s : Significand) : Significand :=
  match s.digits with
  | [] => s
  | first :: rest => ⟨first :: (rest.reverse.dropWhile (· == '0')).reverse, s.exponent⟩

def Significand.scientific (s : Significand) : List Char :=
  let head := match s.digits with
    | first :: second :: rest => first :: '.' :: second :: rest
    | short => short
  head ++ 'e' :: (if s.exponent < 0 then '-' else '+') ::
    (Decimal.digits s.exponent.natAbs).leftpad 2 '0'

def Significand.positional (s : Significand) : List Char :=
  if s.exponent < 0 then
    '0' :: '.' :: List.replicate (s.exponent.natAbs - 1) '0' ++ s.digits
  else
    let whole := s.exponent.toNat + 1
    if s.digits.length ≤ whole then s.digits ++ List.replicate (whole - s.digits.length) '0'
    else s.digits.take whole ++ '.' :: s.digits.drop whole

/-- Positional from `1e-4` up to a limit, scientific outside. -/
def Significand.general (limit : Int) (s : Significand) : List Char :=
  if -4 ≤ s.exponent && s.exponent < limit then s.positional else s.scientific

/-- At most `count` significant digits without zeros at the end, in the shorter notation. -/
def general (plus : Bool) (count : Nat) (x : Float) : String :=
  String.ofList (signedText plus
    (fun mantissa exponent =>
      (Significand.round count (.scaled 2 mantissa exponent)).strip.general count) x)

def scientific (places : Nat) (x : Float) : String :=
  String.ofList (signedText false
    (fun mantissa exponent =>
      (Significand.round (places + 1) (.scaled 2 mantissa exponent)).scientific) x)

end ComplexFormula.Decimal
