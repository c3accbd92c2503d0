import ComplexFormula.Complex.Basic
import ComplexFormula.Decimal.Numeral
import ComplexFormula.Text.Blank
import ComplexFormula.Text.DecimalDigit

/-! # Reading complex constants

A constant is a real part, an imaginary part with its unit, or both with a sign between them; it may
stand in parentheses and between blanks. Digits of all scripts count, and digits may be grouped by
single underscores.
-/

namespace ComplexFormula.ComplexFloat

/-- Digits and blanks beyond ASCII become the ASCII ones; no other such character is admitted. -/
def asciiForm (cs : List Char) : Option (List Char) :=
  cs.mapM fun c =>
    if c.toNat < 128 then some c
    else if Text.isBlank c then some ' '
    else (Text.decimalDigit? c).map Nat.digitChar

/-- Drops the underscores, each of which must stand between two digits. -/
def joinGroups : (afterDigit : Bool) → List Char → Option (List Char)
  | _, [] => some []
  | afterDigit, '_' :: cs =>
    match cs with
    | c :: rest => if afterDigit && c.isDigit then (c :: ·) <$> joinGroups true rest else none
    | [] => none
  | _, c :: cs => (c :: ·) <$> joinGroups c.isDigit cs

def isAsciiSpace (c : Char) : Bool :=
  c = ' ' || (9 ≤ c.toNat && c.toNat ≤ 13)

def dropWord? (word cs : List Char) : Option (List Char) :=
  if (cs.take word.length).map Char.toLower = word then some (cs.drop word.length) else none

def scanMagnitude? (cs : List Char) : Option (Float × List Char) :=
  match Decimal.scanNumeral? cs with
  | some (n, rest) => some (n.value, rest)
  | none =>
    match dropWord? ['i', 'n', 'f'] cs with
    | some rest =>
      some (Binary64.infinity, (dropWord? ['i', 'n', 'i', 't', 'y'] rest).getD rest)
    | none => (dropWord? ['n', 'a', 'n'] cs).map (Binary64.notANumber, ·)

def scanReal? (cs : List Char) : Option (Float × List Char) :=
  let (sign, unsigned) := Decimal.splitSign cs
  (scanMagnitude? unsigned).map fun (x, rest) => (if sign = some '-' then -x else x, rest)

/-- A coefficient before the imaginary unit; a sign alone, or nothing, stands for one. -/
def scanCoefficient (cs : List Char) : Float × List Char :=
  match scanReal? cs with
  | some found => found
  | none =>
    let (sign, rest) := Decimal.splitSign cs
    (if sign = some '-' then -1.0 else 1.0, rest)

def scanUnit? : List Char → Option (List Char)
  | 'j' :: rest | 'J' :: rest => some rest
  | _ => none

def scanSum? (cs : List Char) : Option (ComplexFloat × List Char) :=
  match scanReal? cs with
  | some (x, rest) =>
    match scanUnit? rest with
    | some rest => some (⟨0.0, x⟩, rest)
    | none =>
      if (Decimal.splitSign rest).1.isSome then
        let (y, rest) := scanCoefficient rest
        (scanUnit? rest).map (⟨x, y⟩, ·)
      else some (⟨x, 0.0⟩, rest)
  | none =>
    let (y, rest) := scanCoefficient cs
    (scanUnit? rest).map (⟨0.0, y⟩, ·)

def scanConstant? (cs : List Char) : Option ComplexFloat :=
  match cs.dropWhile isAsciiSpace with
  | '(' :: rest =>
    match scanSum? (rest.dropWhile isAsciiSpace) with
    | some (z, rest) =>
      match rest.dropWhile isAsciiSpace with
      | ')' :: rest => if rest.all isAsciiSpace then some z else none
      | _ => none
    | none => none
  | rest =>
    match scanSum? rest with
    | some (z, rest) => if rest.all isAsciiSpace then some z else none
    | none => none

def ofText? (text : String) : Option ComplexFloat := do
  let ascii ← asciiForm text.toList
  let joined ← joinGroups false ascii
  scanConstant? joined

end ComplexFormula.ComplexFloat
