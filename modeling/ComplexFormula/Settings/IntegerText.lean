import ComplexFormula.Decimal.Numeral
import ComplexFormula.Text.Blank

/-! # Integers as texts

A plain integer is its digits after an optional minus sign, and starts with a zero only if it is
zero. Any other text is tidied first and has to be plain after that.
-/

namespace ComplexFormula.IntegerText

inductive Fault
  | malformed
  | tooLong
deriving Repr, DecidableEq

def maxDigits : Nat := 4300

/-- The digits of a plain integer. That there are too many counts before what follows them. -/
def readDigits : List Char → Except Fault Nat
  | '0' :: cs => if cs.isEmpty then .ok 0 else .error .malformed
  | cs =>
    let digits := cs.takeWhile Char.isDigit
    if maxDigits < digits.length then .error .tooLong
    else if digits.isEmpty || digits.length < cs.length then .error .malformed
    else .ok (Decimal.natOfDigits digits)

def readPlain : List Char → Except Fault Int
  | '-' :: cs => (fun n => -(n : Int)) <$> readDigits cs
  | cs => (fun n => (n : Int)) <$> readDigits cs

/-- A plus sign may stand before anything but a minus sign. -/
def dropPlus : List Char → List Char
  | '+' :: cs => if cs.head? = some '-' then '+' :: cs else cs
  | cs => cs

/-- The text after its leading zeros and the underscores among them. Of these the last one stays
where no other digit of the whole part follows; a minus sign may come after them. -/
def dropLeadingZeros : List Char → Option (List Char)
  | '0' :: cs => go '0' cs
  | c :: cs => if c.isDigit then some (c :: cs) else none
  | [] => none
where
  go (last : Char) : List Char → Option (List Char)
    | [] => some [last]
    | c :: cs =>
      if c = '0' || c = '_' then go c cs
      else if c = '.' then some (last :: c :: cs)
      else if c.isDigit || c = '-' then some (c :: cs)
      else none

def dropZeroFraction (cs : List Char) : List Char :=
  match cs.dropWhile (· != '.') with
  | '.' :: '0' :: zeros => if zeros.all (· == '0') then cs.takeWhile (· != '.') else cs
  | _ => cs

def dropUnderscores (cs : List Char) : List Char :=
  if cs.head? = some '_' || cs.getLast? = some '_' || (cs.zip (cs.drop 1)).contains ('_', '_') then
    cs
  else cs.filter (· != '_')

def tidyUnsigned? (cs : List Char) : Option (List Char) := do
  let cs ← dropLeadingZeros cs
  some (dropUnderscores (dropZeroFraction cs))

/-- A minus sign stays in front; what follows it is tidied as if it stood alone. -/
def tidy? (cs : List Char) : Option (List Char) :=
  match dropPlus (Text.trim Text.isWhiteSpace cs) with
  | '-' :: cs => ('-' :: ·) <$> tidyUnsigned? cs
  | cs => tidyUnsigned? cs

/-- The integer that a text writes. Only a plain one is told to be too long. -/
def read (text : String) : Except Fault Int :=
  let cs := text.toList
  match readPlain cs, tidy? cs with
  | .error .malformed, some tidied => (readPlain tidied).mapError fun _ => .malformed
  | result, _ => result

end ComplexFormula.IntegerText
