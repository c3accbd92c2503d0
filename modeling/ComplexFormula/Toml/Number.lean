import ComplexFormula.Datum
import ComplexFormula.Decimal.Numeral
import ComplexFormula.Toml.Text

/-! # TOML: numbers, dates and times -/

namespace ComplexFormula.Toml

/-- A run of digits of which single underscores may stand between two; they are left out. -/
def groupTail (isDigit : Char → Bool) : List Char → List Char × List Char
  | [] => ([], [])
  | '_' :: c :: cs =>
    if isDigit c then
      let (digits, rest) := groupTail isDigit cs
      (c :: digits, rest)
    else ([], '_' :: c :: cs)
  | c :: cs =>
    if isDigit c then
      let (digits, rest) := groupTail isDigit cs
      (c :: digits, rest)
    else ([], c :: cs)

def group? (isDigit : Char → Bool) : List Char → Option (List Char × List Char)
  | [] => none
  | c :: cs =>
    if isDigit c then
      let (digits, rest) := groupTail isDigit cs
      some (c :: digits, rest)
    else none

def natOfRadix (base : Nat) (digits : List Char) : Nat :=
  digits.foldl (fun n c => base * n + (hexDigit? c).getD 0) 0

def radixInteger? : List Char → Option (Nat × List Char)
  | '0' :: mark :: cs =>
    let radix? (base : Nat) (isDigit : Char → Bool) :=
      (group? isDigit cs).map fun (digits, rest) => (natOfRadix base digits, rest)
    if mark = 'x' then radix? 16 fun c => (hexDigit? c).isSome
    else if mark = 'o' then radix? 8 fun c => '0' ≤ c && c ≤ '7'
    else if mark = 'b' then radix? 2 fun c => c = '0' || c = '1'
    else none
  | _ => none

/-- The whole part of a decimal number, which has no needless zero in front. -/
def wholePart? : List Char → Option (List Char × List Char)
  | '0' :: cs => some (['0'], cs)
  | cs => group? Char.isDigit cs

def fractionPart (cs : List Char) : Option (List Char) × List Char :=
  match cs with
  | '.' :: after =>
    match group? Char.isDigit after with
    | some (digits, rest) => (some digits, rest)
    | none => (none, cs)
  | _ => (none, cs)

def exponentPart (cs : List Char) : Option Int × List Char :=
  match cs with
  | mark :: after =>
    let (sign, digits) := Decimal.splitSign after
    match mark == 'e' || mark == 'E', group? Char.isDigit digits with
    | true, some (digits, rest) =>
      let size : Int := Decimal.natOfDigits digits
      (some (if sign = some '-' then -size else size), rest)
    | _, _ => (none, cs)
  | [] => (none, cs)

def maxIntegerDigits : Nat := 4300

def number? (cs : List Char) : Option (Except Fault (Datum × List Char)) :=
  match radixInteger? cs with
  | some (n, rest) => some (.ok (.int n, rest))
  | none =>
    let (sign, unsigned) := Decimal.splitSign cs
    (wholePart? unsigned).map fun (whole, rest) =>
      let (fraction, rest) := fractionPart rest
      let (exponent, rest) := exponentPart rest
      if fraction.isSome || exponent.isSome then
        let digits := whole ++ fraction.getD []
        let size := Decimal.nearestScaled digits.length (Decimal.natOfDigits digits)
          (exponent.getD 0 - (fraction.getD []).length)
        .ok (.float (if sign = some '-' then -size else size), rest)
      else if maxIntegerDigits < whole.length then .error .hugeInteger
      else
        let size : Int := Decimal.natOfDigits whole
        .ok (.int (if sign = some '-' then -size else size), rest)

def specialFloat? (cs : List Char) : Option (Datum × List Char) :=
  let (sign, unsigned) := Decimal.splitSign cs
  let signed (x : Float) := Datum.float (if sign = some '-' then -x else x)
  match unsigned with
  | 'i' :: 'n' :: 'f' :: rest => some (signed (1.0 / 0.0), rest)
  | 'n' :: 'a' :: 'n' :: rest => some (signed (0.0 / 0.0), rest)
  | _ => none

def bounded? (width low high : Nat) (cs : List Char) : Option (Nat × List Char) :=
  let digits := cs.take width
  let n := Decimal.natOfDigits digits
  if digits.length = width && digits.all Char.isDigit && low ≤ n && n ≤ high then
    some (n, cs.drop width)
  else none

def expect? (c : Char) : List Char → Option (List Char)
  | d :: cs => if d = c then some cs else none
  | [] => none

structure Date where
  year : Nat
  month : Nat
  day : Nat

namespace Date

def isLeap (year : Nat) : Bool :=
  year % 4 = 0 && (year % 100 != 0 || year % 400 = 0)

def daysInMonth (year month : Nat) : Nat :=
  if month = 2 then (if isLeap year then 29 else 28)
  else if month = 4 || month = 6 || month = 9 || month = 11 then 30
  else 31

/-- There is such a day; years count from one. -/
def isValid (d : Date) : Bool :=
  1 ≤ d.year && d.day ≤ daysInMonth d.year d.month

end Date

def date? (cs : List Char) : Option (Date × List Char) := do
  let (year, cs) ← bounded? 4 0 9999 cs
  let cs ← expect? '-' cs
  let (month, cs) ← bounded? 2 1 12 cs
  let cs ← expect? '-' cs
  let (day, cs) ← bounded? 2 1 31 cs
  some (⟨year, month, day⟩, cs)

def skipSubsecond (cs : List Char) : List Char :=
  match cs with
  | '.' :: c :: rest => if c.isDigit then rest.dropWhile Char.isDigit else cs
  | _ => cs

def afterTime? (cs : List Char) : Option (List Char) := do
  let (_, cs) ← bounded? 2 0 23 cs
  let cs ← expect? ':' cs
  let (_, cs) ← bounded? 2 0 59 cs
  let cs ← expect? ':' cs
  let (_, cs) ← bounded? 2 0 59 cs
  some (skipSubsecond cs)

def afterNumericOffset? (cs : List Char) : Option (List Char) := do
  let (_, cs) ← bounded? 2 0 23 cs
  let cs ← expect? ':' cs
  let (_, cs) ← bounded? 2 0 59 cs
  some cs

def skipOffset (cs : List Char) : List Char :=
  match cs with
  | c :: rest =>
    if c = 'Z' || c = 'z' then rest
    else if c = '+' || c = '-' then (afterNumericOffset? rest).getD cs
    else cs
  | [] => cs

def skipTimeOfDate (cs : List Char) : List Char :=
  match cs with
  | c :: rest =>
    if c = 'T' || c = 't' || c = ' ' then ((afterTime? rest).map skipOffset).getD cs else cs
  | [] => cs

def moment? (cs : List Char) : Option (Except Fault (Datum × List Char)) :=
  let upTo (rest : List Char) :=
    (Datum.moment (String.ofList (cs.take (cs.length - rest.length))), rest)
  match date? cs with
  | some (date, rest) =>
    some (if date.isValid then .ok (upTo (skipTimeOfDate rest)) else fail .moment)
  | none => (afterTime? cs).map fun rest => .ok (upTo rest)

end ComplexFormula.Toml
