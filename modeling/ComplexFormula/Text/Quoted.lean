import ComplexFormula.Text.Printable

/-! # Quoted texts

A text between quotation marks, with escapes for the mark, the backslash and whatever would not
show. The mark is single unless that would need an escape and the double one would not.
-/

namespace ComplexFormula.Text

def quotationMark (cs : List Char) : Char :=
  if cs.contains '\'' && !cs.contains '"' then '"' else '\''

def hexadecimal (width n : Nat) : List Char :=
  (Nat.toDigits 16 n).leftpad width '0'

def escape (mark c : Char) : List Char :=
  if c = mark || c = '\\' then ['\\', c]
  else if c = '\n' then ['\\', 'n']
  else if c = '\r' then ['\\', 'r']
  else if c = '\t' then ['\\', 't']
  else if isPrintable c then [c]
  else if c.toNat < 0x100 then '\\' :: 'x' :: hexadecimal 2 c.toNat
  else if c.toNat < 0x10000 then '\\' :: 'u' :: hexadecimal 4 c.toNat
  else '\\' :: 'U' :: hexadecimal 8 c.toNat

def quote (text : String) : String :=
  let cs := text.toList
  let mark := quotationMark cs
  String.ofList (mark :: (cs.flatMap (escape mark) ++ [mark]))

end ComplexFormula.Text
