import ComplexFormula.Decimal.Numeral
import ComplexFormula.Symbol.Resolution

/-! # Tokens

A token is a lexeme with its place in the source, counted in characters. Identifiers are resolved as
they are read; what begins no lexeme is an unknown one.
-/

namespace ComplexFormula

inductive Lexeme (κ φ : Type)
  | real (x : Float)
  | imaginary (x : Float)
  | symbol (s : Symbol κ φ)
  | operator (op : Operator)
  | opening
  | closing
  | separator
  | finish
  | unknown

namespace Lexeme

variable {κ φ : Type}

def isFinish : Lexeme κ φ → Bool
  | finish => true
  | _ => false

def isUnknown : Lexeme κ φ → Bool
  | unknown => true
  | _ => false

def isOpening : Lexeme κ φ → Bool
  | opening => true
  | _ => false

def isClosing : Lexeme κ φ → Bool
  | closing => true
  | _ => false

def isSeparator : Lexeme κ φ → Bool
  | separator => true
  | _ => false

def word : Lexeme κ φ → String
  | real _ => "number_real"
  | imaginary _ => "number_imag"
  | symbol s => s.kind.word
  | operator _ => "infix"
  | opening => "open"
  | closing => "close"
  | separator => "sep"
  | finish => "end"
  | unknown => "error"

/-- The lexeme of a single character that is neither letter, digit nor point. -/
def ofMark : Char → Lexeme κ φ
  | '+' => operator .add
  | '-' => operator .sub
  | '*' => operator .mul
  | '/' => operator .div
  | '^' => operator .pow
  | '(' => opening
  | ')' => closing
  | ',' => separator
  | _ => unknown

/-- The first lexeme of a text without blanks before it, its characters, and the text after it. -/
def scan (bindings : List (Symbol κ φ)) : List Char → Lexeme κ φ × List Char × List Char
  | [] => (finish, [], [])
  | c :: cs =>
    if c.isDigit || c = '.' then
      match Decimal.scanNumeral? (c :: cs) with
      | some (n, 'I' :: rest) => (imaginary n.value, n.text ++ ['I'], rest)
      | some (n, rest) => (real n.value, n.text, rest)
      | none => (unknown, [c], cs)
    else if c.isAlpha then
      let name := c :: cs.takeWhile isIdentifierTail
      let rest := cs.dropWhile isIdentifierTail
      match Symbol.resolve? (String.ofList name) bindings with
      | some s => (symbol s, name, rest)
      | none => (unknown, name, rest)
    else (ofMark c, [c], cs)

end Lexeme

structure Token (κ φ : Type) where
  lexeme : Lexeme κ φ
  start : Nat
  stop : Nat
  text : List Char

def Token.describe {κ φ : Type} (t : Token κ φ) : String :=
  "Token(" ++ t.lexeme.word ++ ", pos=" ++ toString t.start ++ ", end=" ++ toString t.stop ++ ")"

end ComplexFormula
