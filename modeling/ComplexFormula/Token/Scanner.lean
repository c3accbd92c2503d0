import ComplexFormula.Token.Basic

/-! # Scanning

A scanner gives one token a step. Blanks separate tokens and mean nothing else; at the end of the
source the finishing token is given for ever.
-/

namespace ComplexFormula

def isSpace (c : Char) : Bool :=
  c = ' ' || c = '\t' || c = '\n' || c = '\r'

structure Scanner (κ φ : Type) where
  bindings : List (Symbol κ φ)
  rest : List Char
  cursor : Nat

namespace Scanner

variable {κ φ : Type}

def start (source : String) (bindings : List (Symbol κ φ)) : Scanner κ φ :=
  ⟨bindings, source.toList, 0⟩

def next (s : Scanner κ φ) : Token κ φ × Scanner κ φ :=
  let first := s.cursor + (s.rest.takeWhile isSpace).length
  let (lexeme, text, rest) := Lexeme.scan s.bindings (s.rest.dropWhile isSpace)
  let last := first + text.length
  (⟨lexeme, first, last, text⟩, { s with rest := rest, cursor := last })

def pull : Nat → Scanner κ φ → List (Token κ φ × Nat)
  | 0, _ => []
  | n + 1, s => (s.next.1, s.next.2.cursor) :: pull n s.next.2

def tokensWithin : Nat → Scanner κ φ → List (Token κ φ)
  | 0, _ => []
  | n + 1, s =>
    if s.next.1.lexeme.isFinish then [s.next.1] else s.next.1 :: tokensWithin n s.next.2

/-- All tokens; every one but the last takes a character at least. -/
def tokens (s : Scanner κ φ) : List (Token κ φ) :=
  s.tokensWithin (s.rest.length + 1)

end Scanner

def throughFirst {α : Type} (p : α → Bool) : List α → List α
  | [] => []
  | x :: xs => if p x then [x] else x :: throughFirst p xs

/-- The tokens of a source up to the end or to the first unknown lexeme. -/
def tokenize {κ φ : Type} (source : String) (bindings : List (Symbol κ φ)) : List (Token κ φ) :=
  throughFirst (·.lexeme.isUnknown) (Scanner.start source bindings).tokens

end ComplexFormula
