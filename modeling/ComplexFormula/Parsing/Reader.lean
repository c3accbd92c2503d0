import ComplexFormula.Parsing.Fault
import ComplexFormula.Token.Scanner

/-! # Reading tokens

A reader stands before a token and knows how many operands it is inside of.
-/

namespace ComplexFormula

structure Reader (κ φ : Type) where
  current : Token κ φ
  rest : List (Token κ φ)
  depth : Nat

/-- A rule reads the formula that begins at the current token. -/
abbrev Rule (κ φ : Type) := Reader κ φ → Except ParseFault (Formula κ φ × Reader κ φ)

namespace Reader

variable {κ φ : Type}

def start (source : String) (bindings : List (Symbol κ φ)) : Reader κ φ :=
  match (Scanner.start source bindings).tokens with
  | t :: ts => ⟨t, ts, 0⟩
  | [] => ⟨⟨.finish, 0, 0, []⟩, [], 0⟩

/-- The next token becomes the current one; the last token stays. -/
def advance (r : Reader κ φ) : Reader κ φ :=
  match r.rest with
  | t :: ts => { r with current := t, rest := ts }
  | [] => r

def found (r : Reader κ φ) : Found :=
  if r.current.lexeme.isFinish then none else some (String.ofList r.current.text)

def fail {α : Type} (r : Reader κ φ) (cause : ParseFault.Cause) : Except ParseFault α :=
  .error ⟨cause, r.current.stop⟩

def close (r : Reader κ φ) (cause : Found → ParseFault.Cause) : Except ParseFault (Reader κ φ) :=
  if r.current.lexeme.isClosing then .ok r.advance else r.fail (cause r.found)

/-- Passes a run of signs from a token on; the flag tells whether the minus signs are odd in
number. -/
def passSigns (negative : Bool) (current : Token κ φ) :
    List (Token κ φ) → Bool × Token κ φ × List (Token κ φ)
  | [] => (negative, current, [])
  | t :: ts =>
    match current.lexeme with
    | .operator .add => passSigns negative t ts
    | .operator .sub => passSigns (!negative) t ts
    | _ => (negative, current, t :: ts)

def signs (r : Reader κ φ) : Bool × Reader κ φ :=
  let (negative, current, rest) := passSigns false r.current r.rest
  (negative, { r with current := current, rest := rest })

end Reader

end ComplexFormula
