import ComplexFormula.Parsing.Reader

/-! # Parsing

From loose to tight: comma, sum, product, power, each associating to the left, then signs in front
of a number, a name, a call or a list in parentheses. A function of one argument takes an operand
without parentheses, one of several takes a list of just as many.
-/

namespace ComplexFormula

/-- How deep operands may nest: the limit that is asked for, and the room that the reader has. -/
structure Limits where
  depth : Int
  room : Nat

def defaultDepth : Int := 100

/-- The room for operands inside operands, of which a list takes two units and the operand of a
function one. -/
def defaultRoom : Nat := 328

namespace Rule

variable {κ φ : Type}

def joinsList : Lexeme κ φ → Option Operator
  | .separator => some .comma
  | _ => none

def joinsSum : Lexeme κ φ → Option Operator
  | .operator .add => some .add
  | .operator .sub => some .sub
  | _ => none

def joinsProduct : Lexeme κ φ → Option Operator
  | .operator .mul => some .mul
  | .operator .div => some .div
  | _ => none

def joinsPower : Lexeme κ φ → Option Operator
  | .operator .pow => some .pow
  | _ => none

/-- Goes on with operators and operands after `left`; `budget` has a token for each operator that
may still come. -/
def chainFrom (joins : Lexeme κ φ → Option Operator) (operand : Rule κ φ) :
    (budget : List (Token κ φ)) → Formula κ φ → Rule κ φ
  | [], left, r => .ok (left, r)
  | _ :: budget, left, r =>
    match joins r.current.lexeme with
    | some op => do
      let (right, r) ← operand r.advance
      chainFrom joins operand budget (.binary op left right) r
    | none => .ok (left, r)

def chain (joins : Lexeme κ φ → Option Operator) (operand : Rule κ φ) : Rule κ φ := fun r => do
  let (left, r) ← operand r
  chainFrom joins operand r.rest left r

def product (power : Rule κ φ) : Rule κ φ :=
  chain joinsProduct (chain joinsPower power)

def sum (power : Rule κ φ) : Rule κ φ :=
  chain joinsSum (product power)

def list (power : Rule κ φ) : Rule κ φ :=
  chain joinsList (sum power)

def arguments (argument : Rule κ φ) :
    Nat → Reader κ φ → Except ParseFault (List (Formula κ φ) × Reader κ φ)
  | 0, r => .ok ([], r)
  | left + 1, r => do
    let (t, r) ← argument r.advance
    if r.current.lexeme.isSeparator && left != 0 then
      let (ts, r) ← arguments argument left r
      .ok (t :: ts, r)
    else .ok ([t], r)

/-- The arguments of a callee whose name has just been passed: a single `operand`, or a list of
which `nested` reads the powers. -/
def call (operand nested : Rule κ φ) (callee : Callee κ φ) : Rule κ φ := fun r =>
  match callee.arity with
  | 0 => do
    let r ←
      if r.current.lexeme.isOpening then r.advance.close (.unclosedName callee.name) else .ok r
    .ok (.call callee [], r)
  | 1 => do
    let (arg, r) ← operand r
    .ok (.call callee [arg], r)
  | arity =>
    if r.current.lexeme.isOpening then do
      let (args, r) ← arguments (sum nested) arity r
      if r.current.lexeme.isClosing && args.length == arity then .ok (.call callee args, r.advance)
      else r.fail (.argumentCount callee.name arity)
    else r.fail (.unopened callee.name r.found)

def base (operand nested : Rule κ φ) : Rule κ φ := fun r =>
  match r.current.lexeme with
  | .real x => .ok (.constant ⟨x, 0.0⟩, r.advance)
  | .imaginary x => .ok (.constant ⟨0.0, x⟩, r.advance)
  | .symbol (.cell name c) => .ok (.cell name c, r.advance)
  | .symbol (.callable callee) => call operand nested callee r.advance
  | .opening => do
    let (t, r) ← list nested r.advance
    let r ← r.close .unclosed
    .ok (t, r)
  | .unknown => r.fail (.unknown r.found)
  | _ => r.fail (.unexpected r.found)

/-- Signs and what they stand before. Operands inside are one level deeper. -/
def power (limit : Int) : (room : Nat) → Rule κ φ
  | room + 2, r =>
    if limit < r.depth + 1 then r.fail (.nesting limit)
    else do
      let (negative, inner) := { r with depth := r.depth + 1 }.signs
      let (t, r) ← base (power limit (room + 1)) (power limit room) inner
      .ok (if negative then t.negate else t, { r with depth := r.depth - 1 })
  | _, r => if limit < r.depth + 1 then r.fail (.nesting limit) else r.fail .exhausted

end Rule

def parse {κ φ : Type} (limits : Limits) (source : String) (bindings : List (Symbol κ φ)) :
    Except ParseFault (Formula κ φ) := do
  let (t, r) ← Rule.list (Rule.power limits.depth limits.room) (Reader.start source bindings)
  if r.current.lexeme.isFinish then .ok t else r.fail (.trailing r.found)

end ComplexFormula
