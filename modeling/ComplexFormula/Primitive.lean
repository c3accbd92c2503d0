import ComplexFormula.Complex.Power
import ComplexFormula.Complex.Hyperbolic
import ComplexFormula.Complex.Inverse

/-! # Operators and builtin functions

The primitives of the language, each with its name, its number of operands and its meaning.
-/

namespace ComplexFormula

inductive Operator
  | add
  | sub
  | mul
  | div
  | pow
  | comma
deriving Repr, DecidableEq

namespace Operator

def all : List Operator := [add, sub, mul, div, pow, comma]

def symbol : Operator → String
  | add => "+"
  | sub => "-"
  | mul => "*"
  | div => "/"
  | pow => "^"
  | comma => ","

def ofSymbol? (s : String) : Option Operator :=
  all.find? (·.symbol == s)

/-- The comma gives its right operand. -/
def apply : Operator → ComplexFloat → ComplexFloat → Except Fault ComplexFloat
  | add, a, b => .ok (a + b)
  | sub, a, b => .ok (a - b)
  | mul, a, b => .ok (a * b)
  | div, a, b => a.div b
  | pow, a, b => a.pow b
  | comma, _, b => .ok b

end Operator

inductive Builtin
  | i
  | abs
  | acos
  | acosh
  | arg
  | asin
  | asinh
  | atan
  | atanh
  | conj
  | cos
  | cosh
  | e
  | exp
  | imag
  | inf
  | log
  | pi
  | pow
  | real
  | sin
  | sinh
  | sqrt
  | tan
  | tanh
deriving Repr, DecidableEq

namespace Builtin

def name : Builtin → String
  | i => "I"
  | abs => "abs"
  | acos => "acos"
  | acosh => "acosh"
  | arg => "arg"
  | asin => "asin"
  | asinh => "asinh"
  | atan => "atan"
  | atanh => "atanh"
  | conj => "conj"
  | cos => "cos"
  | cosh => "cosh"
  | e => "e"
  | exp => "exp"
  | imag => "imag"
  | inf => "inf"
  | log => "log"
  | pi => "pi"
  | pow => "pow"
  | real => "real"
  | sin => "sin"
  | sinh => "sinh"
  | sqrt => "sqrt"
  | tan => "tan"
  | tanh => "tanh"

def arity : Builtin → Nat
  | i | e | inf | pi => 0
  | pow => 2
  | _ => 1

def apply : Builtin → List ComplexFloat → Except Fault ComplexFloat
  | i, [] => .ok ⟨0.0, 1.0⟩
  | e, [] => .ok (.ofReal ComplexFloat.euler)
  | inf, [] => .ok (.ofReal Binary64.infinity)
  | pi, [] => .ok (.ofReal ComplexFloat.pi)
  | abs, [z] => ComplexFloat.ofReal <$> z.abs
  | acos, [z] => .ok z.acos
  | acosh, [z] => .ok z.acosh
  | arg, [z] => ComplexFloat.ofReal <$> z.arg
  | asin, [z] => .ok z.asin
  | asinh, [z] => .ok z.asinh
  | atan, [z] => z.atan
  | atanh, [z] => z.atanh
  | conj, [z] => .ok z.conj
  | cos, [z] => z.cos
  | cosh, [z] => z.cosh
  | exp, [z] => z.exp
  | imag, [z] => .ok (.ofReal z.im)
  | log, [z] => z.log
  | real, [z] => .ok (.ofReal z.re)
  | sin, [z] => z.sin
  | sinh, [z] => z.sinh
  | sqrt, [z] => .ok z.sqrt
  | tan, [z] => z.tan
  | tanh, [z] => z.tanh
  | pow, [a, b] => a.pow b
  | _, _ => .error .argumentCount

end Builtin

inductive Primitive
  | operator (op : Operator)
  | negation
  | builtin (f : Builtin)
deriving Repr, DecidableEq

namespace Primitive

def apply : Primitive → List ComplexFloat → Except Fault ComplexFloat
  | operator op, [a, b] => op.apply a b
  | negation, [a] => .ok (-a)
  | builtin f, args => f.apply args
  | _, _ => .error .argumentCount

end Primitive

end ComplexFormula
