import ComplexFormula.Datum
import ComplexFormula.Settings.IntegerText
import ComplexFormula.Symbol.Basic

/-! # Fields

A field takes a datum of its own type and whatever can stand for one without loss: a whole float or
the text of an integer, a one or a word for a truth value. What it refuses has a kind.
-/

namespace ComplexFormula

inductive Issue.Kind
  | missing
  | extraForbidden
  | intType
  | intParsing
  | intParsingSize
  | intFromFloat
  | finiteNumber
  | greaterThanEqual
  | lessThanEqual
  | boolType
  | boolParsing
  | stringType
  | stringPatternMismatch
  | enum
  /-- The fields are fine one by one, but not together. -/
  | valueError (message : String)
deriving Repr, DecidableEq

namespace Issue.Kind

def code : Issue.Kind → String
  | missing => "missing"
  | extraForbidden => "extra_forbidden"
  | intType => "int_type"
  | intParsing => "int_parsing"
  | intParsingSize => "int_parsing_size"
  | intFromFloat => "int_from_float"
  | finiteNumber => "finite_number"
  | greaterThanEqual => "greater_than_equal"
  | lessThanEqual => "less_than_equal"
  | boolType => "bool_type"
  | boolParsing => "bool_parsing"
  | stringType => "string_type"
  | stringPatternMismatch => "string_pattern_mismatch"
  | enum => "enum"
  | valueError _ => "value_error"

end Issue.Kind

structure Issue where
  /-- The name of the field, empty when all are concerned. -/
  field : String
  kind : Issue.Kind
deriving Repr, DecidableEq

namespace Field

abbrev Checked (α : Type) := Except Issue.Kind α

def integerOfText (s : String) : Checked Int :=
  match IntegerText.read s with
  | .ok n => .ok n
  | .error .malformed => .error .intParsing
  | .error .tooLong => .error .intParsingSize

/-- Whole floats must fit into 64 bits. -/
def integerOfFloat (x : Float) : Checked Int :=
  match Binary64.form x with
  | .finite negative mantissa exponent =>
    let q := Quotient.scaled 2 mantissa exponent
    if q.num % q.den != 0 then .error .intFromFloat
    else if Nat.pow 2 63 ≤ q.num / q.den then .error .intParsingSize
    else
      let size : Int := (q.num / q.den : Nat)
      .ok (if negative then -size else size)
  | _ => .error .finiteNumber

def integer : Datum → Checked Int
  | .bool b => .ok (if b then 1 else 0)
  | .int n => .ok n
  | .float x => integerOfFloat x
  | .text s => integerOfText s
  | _ => .error .intType

def atLeast (low : Int) (n : Int) : Checked Int :=
  if n < low then .error .greaterThanEqual else .ok n

def atMost (high : Int) (n : Int) : Checked Int :=
  if high < n then .error .lessThanEqual else .ok n

def trueWords : List String := ["1", "on", "t", "true", "y", "yes"]

def falseWords : List String := ["0", "off", "f", "false", "n", "no"]

/-- Zero and one are truth values; an integer beyond 64 bits is not even taken for one. -/
def flagOfInteger (n : Int) : Checked Bool :=
  if n = 0 then .ok false
  else if n = 1 then .ok true
  else if -(Nat.pow 2 63 : Int) ≤ n && n < (Nat.pow 2 63 : Int) then .error .boolParsing
  else .error .boolType

def flag : Datum → Checked Bool
  | .bool b => .ok b
  | .int n => flagOfInteger n
  | .float x =>
    match integerOfFloat x with
    | .ok n => flagOfInteger n
    | .error _ => .error .boolType
  | .text s =>
    let word := String.ofList (s.toList.map Char.toLower)
    if trueWords.contains word then .ok true
    else if falseWords.contains word then .ok false
    else .error .boolParsing
  | _ => .error .boolType

def identifier : Datum → Checked String
  | .text s => if isIdentifier s then .ok s else .error .stringPatternMismatch
  | _ => .error .stringType

def symbolKind : Datum → Checked SymbolKind
  | .text s =>
    match SymbolKind.ofWord? s with
    | some kind => .ok kind
    | none => .error .enum
  | _ => .error .enum

def arity (d : Datum) : Checked Nat := do
  let n ← integer d
  let n ← atLeast 0 n
  let n ← atMost maxArity n
  .ok n.toNat

def optional {α : Type} (check : Datum → Checked α) (default : α) : Option Datum → Checked α
  | some d => check d
  | none => .ok default

def required {α : Type} (check : Datum → Checked α) : Option Datum → Checked α
  | some d => check d
  | none => .error .missing

def issues {α : Type} (field : String) : Checked α → List Issue
  | .ok _ => []
  | .error kind => [⟨field, kind⟩]

end Field

end ComplexFormula
