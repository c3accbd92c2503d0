import ComplexFormula.Complex.Basic

/-! # Powers

Exponents that are small integers multiply out by squaring; all others go through polar form.
-/

namespace ComplexFormula.ComplexFloat

/-- `result · base ^ n`, one binary digit of `n` a step, the lowest first. -/
def powNatFrom (n : Nat) (result base : ComplexFloat) : ComplexFloat :=
  if n = 0 then result
  else powNatFrom (n / 2) (if n % 2 = 1 then result * base else result) (base * base)

def powNat (base : ComplexFloat) (n : Nat) : ComplexFloat :=
  powNatFrom n one base

def smallInteger? (exponent : ComplexFloat) : Option Int :=
  if exponent.im == 0.0 && exponent.re.floor == exponent.re && exponent.re.abs ≤ 100.0 then
    some (if exponent.re < 0.0 then -(exponent.re.abs.toUInt64.toNat : Int)
      else exponent.re.toUInt64.toNat)
  else none

def powInt (base : ComplexFloat) (n : Int) : Except Fault ComplexFloat :=
  if 0 < n then .ok (powNat base n.toNat) else div one (powNat base n.natAbs)

/-- A power through the logarithm's parts: length and angle of `base`, taken `exponent` times. -/
def powPolar (base exponent : ComplexFloat) : Except Fault ComplexFloat :=
  if base.re == 0.0 && base.im == 0.0 then
    if exponent.im != 0.0 || exponent.re < 0.0 then .error .zeroDivision else .ok zero
  else
    let size := Binary64.hypot base.re base.im
    let angle := base.phase
    let length := Float.pow size exponent.re
    let turns := angle * exponent.re
    let (length, turns) :=
      if exponent.im != 0.0 then
        (length / Float.exp (angle * exponent.im), turns + exponent.im * Float.log size)
      else (length, turns)
    if turns.isInf then .error .zeroDivision
    else .ok ⟨length * turns.cos, length * turns.sin⟩

def pow (base exponent : ComplexFloat) : Except Fault ComplexFloat := do
  let result ← match smallInteger? exponent with
    | some n => powInt base n
    | none => powPolar base exponent
  checkOverflow result

end ComplexFormula.ComplexFloat
