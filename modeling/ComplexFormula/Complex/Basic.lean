import ComplexFormula.Binary64.Root
import ComplexFormula.Fault

/-! # Complex numbers with double parts

Sums and products are componentwise textbook formulas; quotients scale by the larger part of the
divisor, so that its square is never formed.
-/

namespace ComplexFormula

structure ComplexFloat where
  re : Float
  im : Float
deriving Inhabited

namespace ComplexFloat

def ofReal (x : Float) : ComplexFloat := ⟨x, 0.0⟩

def zero : ComplexFloat := ⟨0.0, 0.0⟩

def one : ComplexFloat := ⟨1.0, 0.0⟩

def notANumber : ComplexFloat := ⟨Binary64.notANumber, Binary64.notANumber⟩

def isNaN (z : ComplexFloat) : Bool :=
  z.re.isNaN || z.im.isNaN

def isFinite (z : ComplexFloat) : Bool :=
  z.re.isFinite && z.im.isFinite

/-- Some part is infinite; the other may be anything. -/
def isInfinite (z : ComplexFloat) : Bool :=
  z.re.isInf || z.im.isInf

instance : Add ComplexFloat where
  add a b := ⟨a.re + b.re, a.im + b.im⟩

instance : Sub ComplexFloat where
  sub a b := ⟨a.re - b.re, a.im - b.im⟩

/-- Both parts change sign, those of zero too. -/
instance : Neg ComplexFloat where
  neg a := ⟨-a.re, -a.im⟩

instance : Mul ComplexFloat where
  mul a b := ⟨a.re * b.re - a.im * b.im, a.re * b.im + a.im * b.re⟩

def conj (z : ComplexFloat) : ComplexFloat := ⟨z.re, -z.im⟩

/-- `i · z`, a quarter turn. -/
def turn (z : ComplexFloat) : ComplexFloat := ⟨-z.im, z.re⟩

def turnBack (z : ComplexFloat) : ComplexFloat := ⟨z.im, -z.re⟩

/-- The angle from the positive real axis, from `-π` to `π`. -/
def phase (z : ComplexFloat) : Float :=
  Float.atan2 z.im z.re

def div (a b : ComplexFloat) : Except Fault ComplexFloat :=
  if b.im.abs ≤ b.re.abs then
    if b.re.abs == 0.0 then .error .zeroDivision
    else
      let ratio := b.im / b.re
      let scale := b.re + b.im * ratio
      .ok ⟨(a.re + a.im * ratio) / scale, (a.im - a.re * ratio) / scale⟩
  else if b.re.abs ≤ b.im.abs then
    let ratio := b.re / b.im
    let scale := b.re * ratio + b.im
    .ok ⟨(a.re * ratio + a.im) / scale, (a.im * ratio - a.re) / scale⟩
  else
    .ok notANumber

/-- An infinite result where the operands were finite. -/
def checkOverflow (z : ComplexFloat) : Except Fault ComplexFloat :=
  if z.isInfinite then .error .overflow else .ok z

def abs (z : ComplexFloat) : Except Fault Float :=
  let length := Binary64.hypot z.re z.im
  if z.isFinite && length.isInf then .error .overflow else .ok length

/-- The angle of `z`, which must not vanish below the smallest double. -/
def arg (z : ComplexFloat) : Except Fault Float :=
  let angle := z.phase
  if angle == 0.0 && z.im != 0.0 && z.re.isFinite then .error .overflow else .ok angle

end ComplexFloat

end ComplexFormula
