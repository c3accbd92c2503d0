import ComplexFormula.Complex.Basic

/-! # Exponential, logarithm and square root

Principal values; the sign of a zero imaginary part chooses the side of a branch cut. Operands with
an infinite part or a part that is not a number follow the limits of the function along each axis.
-/

namespace ComplexFormula.ComplexFloat

open Binary64 (copySign hypot logOnePlus infinity largest smallestNormal)

def pi : Float := 3.141592653589793

def euler : Float := 2.718281828459045

def logTwo : Float := 0.6931471805599453

/-- Above this size a part is halved before it is squared or summed. -/
def large : Float := largest / 4.0

/-- The logarithm of `large`: an exponent past it is lowered by one first. -/
def largeLog : Float := large.log

def isLarge (z : ComplexFloat) : Bool :=
  large < z.re.abs || large < z.im.abs

def logHalfLength (z : ComplexFloat) : Float :=
  (hypot (z.re / 2.0) (z.im / 2.0)).log

def exp (z : ComplexFloat) : Except Fault ComplexFloat :=
  if z.isFinite then
    if largeLog < z.re then
      let length := (z.re - 1.0).exp
      checkOverflow ⟨length * z.im.cos * euler, length * z.im.sin * euler⟩
    else
      checkOverflow ⟨z.re.exp * z.im.cos, z.re.exp * z.im.sin⟩
  else if z.re.isInf && z.im.isFinite && z.im != 0.0 then
    let length := if 0.0 < z.re then infinity else 0.0
    .ok ⟨copySign length z.im.cos, copySign length z.im.sin⟩
  else if z.im.isInf && (z.re.isFinite || z.re == infinity) then
    .error .domain
  else
    let vanishes := z.re == -infinity
    .ok ⟨if vanishes then 0.0 else if z.re.isInf then infinity else Binary64.notANumber,
      if z.im == 0.0 then z.im else if vanishes then 0.0 else Binary64.notANumber⟩

def logLength (z : ComplexFloat) : Float :=
  let x := z.re.abs
  let y := z.im.abs
  if z.isLarge then
    z.logHalfLength + logTwo
  else if x < smallestNormal && y < smallestNormal then
    let scale := 9007199254740992.0
    (hypot (x * scale) (y * scale)).log - 53.0 * logTwo
  else
    let length := hypot x y
    if 0.71 ≤ length && length ≤ 1.73 then
      let longer := if y < x then x else y
      let shorter := if y < x then y else x
      logOnePlus ((longer - 1.0) * (longer + 1.0) + shorter * shorter) / 2.0
    else length.log

def log (z : ComplexFloat) : Except Fault ComplexFloat :=
  if !z.isFinite then
    .ok ⟨if z.isInfinite then infinity else Binary64.notANumber, z.phase⟩
  else if z.re == 0.0 && z.im == 0.0 then
    .error .domain
  else
    .ok ⟨z.logLength, z.phase⟩

/-- The root of a nonzero finite `z` in the first quadrant's measures: half-length root and rest. -/
def sqrtParts (z : ComplexFloat) : Float × Float :=
  let x := z.re.abs
  let y := z.im.abs
  let root :=
    if x < smallestNormal && y < smallestNormal then
      let up := 9007199254740992.0
      let down := 134217728.0
      (x * up + hypot (x * up) (y * up)).sqrt / down
    else
      2.0 * (x / 8.0 + hypot (x / 8.0) (y / 8.0)).sqrt
  (root, y / (2.0 * root))

/-- The root with nonnegative real part. -/
def sqrt (z : ComplexFloat) : ComplexFloat :=
  if z.im.isInf then
    ⟨infinity, z.im⟩
  else if z.re.isInf then
    let far := if z.im.isNaN then Binary64.notANumber else copySign 0.0 z.im
    if 0.0 < z.re then ⟨infinity, far⟩
    else if z.im.isNaN then ⟨Binary64.notANumber, infinity⟩
    else ⟨0.0, copySign infinity z.im⟩
  else if z.isNaN then
    notANumber
  else if z.re == 0.0 && z.im == 0.0 then
    ⟨0.0, z.im⟩
  else
    let (root, rest) := z.sqrtParts
    if 0.0 ≤ z.re then ⟨root, copySign rest z.im⟩ else ⟨rest, copySign root z.im⟩

end ComplexFormula.ComplexFloat
