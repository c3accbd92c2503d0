import ComplexFormula.Complex.Elementary

/-! # Hyperbolic and circular functions

The circular functions are the hyperbolic ones after a quarter turn.
-/

namespace ComplexFormula.ComplexFloat

open Binary64 (copySign infinity)

/-- An infinite real part over an angle that has a direction. -/
def isFarAlongAngle (z : ComplexFloat) : Bool :=
  z.re.isInf && z.im.isFinite && z.im != 0.0

def cosh (z : ComplexFloat) : Except Fault ComplexFloat :=
  if z.isFinite then
    if largeLog < z.re.abs then
      let lowered := z.re - copySign 1.0 z.re
      checkOverflow ⟨z.im.cos * lowered.cosh * euler, z.im.sin * lowered.sinh * euler⟩
    else
      checkOverflow ⟨z.im.cos * z.re.cosh, z.im.sin * z.re.sinh⟩
  else if z.isFarAlongAngle then
    let rise := copySign infinity z.im.sin
    .ok ⟨copySign infinity z.im.cos, if 0.0 < z.re then rise else -rise⟩
  else if z.im.isInf && !z.re.isNaN then
    .error .domain
  else if z.re.isInf then
    .ok ⟨infinity, if z.im.isNaN then z.im else copySign 1.0 z.re * z.im⟩
  else if z.re == 0.0 || z.im == 0.0 then
    .ok ⟨Binary64.notANumber, 0.0⟩
  else
    .ok notANumber

def sinh (z : ComplexFloat) : Except Fault ComplexFloat :=
  if z.isFinite then
    if largeLog < z.re.abs then
      let lowered := z.re - copySign 1.0 z.re
      checkOverflow ⟨z.im.cos * lowered.sinh * euler, z.im.sin * lowered.cosh * euler⟩
    else
      checkOverflow ⟨z.im.cos * z.re.sinh, z.im.sin * z.re.cosh⟩
  else if z.isFarAlongAngle then
    let run := copySign infinity z.im.cos
    .ok ⟨if 0.0 < z.re then run else -run, copySign infinity z.im.sin⟩
  else if z.im.isInf && !z.re.isNaN then
    .error .domain
  else if z.re.isInf then
    .ok (if z.im.isNaN then ⟨infinity, z.im⟩ else z)
  else if z.re == 0.0 then
    .ok ⟨0.0, Binary64.notANumber⟩
  else if z.im == 0.0 then
    .ok ⟨Binary64.notANumber, z.im⟩
  else
    .ok notANumber

def tanh (z : ComplexFloat) : Except Fault ComplexFloat :=
  if z.isFinite then
    if largeLog < z.re.abs then
      .ok ⟨copySign 1.0 z.re, 4.0 * z.im.sin * z.im.cos * (-2.0 * z.re.abs).exp⟩
    else
      let run := z.re.tanh
      let rise := z.im.tan
      let damp := 1.0 / z.re.cosh
      let product := run * rise
      let scale := 1.0 + product * product
      .ok ⟨run * (1.0 + rise * rise) / scale, rise / scale * damp * damp⟩
  else if z.isFarAlongAngle then
    .ok ⟨copySign 1.0 z.re, copySign 0.0 (2.0 * z.im.sin * z.im.cos)⟩
  else if z.im.isInf && z.re.isFinite then
    .error .domain
  else if z.re.isInf then
    .ok ⟨copySign 1.0 z.re, if z.im == 0.0 then z.im else 0.0⟩
  else if z.im == 0.0 then
    .ok ⟨Binary64.notANumber, z.im⟩
  else
    .ok notANumber

def cos (z : ComplexFloat) : Except Fault ComplexFloat :=
  z.turn.cosh

def sin (z : ComplexFloat) : Except Fault ComplexFloat :=
  turnBack <$> z.turn.sinh

def tan (z : ComplexFloat) : Except Fault ComplexFloat :=
  turnBack <$> z.turn.tanh

end ComplexFormula.ComplexFloat
