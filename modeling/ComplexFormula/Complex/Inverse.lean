import ComplexFormula.Complex.Elementary

/-! # Inverse circular and hyperbolic functions

All are built from square roots and real logarithms in a way that keeps both sides of a branch cut
apart by the sign of zero.
-/

namespace ComplexFormula.ComplexFloat

open Binary64 (copySign hypot logOnePlus infinity smallestNormal)

def logTwiceLength (z : ComplexFloat) : Float :=
  z.logHalfLength + logTwo * 2.0

def acos (z : ComplexFloat) : ComplexFloat :=
  if !z.isFinite then
    ⟨if z.re == 0.0 && z.im.isNaN then pi / 2.0 else Float.atan2 z.im.abs z.re,
      if !z.isInfinite then Binary64.notANumber
      else if z.im.isNaN then infinity else -(copySign infinity z.im)⟩
  else if z.isLarge then
    ⟨Float.atan2 z.im.abs z.re, -(copySign z.logTwiceLength z.im)⟩
  else
    let below := sqrt ⟨1.0 - z.re, -z.im⟩
    let above := sqrt ⟨1.0 + z.re, z.im⟩
    ⟨2.0 * Float.atan2 below.re above.re,
      (above.re * below.im - above.im * below.re).asinh⟩

def acosh (z : ComplexFloat) : ComplexFloat :=
  if !z.isFinite then
    ⟨if z.isInfinite then infinity else Binary64.notANumber, z.phase⟩
  else if z.isLarge then
    ⟨z.logTwiceLength, z.phase⟩
  else
    let below := sqrt ⟨z.re - 1.0, z.im⟩
    let above := sqrt ⟨z.re + 1.0, z.im⟩
    ⟨(below.re * above.re + below.im * above.im).asinh,
      2.0 * Float.atan2 below.im above.re⟩

def asinh (z : ComplexFloat) : ComplexFloat :=
  if !z.isFinite then
    ⟨if !z.isInfinite then Binary64.notANumber
      else if z.re.isNaN then infinity else copySign infinity z.re,
      if z.re.isNaN then (if z.im == 0.0 then z.im else Binary64.notANumber)
      else Float.atan2 z.im z.re.abs⟩
  else if z.isLarge then
    ⟨copySign z.logTwiceLength z.re, Float.atan2 z.im z.re.abs⟩
  else
    let above := sqrt ⟨1.0 + z.im, -z.re⟩
    let below := sqrt ⟨1.0 - z.im, z.re⟩
    ⟨(above.re * below.im - below.re * above.im).asinh,
      Float.atan2 z.im (above.re * below.re - above.im * below.im)⟩

/-- The case of a finite `z` in the right half plane. -/
def atanhRight (z : ComplexFloat) : Except Fault ComplexFloat :=
  let height := z.im.abs
  if large.sqrt < z.re || large.sqrt < height then
    let half := hypot (z.re / 2.0) (z.im / 2.0)
    .ok ⟨z.re / 4.0 / half / half, copySign (pi / 2.0) z.im⟩
  else if z.re == 1.0 && height < smallestNormal.sqrt then
    if height == 0.0 then .error .domain
    else
      .ok ⟨-(height.sqrt / (hypot height 2.0).sqrt).log,
        copySign (Float.atan2 2.0 (-height) / 2.0) z.im⟩
  else
    let gap := 1.0 - z.re
    .ok ⟨logOnePlus (4.0 * z.re / (gap * gap + height * height)) / 4.0,
      -(Float.atan2 (-2.0 * z.im) (gap * (1.0 + z.re) - height * height)) / 2.0⟩

def atanh (z : ComplexFloat) : Except Fault ComplexFloat :=
  if z.isFinite then
    if Binary64.isNegative z.re then Neg.neg <$> (-z).atanhRight else z.atanhRight
  else
    let flat :=
      if z.re.isNaN then z.im.isInf
      else z.isInfinite || z.re == 0.0
    .ok ⟨if !flat then Binary64.notANumber
        else if z.re.isNaN then 0.0 else copySign 0.0 z.re,
      if z.im.isNaN || !z.isInfinite then Binary64.notANumber else copySign (pi / 2.0) z.im⟩

def asin (z : ComplexFloat) : ComplexFloat :=
  z.turn.asinh.turnBack

def atan (z : ComplexFloat) : Except Fault ComplexFloat :=
  turnBack <$> z.turn.atanh

end ComplexFormula.ComplexFloat
