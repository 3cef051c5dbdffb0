import ComplexFormula.Binary64.Basic

/-!
# Euclidean norm of two words

`hypot x y` approximates `sqrt (x ^ 2 + y ^ 2)` by a corrected square root: the square root
`h` of the rounded sum of squares is refined once by `h - (t₁ + t₂) / (2h)`, where `t₁ + t₂`
estimates `h² - x² - y²` from products whose rounding errors cancel. The error is below one unit in the last place,
but the result is not always the nearest word: for `(0.6602588768992351, 1.6982859412396687)`
it is `1.8221188003905089`, one unit above the nearest.

Operands of very different size give their sum, and operands near the ends of the exponent
range are scaled by `2 ^ 600` so that no square overflows and no correction term underflows.
An infinite operand makes the norm infinite even beside a NaN; otherwise a NaN operand makes
it NaN.
-/

namespace ComplexFormula.Binary64

/-- `2 ^ (-600)`, the scale for operands near the ends of the range. -/
def hypotScale : Float := Float.ofBits 0x1A70000000000000

/-- `2 ^ 511`: larger operands are scaled down. -/
def hypotLarge : Float := Float.ofBits 0x5FE0000000000000

/-- `2 ^ (-459)`: smaller operands are scaled up. The bound is well above the square root
of the smallest normal word, so that the correction terms, which are about `2 ^ (-106)` times
the squares, stay normal too. -/
def hypotTiny : Float := Float.ofBits 0x2340000000000000

/-- `2 ^ (-54)`: below this ratio the smaller operand no longer changes the norm. -/
def hypotEpsilon : Float := Float.ofBits 0x3C90000000000000

/-- The corrected square root for `ax ≥ ay ≥ 0` whose squares neither overflow nor
underflow. -/
def hypotKernel (ax ay : Float) : Float :=
  let h := (ax * ax + ay * ay).sqrt
  if h ≤ 2 * ay then
    let delta := h - ay
    let t₁ := ax * (2 * delta - ax)
    let t₂ := (delta - 2 * (ax - ay)) * delta
    h - (t₁ + t₂) / (2 * h)
  else
    let delta := h - ax
    let t₁ := 2 * delta * (ax - 2 * ay)
    let t₂ := (4 * delta - ay) * ay + delta * delta
    h - (t₁ + t₂) / (2 * h)

/-- The length of the vector `(x, y)`. -/
def hypot (x y : Float) : Float :=
  if !x.isFinite || !y.isFinite then
    if x.isInf || y.isInf then infinity else x + y
  else
    let x := x.abs
    let y := y.abs
    let ax := if x < y then y else x
    let ay := if x < y then x else y
    if hypotLarge < ax then
      if ay ≤ ax * hypotEpsilon then ax + ay
      else hypotKernel (ax * hypotScale) (ay * hypotScale) / hypotScale
    else if ay < hypotTiny then
      if ay / hypotEpsilon ≤ ax then ax + ay
      else hypotKernel (ax / hypotScale) (ay / hypotScale) * hypotScale
    else if ay ≤ ax * hypotEpsilon then ax + ay
    else hypotKernel ax ay

end ComplexFormula.Binary64
