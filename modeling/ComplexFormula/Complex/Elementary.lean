import ComplexFormula.Complex.Basic

/-!
# Exponential, logarithm, roots and the circular and hyperbolic functions

Each function is the textbook formula in terms of real functions of the two parts, with the
corner cases of the exponential and the square root treated before the formula:

* `exp (a + bi) = eᵃ cos b + (eᵃ sin b) i`, except for infinite or NaN real parts as in
  `exp` below;
* `ln z = ln |z| + (arg z) i`;
* `sqrt` of a real or purely imaginary number takes a real square root directly, and of
  any other number halves the argument of the polar form;
* `sin`, `cos`, `tan` and their hyperbolic versions expand into products of real circular
  and hyperbolic functions; `tan` and `tanh` use the doubled arguments.

The real functions are those of the platform's mathematical library.
-/

namespace ComplexFormula

open Binary64 (Word)

namespace ComplexFloat

/-- The binary64 word nearest to `ln 10`. -/
def ln10 : Word := ⟨0x40026BB1BBB55516⟩

/-- The complex exponential. With an infinite real part the result is a limit: for `-∞`
and a non-finite imaginary part it is `0`, for `+∞` and a zero or non-finite imaginary part
it keeps the real part and the imaginary part (an infinite one turned into NaN). A NaN real
part with zero imaginary part is returned as it is. All else is `fromPolar (exp a) b`. -/
def exp (z : ComplexFloat) : ComplexFloat :=
  if z.re.isInf then
    if z.re < 0 then
      if !z.im.isFinite then ⟨0, 0⟩ else fromPolar z.re.exp z.im
    else if z.im == 0 || !z.im.isFinite then
      ⟨z.re, if z.im.isInf then Word.nan else z.im⟩
    else fromPolar z.re.exp z.im
  else if z.re.isNaN && z.im == 0 then z
  else fromPolar z.re.exp z.im

/-- The principal natural logarithm `ln |z| + (arg z) i`. -/
def ln (z : ComplexFloat) : ComplexFloat := ⟨z.norm.log, z.arg⟩

/-- The principal logarithm to base ten: the natural logarithm with both parts divided by
`ln 10`. -/
def log10 (z : ComplexFloat) : ComplexFloat := z.ln.unscale ln10

/-- The principal square root. A real argument (imaginary part zero of either sign) takes
the real root of its magnitude, on the real axis for a clear sign bit and on the imaginary
axis, with the sign of the imaginary part, for a set one; a NaN goes by its sign bit too. A purely imaginary
argument has both parts `sqrt (|im| / 2)`. Otherwise the polar form with halved argument. -/
def sqrt (z : ComplexFloat) : ComplexFloat :=
  if z.im == 0 then
    if z.re.isSignPositive then ⟨z.re.sqrt, z.im⟩
    else
      let root := (-z.re).sqrt
      if z.im.isSignPositive then ⟨0, root⟩ else ⟨0, -root⟩
  else if z.re == 0 then
    let x := (z.im.abs / 2).sqrt
    if z.im.isSignPositive then ⟨x, x⟩ else ⟨x, -x⟩
  else fromPolar z.norm.sqrt (z.arg / 2)

/-- `sin (a + bi) = sin a cosh b + (cos a sinh b) i`. -/
def sin (z : ComplexFloat) : ComplexFloat :=
  ⟨z.re.sin * z.im.cosh, z.re.cos * z.im.sinh⟩

/-- `cos (a + bi) = cos a cosh b - (sin a sinh b) i`. -/
def cos (z : ComplexFloat) : ComplexFloat :=
  ⟨z.re.cos * z.im.cosh, -z.re.sin * z.im.sinh⟩

/-- `tan (a + bi) = (sin 2a + (sinh 2b) i) / (cos 2a + cosh 2b)`. -/
def tan (z : ComplexFloat) : ComplexFloat :=
  let a := z.re + z.re
  let b := z.im + z.im
  (⟨a.sin, b.sinh⟩ : ComplexFloat).unscale (a.cos + b.cosh)

/-- `sinh (a + bi) = sinh a cos b + (cosh a sin b) i`. -/
def sinh (z : ComplexFloat) : ComplexFloat :=
  ⟨z.re.sinh * z.im.cos, z.re.cosh * z.im.sin⟩

/-- `cosh (a + bi) = cosh a cos b + (sinh a sin b) i`. -/
def cosh (z : ComplexFloat) : ComplexFloat :=
  ⟨z.re.cosh * z.im.cos, z.re.sinh * z.im.sin⟩

/-- `tanh (a + bi) = (sinh 2a + (sin 2b) i) / (cosh 2a + cos 2b)`. -/
def tanh (z : ComplexFloat) : ComplexFloat :=
  let a := z.re + z.re
  let b := z.im + z.im
  (⟨a.sinh, b.sin⟩ : ComplexFloat).unscale (a.cosh + b.cos)

end ComplexFloat

end ComplexFormula
