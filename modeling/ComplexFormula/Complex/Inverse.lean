import ComplexFormula.Complex.Elementary

/-!
# Inverse circular and hyperbolic functions

Each inverse is its logarithmic formula, evaluated with the complex operations of this
library in the order written:

* `asin z = -i ln (sqrt (1 - z²) + i z)`
* `acos z = -i ln (i sqrt (1 - z²) + z)`
* `atan z = (ln (1 + i z) - ln (1 - i z)) / (2i)`, with `atan (±i) = ±∞ i`
* `asinh z = ln (z + sqrt (1 + z²))`
* `acosh z = 2 ln (sqrt ((z + 1) / 2) + sqrt ((z - 1) / 2))`
* `atanh z = (ln (1 + z) - ln (1 - z)) / 2`, with `atanh (±1) = ±∞`

The poles of `atan` and `atanh` are recognised by numeric equality, so `-0.0` counts as zero.
-/

namespace ComplexFormula

namespace ComplexFloat

/-- The principal inverse sine. -/
def asin (z : ComplexFloat) : ComplexFloat :=
  -i * ((one - z * z).sqrt + i * z).ln

/-- The principal inverse cosine. -/
def acos (z : ComplexFloat) : ComplexFloat :=
  -i * (i * (one - z * z).sqrt + z).ln

/-- The principal inverse tangent. -/
def atan (z : ComplexFloat) : ComplexFloat :=
  if z.equals i then ⟨0, Binary64.Word.infinity⟩
  else if z.equals (-i) then ⟨0, -Binary64.Word.infinity⟩
  else ((one + i * z).ln - (one - i * z).ln) / (two * i)

/-- The principal inverse hyperbolic sine. -/
def asinh (z : ComplexFloat) : ComplexFloat :=
  (z + (one + z * z).sqrt).ln

/-- The principal inverse hyperbolic cosine. -/
def acosh (z : ComplexFloat) : ComplexFloat :=
  two * (((z + one) / two).sqrt + ((z - one) / two).sqrt).ln

/-- The principal inverse hyperbolic tangent. -/
def atanh (z : ComplexFloat) : ComplexFloat :=
  if z.equals one then ⟨Binary64.Word.infinity, 0⟩
  else if z.equals (-one) then ⟨-Binary64.Word.infinity, 0⟩
  else ((one + z).ln - (one - z).ln) / two

end ComplexFloat

end ComplexFormula
