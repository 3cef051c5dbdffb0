import ComplexFormula.Binary64.Word

/-!
# Complex numbers with binary64 parts

A complex value is a pair of binary64 words (`Binary64.Word`, which keep the sign of a
NaN). Its arithmetic is the schoolbook one, each formula evaluated in the order written, so
that every intermediate rounding is fixed: `(a + bi)(c + di) = (ac - bd) + (ad + bc)i`, and
division multiplies by the conjugate and divides both parts by `c² + d²`. No scaling guards
against overflow, so `(1 + i) / (1e308 + 1e308i)` is `NaN + 0i`, and division by zero gives
`NaN + NaN i`.
-/

namespace ComplexFormula

open Binary64 (Word)

/-- A complex number whose real and imaginary parts are binary64 words. -/
structure ComplexFloat where
  re : Word
  im : Word

namespace ComplexFloat

/-- The real number `x` as a complex number, with imaginary part `+0.0`. -/
def ofReal (x : Word) : ComplexFloat := ⟨x, 0⟩

/-- The unit `1 + 0i`. -/
def one : ComplexFloat := ⟨1, 0⟩

/-- The imaginary unit `0 + 1i`. -/
def i : ComplexFloat := ⟨0, 1⟩

/-- `2 + 0i`, used as a divisor and factor by the inverse functions. -/
def two : ComplexFloat := ⟨2, 0⟩

/-- Sum, part by part. -/
def add (z w : ComplexFloat) : ComplexFloat := ⟨z.re + w.re, z.im + w.im⟩

/-- Difference, part by part. -/
def sub (z w : ComplexFloat) : ComplexFloat := ⟨z.re - w.re, z.im - w.im⟩

/-- Product: `(ac - bd) + (ad + bc)i`. -/
def mul (z w : ComplexFloat) : ComplexFloat :=
  ⟨z.re * w.re - z.im * w.im, z.re * w.im + z.im * w.re⟩

/-- The squared modulus `re * re + im * im`, rounded after each step. -/
def normSqr (z : ComplexFloat) : Word := z.re * z.re + z.im * z.im

/-- Quotient: `((ac + bd) / n) + ((bc - ad) / n)i` with `n = c² + d²`. -/
def div (z w : ComplexFloat) : ComplexFloat :=
  let n := w.normSqr
  ⟨(z.re * w.re + z.im * w.im) / n, (z.im * w.re - z.re * w.im) / n⟩

/-- Negation of both parts. -/
def neg (z : ComplexFloat) : ComplexFloat := ⟨-z.re, -z.im⟩

instance : Add ComplexFloat := ⟨add⟩
instance : Sub ComplexFloat := ⟨sub⟩
instance : Mul ComplexFloat := ⟨mul⟩
instance : Div ComplexFloat := ⟨div⟩
instance : Neg ComplexFloat := ⟨neg⟩

/-- Both parts divided by the real number `t`. -/
def unscale (z : ComplexFloat) (t : Word) : ComplexFloat := ⟨z.re / t, z.im / t⟩

/-- The conjugate `re - im i`. -/
def conj (z : ComplexFloat) : ComplexFloat := ⟨z.re, -z.im⟩

/-- The reciprocal `(re / n) + (-im / n)i` with `n` the squared modulus. -/
def inv (z : ComplexFloat) : ComplexFloat :=
  let n := z.normSqr
  ⟨z.re / n, -z.im / n⟩

/-- The modulus `hypot re im`, within one unit in the last place of the exact value. -/
def norm (z : ComplexFloat) : Word := Word.hypot z.re z.im

/-- The argument `atan2 im re`, in `[-π, π]`. -/
def arg (z : ComplexFloat) : Word := Word.atan2 z.im z.re

/-- The number with modulus `r` and argument `θ`: `r cos θ + (r sin θ)i`. -/
def fromPolar (r θ : Word) : ComplexFloat := ⟨r * θ.cos, r * θ.sin⟩

/-- Equality of both parts as numbers: `-0.0` equals `0.0`, a NaN equals nothing. -/
def equals (z w : ComplexFloat) : Bool := z.re == w.re && z.im == w.im

/-- Both parts equal zero (of either sign). -/
def isZero (z : ComplexFloat) : Bool := z.re == 0 && z.im == 0

/-- The real part equals one and the imaginary part zero. -/
def isOne (z : ComplexFloat) : Bool := z.re == 1 && z.im == 0

theorem add_def (z w : ComplexFloat) : z + w = ⟨z.re + w.re, z.im + w.im⟩ := rfl

theorem mul_def (z w : ComplexFloat) :
    z * w = ⟨z.re * w.re - z.im * w.im, z.re * w.im + z.im * w.re⟩ := rfl

end ComplexFloat

end ComplexFormula
