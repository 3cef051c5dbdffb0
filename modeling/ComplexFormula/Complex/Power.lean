import ComplexFormula.Complex.Elementary

/-!
# Powers

Two kinds of power. `powNat` and `powInt` raise to an integer by repeated squaring, so that
`i ^ 2` is exactly `-1` and small integer powers of exact numbers stay exact; a negative
exponent raises the reciprocal. `powComplex` is `exp (w ln z)` for any exponent `w`.
-/

namespace ComplexFormula

namespace ComplexFloat

/-- Squares `base` while the exponent is even, halving the exponent; returns both.
The exponent must be positive for this to stop early; `fuel` bounds the steps by the
exponent's bit length. -/
def squareOutTwos (base : ComplexFloat) (exponent : Nat) : Nat → ComplexFloat × Nat
  | 0 => (base, exponent)
  | fuel + 1 =>
    if exponent ≠ 0 ∧ exponent % 2 = 0 then
      squareOutTwos (base * base) (exponent / 2) fuel
    else (base, exponent)

/-- The loop of binary exponentiation after the lowest set bit: halve the exponent, square
the base, and multiply it into the accumulator when the new lowest bit is set, while the
exponent is above one. -/
def accumulateBits (acc base : ComplexFloat) (exponent : Nat) : Nat → ComplexFloat
  | 0 => acc
  | fuel + 1 =>
    if 1 < exponent then
      let exponent := exponent / 2
      let base := base * base
      let acc := if exponent % 2 = 1 then acc * base else acc
      accumulateBits acc base exponent fuel
    else acc

/-- `z ^ n` for a natural `n`, by binary exponentiation: `z ^ 0 = 1`; factors of two in
`n` are first squared out of the base, and the odd rest is accumulated bit by bit. -/
def powNat (z : ComplexFloat) (n : Nat) : ComplexFloat :=
  if n = 0 then one
  else
    let (base, odd) := squareOutTwos z n (Nat.log2 n + 1)
    if odd = 1 then base
    else accumulateBits base base odd (Nat.log2 odd + 1)

/-- `z ^ n` for an integer `n` of 32-bit range: a negative exponent raises the reciprocal to
`-n`. -/
def powInt (z : ComplexFloat) (n : Int) : ComplexFloat :=
  if n < 0 then z.inv.powNat n.natAbs else z.powNat n.toNat

/-- `z ^ w = exp (w ln z)`, and `1` for a zero exponent. -/
def powComplex (z w : ComplexFloat) : ComplexFloat :=
  if w.isZero then one else (w * z.ln).exp

end ComplexFloat

end ComplexFormula
