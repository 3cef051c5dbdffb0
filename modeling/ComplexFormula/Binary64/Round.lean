import ComplexFormula.Binary64.Basic

/-!
# Rounding to the nearest binary64 word

Exact quantities, given as a ratio of naturals, are rounded to the nearest binary64 word, a
tie going to the word with even significand, with gradual underflow into the subnormal words
and overflow to infinity. The single rounding step is
`roundScaled`: it takes the quantity as an integer part with at least two bits more than a
significand holds, plus a flag that tells whether anything nonzero was cut off below it.
That flag is all that rounding to nearest needs of the lost part, because the lost part is
then less than half of the last kept bit's weight.
-/

namespace ComplexFormula.Binary64

/-- The number of bits of a natural number (zero for zero). -/
def bitLength (n : Nat) : Nat := if n = 0 then 0 else Nat.log2 n + 1

/-- The word for a significand already rounded to at most 53 bits, scaled by `2 ^ e`, where
`e` is at least the subnormal exponent. A significand that has grown to `2 ^ 53` is renormalised,
and an exponent past the largest binade gives infinity. -/
def encode (negative : Bool) (q : Nat) (e : Int) : Float :=
  let (q, e) := if q = Nat.pow 2 53 then (Nat.pow 2 52, e + 1) else (q, e)
  if q < Nat.pow 2 52 then
    ({ negative, biased := 0, fraction := q } : Fields).toFloat
  else
    let biased := e + 1075
    if 2047 ≤ biased then
      ({ negative, biased := 2047, fraction := 0 } : Fields).toFloat
    else
      ({ negative, biased := biased.toNat, fraction := q - Nat.pow 2 52 } : Fields).toFloat

/-- The nearest word to `(m + δ) * 2 ^ e` with sign `negative`, where `0 ≤ δ < 1` and
`sticky` says whether `δ > 0`. The result keeps 53 bits, or fewer where the exponent would
fall below the subnormal exponent `-1074`; a remainder of exactly half the last kept bit
rounds to the even significand unless `sticky` puts the quantity above the half.
When `sticky` holds, `m` must have more bits than are kept, as `ofRatio` guarantees;
otherwise the quantity is taken to be exactly `m * 2 ^ e`. -/
def roundScaled (negative : Bool) (m : Nat) (sticky : Bool) (e : Int) : Float :=
  if m = 0 then
    ({ negative, biased := 0, fraction := 0 } : Fields).toFloat
  else
    let last : Int := max (e + bitLength m - 53) (-1074)
    if last ≤ e then
      encode negative (m * Nat.pow 2 (e - last).toNat) last
    else
      let cut := (last - e).toNat
      let kept := m / Nat.pow 2 cut
      let rest := m % Nat.pow 2 cut
      let half := Nat.pow 2 (cut - 1)
      let up := decide (half < rest) || (rest == half && (sticky || kept % 2 == 1))
      encode negative (if up then kept + 1 else kept) last

/-- The nearest word to `num / den` with sign `negative`; a zero numerator gives a zero of
that sign and a zero denominator is read as one. The quotient is taken with at least 55 bits
before `roundScaled` rounds it. -/
def ofRatio (negative : Bool) (num den : Nat) : Float :=
  let den := if den = 0 then 1 else den
  if num = 0 then
    ({ negative, biased := 0, fraction := 0 } : Fields).toFloat
  else
    let shift : Int := 55 - ((bitLength num : Int) - bitLength den)
    if 0 ≤ shift then
      let scaled := num * Nat.pow 2 shift.toNat
      roundScaled negative (scaled / den) (scaled % den != 0) (-shift)
    else
      let scaledDen := den * Nat.pow 2 shift.natAbs
      roundScaled negative (num / scaledDen) (num % scaledDen != 0) (-shift)

end ComplexFormula.Binary64
