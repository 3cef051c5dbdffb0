import ComplexFormula.Decimal.Read

/-!
# Reading decimals the quick way

A widespread fast reading of JSON numbers that is not always the nearest binary64 word: the
digits are gathered into a 64-bit integer significand, which is rounded to binary64, and the
result is multiplied or divided once by the binary64 word nearest to the power of ten of the
exponent. The significand, the power and the product are each rounded, so a sixteen- or
seventeen-digit number may be read one unit in the last place away from its nearest word:
`1.2984575814159773` is read as `1.2984575814159771`. Numbers are read by this rule where the
values they stand for were read by it.

Details of the rule: integer digits that no longer fit the significand raise the exponent,
fraction digits that no longer fit are ignored; an exponent beyond the powers up to `10 ^ 308`
is reduced by dividing by `10 ^ 308` first; a number too large is refused, as is text outside
the JSON number grammar. A number without fraction and exponent is an integer and is read
to the nearest word.
-/

namespace ComplexFormula.Decimal

/-- The largest 64-bit unsigned integer. -/
def word64Max : Nat := Nat.pow 2 64 - 1

/-- The binary64 word nearest to `10 ^ k`. -/
def powerOfTen (k : Nat) : Float := Binary64.ofRatio false (Nat.pow 10 k) 1

/-- Gathers digits into a significand while it fits in 64 bits; returns the significand and
how many digits were taken. -/
def accumulate (significand : Nat) : List Char → Nat × Nat
  | [] => (significand, 0)
  | d :: rest =>
    let next := significand * 10 + (d.toNat - '0'.toNat)
    if word64Max < next then (significand, 0)
    else
      let (s, n) := accumulate next rest
      (s, n + 1)

/-- Scales a rounded significand by a decimal exponent as the quick reader does: one
multiplication or division by a binary64 power of ten, dividing by `10 ^ 308` first while
the exponent is below `-308`. A product that overflows is refused. -/
def scaleByTen (f : Float) (exponent : Int) : Nat → Option Float
  | 0 => some f
  | fuel + 1 =>
    if exponent.natAbs ≤ 308 then
      if 0 ≤ exponent then
        let g := f * powerOfTen exponent.toNat
        if g.isInf then none else some g
      else some (f / powerOfTen exponent.natAbs)
    else if f == 0 then some f
    else if 0 ≤ exponent then none
    else scaleByTen (f / powerOfTen 308) (exponent + 308) fuel

/-- The quick value of sign, significand and decimal exponent. -/
def quickValue (negative : Bool) (significand : Nat) (exponent : Int) : Option Float :=
  (scaleByTen (Binary64.ofRatio false significand 1) exponent (exponent.natAbs / 308 + 2)).map
    fun f => if negative then -f else f

/-- The largest 32-bit signed integer, the bound of an exponent. -/
def exponentMax : Nat := Nat.pow 2 31 - 1

/-- Reads the exponent part after the marker: an optional sign and at least one digit. An
exponent beyond 32 bits gives zero for a zero significand or a negative exponent, and is
refused otherwise. -/
def quickExponent (negative : Bool) (significand : Nat) (start : Int) (cs : List Char) :
    Option Float :=
  let (positiveExponent, body) := match cs with
    | '+' :: rest => (true, rest)
    | '-' :: rest => (false, rest)
    | rest => (true, rest)
  let digits := body.takeWhile isDigit
  if digits.isEmpty || !(body.dropWhile isDigit).isEmpty then none
  else
    let value := digitsValue digits
    if exponentMax < value then
      if significand ≠ 0 && positiveExponent then none
      else some (if negative then Binary64.negZero else 0)
    else
      quickValue negative significand (if positiveExponent then start + value else start - value)

/-- Reads a JSON number by the quick rule; `none` for text outside the JSON number grammar
and for numbers too large. -/
def quickRead? (cs : List Char) : Option Float :=
  let (negative, body) := match cs with
    | '-' :: rest => (true, rest)
    | rest => (false, rest)
  let whole := body.takeWhile isDigit
  let afterWhole := body.dropWhile isDigit
  match whole with
  | [] => none
  | '0' :: _ :: _ => none
  | _ =>
    let (significand, taken) := accumulate 0 whole
    let wholeExponent : Int := whole.length - taken
    match afterWhole with
    | '.' :: afterPoint =>
      let fraction := afterPoint.takeWhile isDigit
      let afterFraction := afterPoint.dropWhile isDigit
      if fraction.isEmpty then none
      else
        let (significand, takenFraction) := accumulate significand fraction
        let exponent := wholeExponent - takenFraction
        match afterFraction with
        | [] => quickValue negative significand exponent
        | marker :: rest =>
          if marker == 'e' || marker == 'E' then quickExponent negative significand exponent rest
          else none
    | marker :: rest =>
      if marker == 'e' || marker == 'E' then quickExponent negative significand wholeExponent rest
      else none
    | [] =>
      if taken < whole.length then quickValue negative significand wholeExponent
      else if negative && significand = 0 then some Binary64.negZero
      else some (Binary64.ofRatio negative significand 1)

end ComplexFormula.Decimal
