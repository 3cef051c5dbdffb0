import ComplexFormula.Binary64.Round
import ComplexFormula.Binary64.Word

/-!
# Reading decimal numbers

The accepted texts are an optional sign followed either by a decimal number
`(d+ | d+ . d* | d* . d+) ([eE] [+-]? d+)?` or by one of the words `inf`, `infinity`, `nan`
in any mix of cases. A decimal number is rounded to the nearest binary64 word, ties to even,
so very large numbers become infinite and very small ones zero, keeping the sign.
-/

namespace ComplexFormula.Decimal

/-- ASCII decimal digits. -/
def isDigit (c : Char) : Bool := '0' ≤ c && c ≤ '9'

/-- The value of a run of ASCII digits. -/
def digitsValue (ds : List Char) : Nat :=
  ds.foldl (fun acc d => 10 * acc + (d.toNat - '0'.toNat)) 0

/-- The number of decimal digits of a natural number (one for zero). -/
def decimalLength (n : Nat) : Nat := (toString n).length

/-- The nearest word to `± mantissa * 10 ^ exponent`. Numbers whose leading digit lies past
`10 ^ 310` are certainly beyond the largest finite word, and those below `10 ^ (-330)` below
half the smallest subnormal, so those are decided without building the power of ten. -/
def ofDecimal (negative : Bool) (mantissa : Nat) (exponent : Int) : Float :=
  let lead : Int := decimalLength mantissa + exponent
  if mantissa = 0 || lead < -330 then Binary64.ofRatio negative 0 1
  else if 310 < lead then
    ({ negative, biased := 2047, fraction := 0 } : Binary64.Fields).toFloat
  else if 0 ≤ exponent then
    Binary64.ofRatio negative (mantissa * Nat.pow 10 exponent.toNat) 1
  else
    Binary64.ofRatio negative mantissa (Nat.pow 10 exponent.natAbs)

/-- Lower-case ASCII letters, other characters unchanged. -/
def lowerAscii (cs : List Char) : List Char :=
  cs.map fun c => if 'A' ≤ c && c ≤ 'Z' then Char.ofNat (c.toNat + 32) else c

/-- The exponent part `[eE] [+-]? d+`, as a signed value, when it makes up all of `cs`. -/
def readExponent : List Char → Option Int
  | [] => some 0
  | marker :: rest =>
    if marker == 'e' || marker == 'E' then
      let (negative, ds) := match rest with
        | '+' :: ds => (false, ds)
        | '-' :: ds => (true, ds)
        | ds => (false, ds)
      if !ds.isEmpty && ds.all isDigit then
        let n : Int := digitsValue ds
        some (if negative then -n else n)
      else none
    else none

/-- An unsigned decimal number making up all of `cs`, as digits and a decimal exponent. -/
def readUnsigned (cs : List Char) : Option (Nat × Int) :=
  let whole := cs.takeWhile isDigit
  let afterWhole := cs.dropWhile isDigit
  let (fraction, afterFraction) := match afterWhole with
    | '.' :: rest => (rest.takeWhile isDigit, rest.dropWhile isDigit)
    | rest => ([], rest)
  if whole.isEmpty && fraction.isEmpty then none
  else
    (readExponent afterFraction).map fun exponent =>
      (digitsValue (whole ++ fraction), exponent - fraction.length)

/-- Reads a number, or one of the special words, with an optional sign in front. The sign
applies to a NaN too: `-nan` is the NaN with the sign bit set. -/
def readWord? (cs : List Char) : Option Binary64.Word :=
  let (negative, body) := match cs with
    | '+' :: rest => (false, rest)
    | '-' :: rest => (true, rest)
    | rest => (false, rest)
  let word := lowerAscii body
  if word == "inf".toList || word == "infinity".toList then
    some (if negative then -Binary64.Word.infinity else Binary64.Word.infinity)
  else if word == "nan".toList then
    some (if negative then -Binary64.Word.nan else Binary64.Word.nan)
  else
    (readUnsigned body).map fun (mantissa, exponent) =>
      Binary64.Word.ofFloat (ofDecimal negative mantissa exponent)

end ComplexFormula.Decimal
