import ComplexFormula.Decimal.Shortest

/-!
# Writing a binary64 word in decimal

The digits are always the shortest ones that read back (`shortest`); a `Notation` decides
only how they are laid out: where positional notation gives way to scientific notation,
whether a whole number keeps a `.0`, and how the special values are spelled. Two notations
are used by this library: `Notation.positional` for numbers written inside an expression,
which reads back through the expression grammar (no exponent, no `.0`), and
`Notation.mixed` for numbers reported as values.
-/

namespace ComplexFormula.Decimal

/-- The layout decisions of a decimal notation. The decimal exponent of a nonzero number is
the exponent of its leading digit. -/
structure Notation where
  /-- Nonzero numbers whose decimal exponent is below this one are written in scientific
  notation (`none`: never). -/
  scientificBelow : Option Int
  /-- Numbers whose decimal exponent is at least this one are written in scientific
  notation (`none`: never). -/
  scientificFrom : Option Int
  /-- Whether a whole number in positional notation keeps a fraction `.0`. -/
  pointZero : Bool
  nanText : String
  infinityText : String

/-- Plain positional notation: `1e300` is a one and three hundred zeros, `1e-5` is
`0.00001`, whole numbers have no fraction, and the sign of a negative zero is written. -/
def Notation.positional : Notation :=
  { scientificBelow := none, scientificFrom := none, pointZero := false,
    nanText := "NaN", infinityText := "inf" }

/-- Positional notation from `1e-4` up to below `1e16`, with a `.0` on whole numbers, and
scientific notation (`1e16`, `1.5e-7`, no plus sign, no leading zeros in the exponent)
outside that range. Zero is `0.0`. -/
def Notation.mixed : Notation :=
  { scientificBelow := some (-4), scientificFrom := some 16, pointZero := true,
    nanText := "NaN", infinityText := "inf" }

/-- `n` zero digits. -/
def zeros (n : Nat) : String := String.ofList (List.replicate n '0')

/-- Positional layout of `digits * 10 ^ exponent` (digits without trailing zeros). -/
def layoutPositional (pointZero : Bool) (s : Scientific) : String :=
  let text := toString s.digits
  let count : Int := text.length
  let point : Int := count + s.exponent
  if point ≤ 0 then
    "0." ++ zeros point.natAbs ++ text
  else if count ≤ point then
    text ++ zeros (point - count).toNat ++ (if pointZero then ".0" else "")
  else
    let chars := text.toList
    String.ofList (chars.take point.toNat) ++ "." ++ String.ofList (chars.drop point.toNat)

/-- Scientific layout: one digit, the others after a point if there are any, then `e` and the
decimal exponent. -/
def layoutScientific (s : Scientific) : String :=
  let chars := (toString s.digits).toList
  let lead : Int := chars.length - 1 + s.exponent
  let mantissa := match chars with
    | [] => "0"
    | [d] => String.ofList [d]
    | d :: rest => String.ofList [d] ++ "." ++ String.ofList rest
  mantissa ++ "e" ++ toString lead

/-- Whether a nonzero number with this leading exponent is written in scientific notation. -/
def Notation.isScientific (n : Notation) (lead : Int) : Bool :=
  (match n.scientificBelow with | some b => decide (lead < b) | none => false) ||
  (match n.scientificFrom with | some t => decide (t ≤ lead) | none => false)

/-- The text of a finite magnitude `m * 2 ^ e`, without sign. -/
def Notation.magnitude (n : Notation) (m : Nat) (e : Int) : String :=
  let s := shortest m e
  if s.digits = 0 then
    if n.pointZero then "0.0" else "0"
  else
    let lead : Int := (toString s.digits).length - 1 + s.exponent
    if n.isScientific lead then layoutScientific s else layoutPositional n.pointZero s

/-- The text of a word: a minus sign when the sign bit is set (also on zero), then the
magnitude; NaN is written without sign. -/
def Notation.render (n : Notation) (x : Float) : String :=
  let f := Binary64.fields x
  let sign := if f.negative then "-" else ""
  if f.isFinite then sign ++ n.magnitude f.significand f.exponent
  else if f.fraction = 0 then sign ++ n.infinityText
  else n.nanText

end ComplexFormula.Decimal
