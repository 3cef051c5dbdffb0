import ComplexFormula.Tree
import ComplexFormula.Decimal.Notation

/-!
# Writing a tree as text

A tree is written fully bracketed: `(l op r)` with a space on each side of the operator,
`f(arg)` for a function, and the declared name for a variable. A constant with zero
imaginary part is its real part in plain positional notation (`-0` for negative zero);
any other constant is written `(a+bi)` or `(a-bi)` inside brackets. The numbers are the
shortest decimals that read back, so a tree of real constants reads back as the same tree.
-/

namespace ComplexFormula

/-- A real number as written in an expression; every NaN is written `NaN`. -/
def writeReal (x : Binary64.Word) : String := Decimal.Notation.positional.render x.toFloat

/-- A complex number `a+bi`: a part below zero is written as a minus sign and the
magnitude `0 - part`; any other part (a NaN included) is written as it is, the imaginary one
after a plus sign. -/
def writeComplex (z : ComplexFloat) : String :=
  let realText := if z.re < 0 then "-" ++ writeReal (0 - z.re) else writeReal z.re
  let imagText := if z.im < 0 then "-" ++ writeReal (0 - z.im) else "+" ++ writeReal z.im
  realText ++ imagText ++ "i"

namespace Tree

/-- The text of a tree; `names` gives the name of each slot (a slot without a name is
written `$` and its number). -/
def render (names : List String) : Tree → String
  | const z => if z.im == 0 then writeReal z.re else "(" ++ writeComplex z ++ ")"
  | var _ slot => (names[slot]?).getD ("$" ++ toString slot)
  | unary f arg => f.name ++ "(" ++ arg.render names ++ ")"
  | binary op left right =>
    "(" ++ left.render names ++ " " ++ String.singleton op.symbol ++ " " ++
      right.render names ++ ")"

end Tree

end ComplexFormula
