import ComplexFormula.Decimal.Notation
import ComplexFormula.Decimal.QuickRead
import ComplexFormula.Complex.Basic

/-!
# Reported values

A computed value is reported as decimal text in mixed notation (`Notation.mixed`), and that
text is read back by the quick rule of `quickRead?`, so the value a report stands for is the
quick reading of the shortest decimal of the computed value. It is the computed value itself
whenever that reading is exact, which it is for all numbers with few digits. Infinities and
NaN are reported by name and are not read back.
-/

namespace ComplexFormula.Report

open Decimal

/-- The value that the report of `x` stands for. -/
def reportedReal (x : Float) : Float :=
  if x.isFinite then (quickRead? (Notation.mixed.render x).toList).getD x else x

/-- The text of a reported real part: the mixed-notation text of its reported value. -/
def realText (x : Float) : String := Notation.mixed.render (reportedReal x)

/-- Whether a reported part is written as a number, rather than by name. -/
def isNumeric (x : Float) : Bool := x.isFinite

end ComplexFormula.Report
