import ComplexFormula.Complex.Inverse
import ComplexFormula.Complex.Power

/-!
# Built-in functions

The eighteen functions that may be applied to a bracketed argument, as in `sin(z)`. A name
is recognised only right before an opening bracket, and when several names end there the
longest wins, so `asin(` is the inverse sine and not `a` times `sin(`.
-/

namespace ComplexFormula

/-- A built-in function of one complex argument. -/
inductive UnaryFn where
  | sin | cos | tan | asin | acos | atan
  | sinh | cosh | tanh | asinh | acosh | atanh
  | exp | ln | log10 | sqrt | abs | conj
deriving Repr, DecidableEq

namespace UnaryFn

/-- Every function, in the order in which they are listed to users. -/
def all : List UnaryFn :=
  [sin, cos, tan, asin, acos, atan, sinh, cosh, tanh, asinh, acosh, atanh,
    exp, ln, log10, sqrt, abs, conj]

/-- The name of a function in expressions. -/
def name : UnaryFn → String
  | sin => "sin" | cos => "cos" | tan => "tan"
  | asin => "asin" | acos => "acos" | atan => "atan"
  | sinh => "sinh" | cosh => "cosh" | tanh => "tanh"
  | asinh => "asinh" | acosh => "acosh" | atanh => "atanh"
  | exp => "exp" | ln => "ln" | log10 => "log10"
  | sqrt => "sqrt" | abs => "abs" | conj => "conj"

/-- The function with exactly this name (case matters). -/
def ofName? (text : String) : Option UnaryFn :=
  all.find? fun f => f.name == text

/-- Applies the function. `abs` gives the modulus as a real number and `conj` negates the
imaginary part; the others are the complex functions of the same name. -/
def apply : UnaryFn → ComplexFloat → ComplexFloat
  | sin, z => z.sin | cos, z => z.cos | tan, z => z.tan
  | asin, z => z.asin | acos, z => z.acos | atan, z => z.atan
  | sinh, z => z.sinh | cosh, z => z.cosh | tanh, z => z.tanh
  | asinh, z => z.asinh | acosh, z => z.acosh | atanh, z => z.atanh
  | exp, z => z.exp | ln, z => z.ln | log10, z => z.log10
  | sqrt, z => z.sqrt | abs, z => ComplexFloat.ofReal z.norm | conj, z => z.conj

/-- The function whose name is the longest one that `text` ends with. -/
def suffixOf? (text : List Char) : Option UnaryFn :=
  all.foldl (fun best f =>
    if f.name.toList.isSuffixOf text then
      match best with
      | some g => if g.name.length < f.name.length then some f else some g
      | none => some f
    else best) none

theorem name_ne_empty (f : UnaryFn) : f.name ≠ "" := by
  cases f <;> decide

end UnaryFn

end ComplexFormula
