import ComplexFormula.Complex.Power

/-!
# Binary operators

The five operators `+ - * / ^`. A power with a whole exponent within the 32-bit integer
range (imaginary part zero) is computed by repeated multiplication, so that `i ^ 2` is
exactly `-1`; any other exponent goes through `exp (w ln z)`.
-/

namespace ComplexFormula

/-- A binary operator of the expression language. -/
inductive BinaryOp where
  | add | sub | mul | div | pow
deriving Repr, DecidableEq

namespace BinaryOp

/-- Every operator, in the order in which they are listed to users. -/
def all : List BinaryOp := [add, sub, mul, div, pow]

/-- The character an operator is written with. -/
def symbol : BinaryOp → Char
  | add => '+' | sub => '-' | mul => '*' | div => '/' | pow => '^'

/-- The operator written with this character. -/
def ofSymbol? (c : Char) : Option BinaryOp :=
  all.find? fun op => op.symbol == c

/-- The smallest and largest 32-bit integers. -/
def int32Min : Int := -2147483648
def int32Max : Int := 2147483647

/-- The whole-number exponent for which a power is computed by multiplication: the real part,
when the imaginary part is zero and the real part is a whole number in the 32-bit range. -/
def wholeExponent? (w : ComplexFloat) : Option Int :=
  if w.im == 0 then
    match Binary64.toInt? w.re.toFloat with
    | some n => if int32Min ≤ n ∧ n ≤ int32Max then some n else none
    | none => none
  else none

/-- `z ^ w`: by repeated multiplication for a whole exponent of 32-bit range, otherwise
`exp (w ln z)`. -/
def power (z w : ComplexFloat) : ComplexFloat :=
  match wholeExponent? w with
  | some n => z.powInt n
  | none => z.powComplex w

/-- Applies an operator to its two operands. -/
def apply : BinaryOp → ComplexFloat → ComplexFloat → ComplexFloat
  | add, z, w => z + w
  | sub, z, w => z - w
  | mul, z, w => z * w
  | div, z, w => z / w
  | pow, z, w => power z w

end BinaryOp

/-- Characters that write an operator. -/
def isOperatorChar (c : Char) : Bool :=
  c == '+' || c == '-' || c == '*' || c == '/' || c == '^'

/-- The two additive signs. -/
def isSignChar (c : Char) : Bool := c == '+' || c == '-'

theorem isOperatorChar_iff (c : Char) :
    isOperatorChar c = true ↔ ∃ op : BinaryOp, op.symbol = c := by
  constructor
  · intro h
    simp only [isOperatorChar, Bool.or_eq_true, beq_iff_eq] at h
    rcases h with (((h | h) | h) | h) | h
    · exact ⟨.add, h.symm⟩
    · exact ⟨.sub, h.symm⟩
    · exact ⟨.mul, h.symm⟩
    · exact ⟨.div, h.symm⟩
    · exact ⟨.pow, h.symm⟩
  · rintro ⟨op, rfl⟩
    cases op <;> decide

end ComplexFormula
