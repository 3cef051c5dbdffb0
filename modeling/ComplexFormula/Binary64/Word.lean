import ComplexFormula.Binary64.Hypot

/-!
# Binary64 words with signed NaNs

A `Float` stands for a binary64 number but has a single NaN: converting a NaN to bits always
gives the same word. The numbers of this library are `Word`s, the 64 bits themselves, so a
NaN keeps its sign bit; the complex square root looks at that bit, and it is observable in
the results. On numbers (everything but NaN) a word operation is the `Float` operation. The
NaN rules are those of x86-64 floating point arithmetic and of the system's mathematical
library:

* an operation with a NaN operand returns that NaN, the first one when both are NaN;
* an invalid operation on numbers (`∞ - ∞`, `0 * ∞`, `0 / 0`, `∞ / ∞`, the square root or
  logarithm of a number below zero, the sine or cosine of an infinity) returns the default
  NaN, whose sign bit is set;
* negation flips the sign bit and the absolute value clears it, of a NaN too.

The NaN read from the text `nan` has a clear sign bit, and `-nan` a set one; so `∞ - ∞` is a
NaN with the sign bit of `-nan`.
-/

namespace ComplexFormula.Binary64

/-- A binary64 word: the sign bit, 11 exponent bits and 52 fraction bits of a number. -/
structure Word where
  bits : UInt64

namespace Word

/-- The sign bit. -/
def signMask : UInt64 := 0x8000000000000000

/-- The word of a `Float` (a NaN becomes the NaN with clear sign bit). -/
def ofFloat (x : Float) : Word := ⟨x.toBits⟩

/-- The `Float` of a word; every NaN word gives the one NaN of `Float`. -/
def toFloat (w : Word) : Float := Float.ofBits w.bits

/-- Whether the word is a NaN. -/
def isNaN (w : Word) : Bool := w.toFloat.isNaN

/-- Whether the word is an infinity. -/
def isInf (w : Word) : Bool := w.toFloat.isInf

/-- Whether the word is a finite number. -/
def isFinite (w : Word) : Bool := w.toFloat.isFinite

/-- Whether the sign bit is set: true for `-0.0`, negative numbers and NaNs read as `-nan`. -/
def isSignNegative (w : Word) : Bool := w.bits &&& signMask != 0

/-- Whether the sign bit is clear. -/
def isSignPositive (w : Word) : Bool := !w.isSignNegative

/-- The quiet NaN with clear sign bit, the NaN of the text `nan`. -/
def nan : Word := ⟨0x7FF8000000000000⟩

/-- The NaN an invalid operation on numbers returns: quiet, with the sign bit set. -/
def defaultNaN : Word := ⟨0xFFF8000000000000⟩

/-- The positive infinity. -/
def infinity : Word := ⟨0x7FF0000000000000⟩

/-- Negation: the sign bit flipped. -/
def neg (w : Word) : Word := ⟨w.bits ^^^ signMask⟩

/-- Absolute value: the sign bit cleared. -/
def abs (w : Word) : Word := ⟨w.bits &&& ~~~signMask⟩

/-- The word of the result of an operation whose operands were numbers: a NaN result is the
default NaN. -/
def ofResult (x : Float) : Word := if x.isNaN then defaultNaN else ofFloat x

/-- A function of one number applied to a word: a NaN is returned as it is. -/
def map (f : Float → Float) (w : Word) : Word :=
  if w.isNaN then w else ofResult (f w.toFloat)

/-- An operation on two numbers applied to words: a NaN operand is returned, the first one
when both are NaN. -/
def map₂ (f : Float → Float → Float) (a b : Word) : Word :=
  if a.isNaN then a else if b.isNaN then b else ofResult (f a.toFloat b.toFloat)

/-- Sum. -/
def add : Word → Word → Word := map₂ Float.add

/-- Difference. -/
def sub : Word → Word → Word := map₂ Float.sub

/-- Product. -/
def mul : Word → Word → Word := map₂ Float.mul

/-- Quotient. -/
def div : Word → Word → Word := map₂ Float.div

instance : Add Word := ⟨add⟩
instance : Sub Word := ⟨sub⟩
instance : Mul Word := ⟨mul⟩
instance : Div Word := ⟨div⟩
instance : Neg Word := ⟨neg⟩
instance {n : Nat} : OfNat Word n := ⟨ofFloat (OfNat.ofNat n)⟩

/-- Numeric equality: `-0.0` equals `0.0` and a NaN equals nothing. -/
instance : BEq Word := ⟨fun a b => a.toFloat == b.toFloat⟩

instance : LT Word := ⟨fun a b => a.toFloat < b.toFloat⟩
instance : LE Word := ⟨fun a b => a.toFloat ≤ b.toFloat⟩

instance (a b : Word) : Decidable (a < b) := inferInstanceAs (Decidable (a.toFloat < b.toFloat))
instance (a b : Word) : Decidable (a ≤ b) := inferInstanceAs (Decidable (a.toFloat ≤ b.toFloat))

/-- Square root. -/
def sqrt : Word → Word := map Float.sqrt

/-- Sine. -/
def sin : Word → Word := map Float.sin

/-- Cosine. -/
def cos : Word → Word := map Float.cos

/-- Exponential. -/
def exp : Word → Word := map Float.exp

/-- Natural logarithm. -/
def log : Word → Word := map Float.log

/-- Hyperbolic sine. -/
def sinh : Word → Word := map Float.sinh

/-- Hyperbolic cosine. -/
def cosh : Word → Word := map Float.cosh

/-- The angle of the point `(x, y)`, in `[-π, π]`. A NaN `x` is returned before a NaN `y`. -/
def atan2 (y x : Word) : Word :=
  if x.isNaN then x else if y.isNaN then y else ofResult (Float.atan2 y.toFloat x.toFloat)

/-- The length of the vector `(x, y)`: infinite when either part is, even beside a NaN;
otherwise a NaN part is returned, `x` first. -/
def hypot (x y : Word) : Word :=
  if x.isInf || y.isInf then infinity
  else if x.isNaN then x
  else if y.isNaN then y
  else ofFloat (Binary64.hypot x.toFloat y.toFloat)

theorem neg_bits (w : Word) : (-w).bits = w.bits ^^^ signMask := rfl

theorem map₂_of_isNaN (f : Float → Float → Float) (a b : Word) (h : a.isNaN = true) :
    map₂ f a b = a := by
  simp [map₂, h]

end Word

end ComplexFormula.Binary64
