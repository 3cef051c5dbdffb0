/-!
# Binary64 words

A `Float` is an IEEE 754 binary64 word: a sign bit, an 11-bit biased exponent and a 52-bit
fraction. This module reads those fields off the bits and writes them back, and gives the
exact value of a finite word as a natural significand times a power of two. Everything here
is computed from `Float.toBits` in exact arithmetic, so it can be evaluated by the kernel and
reasoned about, unlike the floating point operations themselves.
-/

namespace ComplexFormula.Binary64

/-- The three fields of a binary64 word. -/
structure Fields where
  negative : Bool
  biased : Nat
  fraction : Nat
deriving Repr, DecidableEq

/-- Splits the bits of a word into sign, biased exponent and fraction. -/
def fields (x : Float) : Fields :=
  let bits := x.toBits.toNat
  { negative := bits / Nat.pow 2 63 % 2 == 1
    biased := bits / Nat.pow 2 52 % Nat.pow 2 11
    fraction := bits % Nat.pow 2 52 }

/-- Assembles a word from its fields; a field too wide for its place is cut to its width. -/
def Fields.toFloat (f : Fields) : Float :=
  Float.ofBits (UInt64.ofNat
    ((if f.negative then Nat.pow 2 63 else 0) + f.biased % Nat.pow 2 11 * Nat.pow 2 52 +
      f.fraction % Nat.pow 2 52))

/-- The largest biased exponent marks infinities (fraction zero) and NaNs. -/
def Fields.isFinite (f : Fields) : Bool := f.biased < 2047

/-- The significand of a finite word: the fraction with the hidden bit of a normal word. -/
def Fields.significand (f : Fields) : Nat :=
  if f.biased = 0 then f.fraction else f.fraction + Nat.pow 2 52

/-- The power of two by which the significand is scaled: subnormal words share the
exponent of the smallest normal binade. -/
def Fields.exponent (f : Fields) : Int :=
  if f.biased = 0 then -1074 else (f.biased : Int) - 1075

/-- The magnitude of a finite word `x` is `m * 2 ^ e` for the pair `(m, e)` returned;
`none` for infinities and NaNs. -/
def magnitude? (x : Float) : Option (Nat × Int) :=
  let f := fields x
  if f.isFinite then some (f.significand, f.exponent) else none

/-- Whether the sign bit is clear (true also for `+0.0` and for a NaN whose sign bit is clear). -/
def isSignPositive (x : Float) : Bool := !(fields x).negative

/-- The positive infinity. -/
def infinity : Float := Float.ofBits 0x7FF0000000000000

/-- The quiet NaN with clear sign bit. -/
def nan : Float := Float.ofBits 0x7FF8000000000000

/-- Negative zero. -/
def negZero : Float := Float.ofBits 0x8000000000000000

/-- The number `m * 2 ^ e` as an integer when that number is one. -/
def scaledInt? (m : Nat) (e : Int) : Option Nat :=
  if 0 ≤ e then some (m * Nat.pow 2 e.toNat)
  else if m % Nat.pow 2 e.natAbs = 0 then some (m / Nat.pow 2 e.natAbs) else none

/-- The integer value of a finite word that is a whole number, with its sign; `none` for
fractions, infinities and NaNs. Both zeros give `0`. -/
def toInt? (x : Float) : Option Int :=
  match magnitude? x with
  | none => none
  | some (m, e) =>
    (scaledInt? m e).map fun n => if (fields x).negative then -(n : Int) else n

theorem scaledInt?_of_nonneg (m : Nat) (e : Int) (h : 0 ≤ e) :
    scaledInt? m e = some (m * Nat.pow 2 e.toNat) := by
  simp [scaledInt?, h]

end ComplexFormula.Binary64
