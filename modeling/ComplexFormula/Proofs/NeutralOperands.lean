import ComplexFormula.Proofs.WordModel
import ComplexFormula.BinaryOp

/-!
# Neutral operands

Which of the identities `x * 1 = x`, `x / 1 = x`, `x + 0 = x`, `x - 0 = x` and `x ^ 1 = x`
hold of the arithmetic as it rounds. On words, multiplying or dividing by one gives every word
back, infinities, zeros and NaNs included (`Word.mul_one`, `Word.div_one`). Adding or
subtracting a zero gives back every word but `-0.0`, since `-0.0 + 0.0` is `0.0`. The lemmas
state it for plain words, finite and not `-0.0` (`Word.isPlain`), which is what the complex
identities need: a product with a zero is a zero only when the other factor is finite
(`Word.mul_beq_zero`).

Complex products and quotients mix the parts: `(a + bi) * (1 + 0i)` computes `a * 1 - b * 0`,
which is NaN when `b` is infinite. So the complex identities hold for plain numbers, both parts
plain (`ComplexFloat.isPlain`), and a one or zero is any constant equal to it as numbers, as
folding tests it (`ComplexFloat.isOne`, `ComplexFloat.isZero`). Raising to a one is the first
power, exact for every base (`BinaryOp.power_of_isOne`).
-/

open Float.Model (Format UnpackedFloat)
open Float.Model.UnpackedFloat

namespace ComplexFormula

namespace Binary64.Word

/-! ## Multiplying and dividing by one -/

theorem sign_mul_positive (s : UnpackedFloat.Sign) : s * .positive = s := by
  cases s <;> rfl

theorem positive_mul_sign (s : UnpackedFloat.Sign) : .positive * s = s := by
  cases s <;> rfl

theorem sign_div_positive (s : UnpackedFloat.Sign) : s / .positive = s := by
  cases s <;> rfl

/-- Multiplying a word by one gives the word back, infinities, zeros and NaNs included. -/
theorem mul_one (x : Word) : x * 1 = x := by
  refine map₂_eq_left (fun _ _ => rfl) rfl fun number => ?_
  rw [unpacked_one]
  cases shape : x.unpacked with
  | notANumber => rw [isNaN_eq, shape] at number; cases number
  | infinity s => cases s <;> rfl
  | zero s => cases s <;> rfl
  | finite s m e positive =>
    show roundWithAccuracy Format.binary64 (s * .positive) (m * 2 ^ 52) (e + -52) .exact = _
    rw [sign_mul_positive, show e + -52 = e - ((52 : Nat) : Int) by omega]
    exact roundWithAccuracy_scaled _ s positive (targetExponent_unpack shape) 52

/-- Multiplying one by a word gives the word. -/
theorem one_mul (x : Word) : 1 * x = x := by
  show map₂ Float.mul 1 x = x
  refine map₂_eq_right (fun _ _ => rfl) rfl fun number => ?_
  rw [unpacked_one]
  cases shape : x.unpacked with
  | notANumber => rw [isNaN_eq, shape] at number; cases number
  | infinity s => cases s <;> rfl
  | zero s => cases s <;> rfl
  | finite s m e positive =>
    show roundWithAccuracy Format.binary64 (.positive * s) (2 ^ 52 * m) (-52 + e) .exact = _
    rw [positive_mul_sign, Nat.mul_comm, show -52 + e = e - ((52 : Nat) : Int) by omega]
    exact roundWithAccuracy_scaled _ s positive (targetExponent_unpack shape) 52

/-- Dividing a word by one gives the word back. -/
theorem div_one (x : Word) : x / 1 = x := by
  refine map₂_eq_left (fun _ _ => rfl) rfl fun number => ?_
  rw [unpacked_one]
  cases shape : x.unpacked with
  | notANumber => rw [isNaN_eq, shape] at number; cases number
  | infinity s => cases s <;> rfl
  | zero s => cases s <;> rfl
  | finite s m e positive =>
    obtain ⟨k, quotient⟩ := divCore_by_one (targetExponent_unpack shape)
    simp only [UnpackedFloat.div, quotient, sign_div_positive]
    exact roundWithAccuracy_scaled _ s positive (targetExponent_unpack shape) k

/-! ## Zeros and plain words -/

/-- The zero of a sign: `0.0`, or `-0.0`, whose word is the sign bit alone. -/
def signedZero : UnpackedFloat.Sign → Word
  | .positive => 0
  | .negative => ⟨signMask⟩

theorem unpacked_signedZero (s : UnpackedFloat.Sign) : (signedZero s).unpacked = .zero s := by
  cases s <;> rfl

theorem signedZero_beq_zero (s : UnpackedFloat.Sign) : (signedZero s == 0) = true := by
  cases s <;> rfl

/-- A finite word (a zero included) that is not `-0.0`. -/
def isPlain (w : Word) : Bool := w.isFinite && w.bits != signMask

theorem bits_eq_signMask_iff {w : Word} : w.bits = signMask ↔ w.unpacked = .zero .negative := by
  constructor
  · intro sign
    show unpack Format.binary64 w.bits.toBitVec = _
    rw [sign]
    rfl
  · intro negative
    have same : w = signedZero .negative :=
      eq_of_unpacked (by rw [negative]; rfl) (by rw [negative, unpacked_signedZero])
    rw [same]
    rfl

/-- The unpacked forms of a finite word: a zero or a finite nonzero number. -/
theorem unpacked_of_isFinite {w : Word} (finite : w.isFinite = true) :
    (∃ s, w.unpacked = .zero s) ∨ ∃ s m e positive, w.unpacked = .finite s m e positive := by
  rw [isFinite_eq] at finite
  revert finite
  cases w.unpacked with
  | notANumber => simp [UnpackedFloat.isFinite]
  | infinity s => simp [UnpackedFloat.isFinite]
  | zero s => exact fun _ => Or.inl ⟨s, rfl⟩
  | finite s m e positive => exact fun _ => Or.inr ⟨s, m, e, positive, rfl⟩

/-- The unpacked forms of a plain word: `0.0` or a finite nonzero number. -/
theorem unpacked_of_isPlain {w : Word} (plain : w.isPlain = true) :
    w.unpacked = .zero .positive ∨ ∃ s m e positive, w.unpacked = .finite s m e positive := by
  simp only [isPlain, Bool.and_eq_true, bne_iff_ne, ne_eq] at plain
  obtain ⟨finite, notNegative⟩ := plain
  rcases unpacked_of_isFinite finite with ⟨s, zero⟩ | nonzero
  · cases s with
    | positive => exact Or.inl zero
    | negative => exact (notNegative (bits_eq_signMask_iff.mpr zero)).elim
  · exact Or.inr nonzero

theorem isFinite_of_isPlain {w : Word} (plain : w.isPlain = true) : w.isFinite = true := by
  simp only [isPlain, Bool.and_eq_true] at plain
  exact plain.1

/-- A word equals zero as a number exactly when it is a zero of either sign. -/
theorem beq_zero_iff {w : Word} : (w == 0) = true ↔ ∃ s, w.unpacked = .zero s := by
  rw [beq_eq, unpacked_zero]
  cases w.unpacked with
  | notANumber => simp [UnpackedFloat.beq, UnpackedFloat.compare]
  | infinity s => cases s <;> simp [UnpackedFloat.beq, UnpackedFloat.compare]
  | zero s => simp [UnpackedFloat.beq, UnpackedFloat.compare]
  | finite s m e positive => cases s <;> simp [UnpackedFloat.beq, UnpackedFloat.compare]

theorem isNaN_of_beq_zero {w : Word} (zero : (w == 0) = true) : w.isNaN = false := by
  obtain ⟨s, shape⟩ := beq_zero_iff.mp zero
  rw [isNaN_eq, shape]
  rfl

theorem isFinite_of_beq_zero {w : Word} (zero : (w == 0) = true) : w.isFinite = true := by
  obtain ⟨s, shape⟩ := beq_zero_iff.mp zero
  rw [isFinite_eq, shape]
  rfl

/-- A word equals one as a number exactly when it is the word of one. -/
theorem beq_one_iff {w : Word} : (w == 1) = true ↔ w = 1 := by
  constructor
  · intro one
    rw [beq_eq, unpacked_one] at one
    cases shape : w.unpacked with
    | notANumber => rw [shape] at one; simp [UnpackedFloat.beq, UnpackedFloat.compare] at one
    | infinity s =>
      rw [shape] at one
      cases s <;> simp [UnpackedFloat.beq, UnpackedFloat.compare] at one
    | zero s => rw [shape] at one; simp [UnpackedFloat.beq, UnpackedFloat.compare] at one
    | finite s m e positive =>
      rw [shape] at one
      cases s with
      | negative => simp [UnpackedFloat.beq, UnpackedFloat.compare] at one
      | positive =>
        -- equal exponents and equal mantissas
        simp [UnpackedFloat.beq, UnpackedFloat.compare, Ordering.then_eq_eq] at one
        obtain ⟨rfl, rfl⟩ := one
        exact eq_of_unpacked (by rw [shape]; rfl) (by rw [shape]; rfl)
  · rintro rfl
    rfl

/-! ## Adding and subtracting a zero -/

/-- An operation on unpacked forms that keeps `0.0` and every finite nonzero number beside a
zero of either sign keeps every plain word beside a word equal to zero. -/
theorem keeps_isPlain_beside_zero {g : UnpackedFloat → UnpackedFloat → UnpackedFloat}
    {x z : Word} (plain : x.isPlain = true) (zero : (z == 0) = true)
    (keepsZero : ∀ s, g (.zero .positive) (.zero s) = .zero .positive)
    (keepsFinite : ∀ s s' m e positive, g (.finite s m e positive) (.zero s') =
      .finite s m e positive) :
    g x.unpacked z.unpacked = x.unpacked := by
  obtain ⟨s, zeroShape⟩ := beq_zero_iff.mp zero
  rw [zeroShape]
  rcases unpacked_of_isPlain plain with shape | ⟨_, _, _, _, shape⟩ <;> rw [shape]
  · exact keepsZero s
  · exact keepsFinite ..

/-- Adding a zero of either sign to a plain word gives the word back. -/
theorem add_zero_of_isPlain {x z : Word} (plain : x.isPlain = true) (zero : (z == 0) = true) :
    x + z = x := by
  show map₂ Float.add x z = x
  exact map₂_eq_left (fun _ _ => rfl) (isNaN_of_beq_zero zero) fun _ =>
    keeps_isPlain_beside_zero plain zero (fun s => by cases s <;> rfl) fun _ _ _ _ _ => rfl

/-- `-0.0 + 0.0` is `0.0`: a plain word is what adding a zero gives back. -/
example : (signedZero .negative + 0).bits = 0 := by decide +kernel

/-- Adding a plain word to a zero of either sign gives the word. -/
theorem zero_add_of_isPlain {x z : Word} (plain : x.isPlain = true) (zero : (z == 0) = true) :
    z + x = x := by
  show map₂ Float.add z x = x
  exact map₂_eq_right (fun _ _ => rfl) (isNaN_of_beq_zero zero) fun _ =>
    keeps_isPlain_beside_zero (g := fun u v => UnpackedFloat.add Format.binary64 v u) plain zero
      (fun s => by cases s <;> rfl) fun _ _ _ _ _ => rfl

/-- Subtracting a zero of either sign from a plain word gives the word back. -/
theorem sub_zero_of_isPlain {x z : Word} (plain : x.isPlain = true) (zero : (z == 0) = true) :
    x - z = x := by
  show map₂ Float.sub x z = x
  exact map₂_eq_left (fun _ _ => rfl) (isNaN_of_beq_zero zero) fun _ =>
    keeps_isPlain_beside_zero plain zero (fun s => by cases s <;> rfl) fun _ _ _ _ _ => rfl

/-- A product of a finite word and a zero, in either order, is a zero. -/
theorem mul_beq_zero {x z : Word} (finite : x.isFinite = true) (zero : (z == 0) = true) :
    (x * z == 0) = true ∧ (z * x == 0) = true := by
  obtain ⟨s, zeroShape⟩ := beq_zero_iff.mp zero
  have zeroNumber := unpacked_isNaN (isNaN_of_beq_zero zero)
  have number : x.unpacked.isNaN = false := by
    rcases unpacked_of_isFinite finite with ⟨_, shape⟩ | ⟨_, _, _, _, shape⟩ <;> rw [shape] <;> rfl
  -- both products unpack to the zero of the product of the signs
  obtain ⟨t, product, product'⟩ : ∃ t, UnpackedFloat.mul Format.binary64 x.unpacked z.unpacked =
      .zero t ∧ UnpackedFloat.mul Format.binary64 z.unpacked x.unpacked = .zero t := by
    rw [zeroShape]
    rcases unpacked_of_isFinite finite with ⟨s', shape⟩ | ⟨s', _, _, _, shape⟩ <;> rw [shape]
    · exact ⟨s' * s, rfl, by cases s <;> cases s' <;> rfl⟩
    · exact ⟨s' * s, rfl, by cases s <;> cases s' <;> rfl⟩
  have signed := unpacked_signedZero t
  have signedNumber : (signedZero t).unpacked.isNaN = false := by rw [signed]; rfl
  rw [mul_of_unpacked number zeroNumber signedNumber (product.trans signed.symm),
    mul_of_unpacked zeroNumber number signedNumber (product'.trans signed.symm)]
  exact ⟨signedZero_beq_zero t, signedZero_beq_zero t⟩

end Binary64.Word

open Binary64 (Word)

/-! ## Complex numbers -/

namespace ComplexFloat

/-- Both parts plain: finite, and neither of them `-0.0`. -/
def isPlain (z : ComplexFloat) : Bool := z.re.isPlain && z.im.isPlain

theorem isPlain_iff {z : ComplexFloat} :
    z.isPlain = true ↔ z.re.isPlain = true ∧ z.im.isPlain = true := by
  simp only [isPlain, Bool.and_eq_true]

theorem isZero_iff {c : ComplexFloat} :
    c.isZero = true ↔ (c.re == 0) = true ∧ (c.im == 0) = true := by
  simp only [isZero, Bool.and_eq_true]

theorem isOne_iff {c : ComplexFloat} : c.isOne = true ↔ c.re = 1 ∧ (c.im == 0) = true := by
  simp only [isOne, Bool.and_eq_true, Word.beq_one_iff]

/-- Adding a zero to a plain number gives it back. -/
theorem add_zero_of_isPlain {z c : ComplexFloat} (plain : z.isPlain = true)
    (zero : c.isZero = true) : z + c = z := by
  obtain ⟨rePlain, imPlain⟩ := isPlain_iff.mp plain
  obtain ⟨reZero, imZero⟩ := isZero_iff.mp zero
  show (⟨z.re + c.re, z.im + c.im⟩ : ComplexFloat) = z
  rw [Word.add_zero_of_isPlain rePlain reZero, Word.add_zero_of_isPlain imPlain imZero]

/-- Adding a plain number to a zero gives the number. -/
theorem zero_add_of_isPlain {z c : ComplexFloat} (plain : z.isPlain = true)
    (zero : c.isZero = true) : c + z = z := by
  obtain ⟨rePlain, imPlain⟩ := isPlain_iff.mp plain
  obtain ⟨reZero, imZero⟩ := isZero_iff.mp zero
  show (⟨c.re + z.re, c.im + z.im⟩ : ComplexFloat) = z
  rw [Word.zero_add_of_isPlain rePlain reZero, Word.zero_add_of_isPlain imPlain imZero]

/-- Subtracting a zero from a plain number gives it back. -/
theorem sub_zero_of_isPlain {z c : ComplexFloat} (plain : z.isPlain = true)
    (zero : c.isZero = true) : z - c = z := by
  obtain ⟨rePlain, imPlain⟩ := isPlain_iff.mp plain
  obtain ⟨reZero, imZero⟩ := isZero_iff.mp zero
  show (⟨z.re - c.re, z.im - c.im⟩ : ComplexFloat) = z
  rw [Word.sub_zero_of_isPlain rePlain reZero, Word.sub_zero_of_isPlain imPlain imZero]

/-- Multiplying a plain number by a one gives it back: the cross terms with the one's
imaginary zero are zeros, which the parts absorb. -/
theorem mul_one_of_isPlain {z c : ComplexFloat} (plain : z.isPlain = true)
    (one : c.isOne = true) : z * c = z := by
  obtain ⟨rePlain, imPlain⟩ := isPlain_iff.mp plain
  obtain ⟨reOne, imZero⟩ := isOne_iff.mp one
  have reCross := (Word.mul_beq_zero (Word.isFinite_of_isPlain rePlain) imZero).1
  have imCross := (Word.mul_beq_zero (Word.isFinite_of_isPlain imPlain) imZero).1
  rw [mul_def, reOne, Word.mul_one, Word.mul_one, Word.sub_zero_of_isPlain rePlain imCross,
    Word.zero_add_of_isPlain imPlain reCross]

/-- Multiplying a one by a plain number gives the number. -/
theorem one_mul_of_isPlain {z c : ComplexFloat} (plain : z.isPlain = true)
    (one : c.isOne = true) : c * z = z := by
  obtain ⟨rePlain, imPlain⟩ := isPlain_iff.mp plain
  obtain ⟨reOne, imZero⟩ := isOne_iff.mp one
  have reCross := (Word.mul_beq_zero (Word.isFinite_of_isPlain rePlain) imZero).2
  have imCross := (Word.mul_beq_zero (Word.isFinite_of_isPlain imPlain) imZero).2
  rw [mul_def, reOne, Word.one_mul, Word.one_mul, Word.sub_zero_of_isPlain rePlain imCross,
    Word.add_zero_of_isPlain imPlain reCross]

/-- A one's squared modulus is exactly one. -/
theorem normSqr_of_isOne {c : ComplexFloat} (one : c.isOne = true) : c.normSqr = 1 := by
  obtain ⟨reOne, imZero⟩ := isOne_iff.mp one
  have square := (Word.mul_beq_zero (Word.isFinite_of_beq_zero imZero) imZero).1
  rw [normSqr, reOne, Word.mul_one, Word.add_zero_of_isPlain rfl square]

/-- Dividing a plain number by a one gives it back: the divisor's squared modulus is exactly
one, and the cross terms are zeros. -/
theorem div_one_of_isPlain {z c : ComplexFloat} (plain : z.isPlain = true)
    (one : c.isOne = true) : z / c = z := by
  obtain ⟨rePlain, imPlain⟩ := isPlain_iff.mp plain
  obtain ⟨reOne, imZero⟩ := isOne_iff.mp one
  have reCross := (Word.mul_beq_zero (Word.isFinite_of_isPlain rePlain) imZero).1
  have imCross := (Word.mul_beq_zero (Word.isFinite_of_isPlain imPlain) imZero).1
  show (⟨(z.re * c.re + z.im * c.im) / c.normSqr, (z.im * c.re - z.re * c.im) / c.normSqr⟩ :
    ComplexFloat) = z
  rw [normSqr_of_isOne one, reOne, Word.mul_one, Word.mul_one,
    Word.add_zero_of_isPlain rePlain imCross, Word.sub_zero_of_isPlain imPlain reCross,
    Word.div_one, Word.div_one]

/-- The first power of any number is the number itself. -/
theorem powInt_one (z : ComplexFloat) : z.powInt 1 = z := by
  simp [powInt, powNat, squareOutTwos]

end ComplexFloat

namespace BinaryOp

/-- An exponent equal to one is the whole exponent one. -/
theorem wholeExponent?_of_isOne {c : ComplexFloat} (one : c.isOne = true) :
    wholeExponent? c = some 1 := by
  obtain ⟨reOne, imZero⟩ := ComplexFloat.isOne_iff.mp one
  have whole : Binary64.toInt? (1 : Word).toFloat = some 1 := by decide +kernel
  simp [wholeExponent?, imZero, reOne, whole, int32Min, int32Max]

/-- Raising to a one gives the base back, whatever the base. -/
theorem power_of_isOne (z : ComplexFloat) {c : ComplexFloat} (one : c.isOne = true) :
    power z c = z := by
  rw [power, wholeExponent?_of_isOne one]
  exact ComplexFloat.powInt_one z

end BinaryOp

end ComplexFormula
