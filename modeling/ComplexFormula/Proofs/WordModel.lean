import Mathlib
import ComplexFormula.Binary64.Word

/-!
# Words through the logical model of floats

`Float` operations are defined by a logical model: a word is unpacked into a sign, a natural
mantissa and an exponent (`UnpackedFloat`), the operation is computed exactly and rounded, and
the result is packed back. This module connects words to that model. Unpacking a word that is
no NaN and packing it again gives the same bits (`Binary64.pack_unpack`), so a word operation
whose unpacked result is the unpacked form of a number `r` returns the word `r` itself
(`Word.map₂_of_unpacked`). Every finite number unpacked from a word is in canonical form: its
exponent is the one rounding gives it (`Binary64.targetExponent_unpack`), so rounding that
number scaled by a power of two gives it back exactly (`Binary64.roundWithAccuracy_scaled`).
-/

open Float.Model (Format UnpackedFloat totalExponent)
open Float.Model.UnpackedFloat

namespace ComplexFormula.Binary64

/-! ## Packing and unpacking -/

theorem toNat_append_eq_add {m n : Nat} (x : BitVec m) (y : BitVec n) :
    (x ++ y).toNat = x.toNat * 2 ^ n + y.toNat := by
  rw [BitVec.toNat_append, ← Nat.shiftLeft_add_eq_or_of_lt y.isLt, Nat.shiftLeft_eq]

theorem toNat_packComponents (s : UnpackedFloat.Sign) (e : BitVec 11) (m : BitVec 52) :
    (packComponents Format.binary64 s e m).toNat =
      s.toBitVec.toNat * 2 ^ 63 + e.toNat * 2 ^ 52 + m.toNat := by
  unfold packComponents
  rw [toNat_append_eq_add, toNat_append_eq_add]
  ring

theorem toNat_unpackMantissa (v : BitVec 64) :
    (@unpackMantissa Format.binary64 v).toNat = v.toNat % 2 ^ 52 := by
  simp [unpackMantissa, Nat.shiftRight_eq_div_pow]

theorem toNat_unpackExponent (v : BitVec 64) :
    (@unpackExponent Format.binary64 v).toNat = v.toNat / 2 ^ 52 % 2 ^ 11 := by
  simp [unpackExponent, Nat.shiftRight_eq_div_pow]

theorem toNat_unpackSign (v : BitVec 64) :
    (@unpackSign Format.binary64 v).toNat = v.toNat / 2 ^ 63 := by
  have := v.isLt
  simp [unpackSign, Nat.shiftRight_eq_div_pow]
  omega

theorem toBitVec_ofBitVec (b : BitVec 1) : (UnpackedFloat.Sign.ofBitVec b).toBitVec = b := by
  unfold UnpackedFloat.Sign.ofBitVec
  split
  · next zero => rw [zero]; rfl
  · next nonzero =>
    have : b = 1#1 := by
      have := b.isLt
      apply BitVec.eq_of_toNat_eq
      have : b.toNat ≠ 0 := fun h => nonzero (BitVec.eq_of_toNat_eq h)
      simp; omega
    rw [this]; rfl

/-- Unpacking the bits of a number, anything but a NaN, and packing them again gives the same
bits. The proof follows `unpack` through its four kinds of words and reads each field back
from the bits. -/
theorem pack_unpack {v : BitVec 64} (notNaN : (unpack Format.binary64 v).isNaN = false) :
    pack Format.binary64 (unpack Format.binary64 v) = v := by
  apply BitVec.eq_of_toNat_eq
  have bound := v.isLt
  have whole : v.toNat = v.toNat / 2 ^ 63 * 2 ^ 63 + v.toNat / 2 ^ 52 % 2 ^ 11 * 2 ^ 52 +
      v.toNat % 2 ^ 52 := by omega
  have exponentNat := toNat_unpackExponent v
  have mantissaNat := toNat_unpackMantissa v
  unfold unpack
  dsimp only
  split
  · next allOnes =>
    have top : v.toNat / 2 ^ 52 % 2 ^ 11 = 2047 := by
      rw [← exponentNat, allOnes]; rfl
    split
    · next noMantissa =>
      -- an infinity
      have low : v.toNat % 2 ^ 52 = 0 := by
        rw [← mantissaNat, noMantissa]; rfl
      simp only [pack, packedInfinity, toNat_packComponents, toBitVec_ofBitVec, toNat_unpackSign]
      simp
      omega
    · next nonzero =>
      have nan : unpack Format.binary64 v = notANumber := by
        unfold unpack
        dsimp only
        rw [if_pos allOnes, if_neg nonzero]
      rw [nan] at notNaN
      cases notNaN
  · next notAllOnes =>
    split
    · next zeroExponent =>
      have bottom : v.toNat / 2 ^ 52 % 2 ^ 11 = 0 := by
        rw [← exponentNat, zeroExponent]; rfl
      split
      · next noMantissa =>
        -- a zero
        have low : v.toNat % 2 ^ 52 = 0 := by
          rw [← mantissaNat, noMantissa]; rfl
        simp only [pack, packedZero, toNat_packComponents, toBitVec_ofBitVec, toNat_unpackSign]
        simp
        omega
      · next someMantissa =>
        -- a subnormal number: packed with the exponent field zero again
        have positive : (@unpackMantissa Format.binary64 v).toNat ≠ 0 := fun zero =>
          someMantissa (BitVec.eq_of_toNat_eq zero)
        have biased : (((@unpackExponent Format.binary64 v).toNat : Int) -
            ((Format.binary64.exponentBias : Int) + ((52 : Nat) : Int)) + 1 +
            (Format.binary64.exponentBias : Int) + ((52 : Nat) : Int)).toNat = 1 := by
          rw [exponentNat, bottom]
          rfl
        have short : (@unpackMantissa Format.binary64 v).toNat.log2 < 52 :=
          (Nat.log2_lt positive).mpr (by rw [mantissaNat]; omega)
        unfold pack
        dsimp only
        rw [biased, if_neg (by decide),
          if_neg (by rw [show Format.binary64.mantissaBits = 53 from rfl]; omega),
          toNat_packComponents, toBitVec_ofBitVec, toNat_unpackSign]
        simp
        omega
    · next notZero =>
      -- a normal number: the implicit bit goes back out of the mantissa
      have inside : v.toNat / 2 ^ 52 % 2 ^ 11 ≠ 2047 := fun top =>
        notAllOnes (BitVec.eq_of_toNat_eq (by rw [exponentNat, top]; rfl))
      have above : v.toNat / 2 ^ 52 % 2 ^ 11 ≠ 0 := fun bottom =>
        notZero (BitVec.eq_of_toNat_eq (by rw [exponentNat, bottom]; rfl))
      have mantissa : (1#1 ++ @unpackMantissa Format.binary64 v).toNat =
          2 ^ 52 + v.toNat % 2 ^ 52 := by
        rw [toNat_append_eq_add, mantissaNat]
        rfl
      have log : (1#1 ++ @unpackMantissa Format.binary64 v).toNat.log2 = 52 := by
        rw [Nat.log2_eq_iff (by omega), mantissa]
        omega
      have biased : (((@unpackExponent Format.binary64 v).toNat : Int) -
          ((Format.binary64.exponentBias : Int) + ((52 : Nat) : Int)) +
          (Format.binary64.exponentBias : Int) + ((52 : Nat) : Int)).toNat =
            v.toNat / 2 ^ 52 % 2 ^ 11 := by
        rw [exponentNat]
        omega
      unfold pack
      dsimp only
      rw [biased, log, if_neg (by omega), if_pos (by rfl), toNat_packComponents,
        toBitVec_ofBitVec, toNat_unpackSign, mantissa]
      simp
      omega

/-! ## Exact rounding -/

theorem binary64_targetExponent (t : Int) :
    Format.binary64.targetExponent t = max (t - 53) (-1074) := rfl

/-- Every finite number unpacked from a word is in canonical form: its exponent is the one
rounding gives a number with its leading bit. -/
theorem targetExponent_unpack {v : BitVec 64} {s : UnpackedFloat.Sign} {m : Nat} {e : Int}
    {positive : 0 < m} (finite : unpack Format.binary64 v = .finite s m e positive) :
    Format.binary64.targetExponent (totalExponent m e) = e := by
  have exponentNat := toNat_unpackExponent v
  have mantissaNat := toNat_unpackMantissa v
  rw [binary64_targetExponent]
  unfold totalExponent
  unfold unpack at finite
  dsimp only at finite
  split at finite
  · split at finite <;> cases finite
  · next notAllOnes =>
    split at finite
    · next zeroExponent =>
      split at finite
      · cases finite
      · -- a subnormal number: the least exponent, fewer than 53 mantissa bits
        simp only [UnpackedFloat.finite.injEq] at finite
        obtain ⟨-, rfl, rfl⟩ := finite
        have short : (@unpackMantissa Format.binary64 v).toNat.log2 < 52 :=
          (Nat.log2_lt positive.ne').mpr (by rw [mantissaNat]; omega)
        have bottom : (@unpackExponent Format.binary64 v).toNat = 0 := by
          rw [zeroExponent]; rfl
        rw [bottom]
        change max (_ + 1 + (((0 : Nat) : Int) - (1023 + 52) + 1) - 53) (-1074) =
          ((0 : Nat) : Int) - (1023 + 52) + 1
        omega
    · next notZero =>
      -- a normal number: 53 mantissa bits
      simp only [UnpackedFloat.finite.injEq] at finite
      obtain ⟨-, rfl, rfl⟩ := finite
      have log : (1#1 ++ @unpackMantissa Format.binary64 v).toNat.log2 = 52 := by
        rw [Nat.log2_eq_iff positive.ne', toNat_append_eq_add, mantissaNat]
        simp
        omega
      have above : (@unpackExponent Format.binary64 v).toNat ≠ 0 := fun bottom =>
        notZero (BitVec.eq_of_toNat_eq bottom)
      rw [log]
      change max (((52 : Nat) : Int) + 1 + (_ - (1023 + 52)) - 53) (-1074) = _ - (1023 + 52)
      omega

theorem log2_mul_two_pow {m : Nat} (positive : m ≠ 0) (k : Nat) :
    (m * 2 ^ k).log2 = m.log2 + k := by
  have low := Nat.log2_self_le positive
  have high : m < 2 ^ (m.log2 + 1) := Nat.lt_log2_self
  rw [Nat.log2_eq_iff (Nat.mul_ne_zero positive (Nat.two_pow_pos k).ne'),
    show m.log2 + k + 1 = (m.log2 + 1) + k by omega, Nat.pow_add, Nat.pow_add]
  exact ⟨Nat.mul_le_mul_right _ low, Nat.mul_lt_mul_of_pos_right high (Nat.two_pow_pos k)⟩

/-- Shifting out `k` zero bits is exact: no guard or sticky bit is set. -/
theorem shiftRight_scaled (m k : Nat) :
    (⟨m * 2 ^ k, false, false⟩ : ExtendedMantissa) >>> k = ⟨m, false, false⟩ := by
  induction k generalizing m with
  | zero => simp; rfl
  | succ k inductionHypothesis =>
    show Nat.repeat ExtendedMantissa.shiftRightOne (k + 1) ⟨m * 2 ^ (k + 1), false, false⟩ = _
    rw [Nat.repeat, show m * 2 ^ (k + 1) = (2 * m) * 2 ^ k by rw [Nat.pow_succ]; ring]
    have := inductionHypothesis (2 * m)
    change Nat.repeat ExtendedMantissa.shiftRightOne k ⟨2 * m * 2 ^ k, false, false⟩ = _ at this
    rw [this]
    simp [ExtendedMantissa.shiftRightOne]

/-- Rounding an exact number in canonical form, written with `k` more zero bits, gives it back. -/
theorem roundWithAccuracy_scaled (spec : Format) (s : UnpackedFloat.Sign) {m : Nat} {e : Int}
    (positive : 0 < m) (canonical : spec.targetExponent (totalExponent m e) = e) (k : Nat) :
    roundWithAccuracy spec s (m * 2 ^ k) (e - k) .exact = .finite s m e positive := by
  have total : totalExponent (m * 2 ^ k) (e - k) = totalExponent m e := by
    unfold totalExponent
    rw [log2_mul_two_pow positive.ne' k]
    push_cast
    ring
  have unshifted : ∀ em : ExtendedMantissa, em >>> 0 = em := fun _ => rfl
  unfold roundWithAccuracy shiftToTargetExponent shiftToExponent
  simp only [total, canonical, show (e - (e - k)).toNat = k by omega,
    ExtendedMantissa.ofMantissaAndAccuracy, shiftRight_scaled, show e - ↑k + ↑k = e by omega,
    ExtendedMantissa.roundedMantissa, ExtendedMantissa.accuracy, Accuracy.roundToNearestEven,
    sub_self, Int.toNat_zero, unshifted, Int.natCast_zero, Int.add_zero, positive.ne', dite_false]

/-- Dividing a number in canonical form by one keeps its digits: the quotient is the mantissa
scaled up by a power of two at an exponent lowered by as much, with no remainder. -/
theorem divCore_by_one {m : Nat} {e : Int}
    (canonical : Format.binary64.targetExponent (totalExponent m e) = e) :
    ∃ k : Nat, divCore Format.binary64 m e (2 ^ 52) (-52) = (m * 2 ^ k, e - k, .exact) := by
  have unit : totalExponent (2 ^ 52) (-52) = 1 := by
    rw [totalExponent, Nat.log2_two_pow]
    omega
  unfold divCore
  rw [unit]
  rw [binary64_targetExponent] at canonical ⊢
  generalize target : min (e - -52) (max (totalExponent m e - 1 - 53) (-1074)) = t
  have below : t ≤ e := by omega
  refine ⟨(e - t).toNat, ?_⟩
  have shift : (e - -52 - t).toNat = (e - t).toNat + 52 := by omega
  have scaled : m <<< ((e - t).toNat + 52) = m * 2 ^ (e - t).toNat * 2 ^ 52 := by
    rw [Nat.shiftLeft_eq, Nat.pow_add, Nat.mul_assoc]
  simp only [shift, scaled, Nat.mul_div_cancel _ (Nat.two_pow_pos 52), Nat.mul_mod_left,
    accuracyOfFraction, if_pos, Prod.mk.injEq, true_and, and_true]
  omega

/-! ## Words through their unpacked form -/

namespace Word

/-- The unpacked form of a word. -/
def unpacked (w : Word) : UnpackedFloat := unpack Format.binary64 w.bits.toBitVec

theorem unpacked_of_isNaN {w : Word} (nan : w.unpacked.isNaN = true) :
    w.unpacked = .notANumber := by
  revert nan
  cases w.unpacked <;> simp [UnpackedFloat.isNaN]

/-- Reading a word as a `Float` keeps its unpacked form; a NaN word becomes the one NaN. -/
theorem toModel_unpack (w : Word) : w.toFloat.toModel.unpack = w.unpacked := by
  show unpack Format.binary64
      (UInt64.ofBitVec (pack Format.binary64 (unpack Format.binary64 w.bits.toBitVec))).toBitVec =
    w.unpacked
  rw [UInt64.toBitVec_ofBitVec]
  cases nan : w.unpacked.isNaN with
  | false => rw [pack_unpack nan]; rfl
  | true =>
    have same := unpacked_of_isNaN nan
    unfold unpacked at same ⊢
    rw [same]
    rfl

theorem isNaN_eq (w : Word) : w.isNaN = w.unpacked.isNaN := by
  show w.toFloat.toModel.unpack.isNaN = _
  rw [toModel_unpack]

theorem isFinite_eq (w : Word) : w.isFinite = w.unpacked.isFinite := by
  show w.toFloat.toModel.unpack.isFinite = _
  rw [toModel_unpack]

theorem beq_eq (x y : Word) : (x == y) = x.unpacked.beq y.unpacked := by
  show x.toFloat.toModel.unpack.beq y.toFloat.toModel.unpack = _
  rw [toModel_unpack, toModel_unpack]

theorem unpacked_isNaN {w : Word} (number : w.isNaN = false) : w.unpacked.isNaN = false := by
  rw [← isNaN_eq]
  exact number

theorem ofFloat_toFloat {w : Word} (notNaN : w.unpacked.isNaN = false) :
    ofFloat w.toFloat = w := by
  show (⟨UInt64.ofBitVec (pack Format.binary64 (unpack Format.binary64 w.bits.toBitVec))⟩ :
    Word) = w
  rw [pack_unpack notNaN]

/-- Two words with the same unpacked form, no NaN, are the same word. -/
theorem eq_of_unpacked {x y : Word} (notNaN : x.unpacked.isNaN = false)
    (same : x.unpacked = y.unpacked) : x = y :=
  calc x = ofFloat x.toFloat := (ofFloat_toFloat notNaN).symm
    _ = ⟨UInt64.ofBitVec (pack Format.binary64 x.unpacked)⟩ := rfl
    _ = ⟨UInt64.ofBitVec (pack Format.binary64 y.unpacked)⟩ := by rw [same]
    _ = ofFloat y.toFloat := rfl
    _ = y := ofFloat_toFloat (same ▸ notNaN)

/-- A word operation of two numbers whose result, computed on their unpacked forms, is the
unpacked form of a number `r` returns `r`. -/
theorem map₂_of_unpacked {f : Float → Float → Float}
    {g : UnpackedFloat → UnpackedFloat → UnpackedFloat}
    (model : ∀ a b : Float, f a b = .ofModel (.pack (g a.toModel.unpack b.toModel.unpack)))
    {x y r : Word} (xNumber : x.unpacked.isNaN = false) (yNumber : y.unpacked.isNaN = false)
    (rNumber : r.unpacked.isNaN = false) (result : g x.unpacked y.unpacked = r.unpacked) :
    map₂ f x y = r := by
  have xNotNaN : x.isNaN = false := by rw [isNaN_eq, xNumber]
  have yNotNaN : y.isNaN = false := by rw [isNaN_eq, yNumber]
  have repacked : f x.toFloat y.toFloat = r.toFloat := by
    rw [model, toModel_unpack, toModel_unpack, result]
    rfl
  have rNotNaN : r.toFloat.isNaN = false := by
    show r.toFloat.toModel.unpack.isNaN = false
    rw [toModel_unpack, rNumber]
  simp only [map₂, xNotNaN, yNotNaN, Bool.false_eq_true, if_false, ofResult, repacked, rNotNaN]
  exact ofFloat_toFloat rNumber

/-- An operation that, on the unpacked forms of two numbers, gives back the first one returns
the first word itself; a NaN first word it returns anyway. -/
theorem map₂_eq_left {f : Float → Float → Float}
    {g : UnpackedFloat → UnpackedFloat → UnpackedFloat}
    (model : ∀ a b : Float, f a b = .ofModel (.pack (g a.toModel.unpack b.toModel.unpack)))
    {x y : Word} (yNumber : y.isNaN = false)
    (keeps : x.isNaN = false → g x.unpacked y.unpacked = x.unpacked) : map₂ f x y = x := by
  cases xNumber : x.isNaN with
  | true => exact map₂_of_isNaN f x y xNumber
  | false =>
    have number := unpacked_isNaN xNumber
    exact map₂_of_unpacked model number (unpacked_isNaN yNumber) number (keeps xNumber)

/-- An operation that, on the unpacked forms of two numbers, gives back the second one returns
the second word itself when the first is a number. -/
theorem map₂_eq_right {f : Float → Float → Float}
    {g : UnpackedFloat → UnpackedFloat → UnpackedFloat}
    (model : ∀ a b : Float, f a b = .ofModel (.pack (g a.toModel.unpack b.toModel.unpack)))
    {x y : Word} (xNumber : x.isNaN = false)
    (keeps : y.isNaN = false → g x.unpacked y.unpacked = y.unpacked) : map₂ f x y = y := by
  cases yNumber : y.isNaN with
  | true => simp [map₂, xNumber, yNumber]
  | false =>
    have number := unpacked_isNaN yNumber
    exact map₂_of_unpacked model (unpacked_isNaN xNumber) number number (keeps yNumber)

theorem mul_of_unpacked {x y r : Word} (xNumber : x.unpacked.isNaN = false)
    (yNumber : y.unpacked.isNaN = false) (rNumber : r.unpacked.isNaN = false)
    (result : UnpackedFloat.mul Format.binary64 x.unpacked y.unpacked = r.unpacked) :
    x * y = r :=
  map₂_of_unpacked (fun _ _ => rfl) xNumber yNumber rNumber result

theorem unpacked_zero : (0 : Word).unpacked = .zero .positive := rfl

theorem unpacked_one : (1 : Word).unpacked = .finite .positive (2 ^ 52) (-52) (by decide) := rfl

end Word

end ComplexFormula.Binary64
