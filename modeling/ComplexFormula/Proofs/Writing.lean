import Mathlib
import ComplexFormula.Proofs.Precedence

/-!
# The written form of a tree

A tree is written fully bracketed (`Tree.render`), and the written form is read back after
normalization, which drops the blanks around the operators. This module describes the text
the resolver then sees (`Tree.compactText`) for trees whose variables have declared names and
whose constants are finite real numbers:

* a constant is written as an unsigned literal without exponent, with a minus sign in front
  when its sign bit is set (`writeReal_of_isFinite`);
* a variable is its declared name, a function application the function's name and a bracket,
  a binary node a bracket around its operands and operator;
* brackets nest, so the bracket a node opens closes at its end (`Tree.compactText_shape`);
* normalization leaves exactly that text (`Tree.normalize_render`).

Finiteness is the model's (`Binary64.Word.isFinite`); the written form reads it off the bits
(`Binary64.fields`), and the two agree (`Binary64.fields_isFinite`).
-/

namespace ComplexFormula

/-! ## Finite words and their decimal form -/

open Float.Model in
theorem Binary64.unpack_isFinite (v : BitVec 64) :
    (UnpackedFloat.unpack Format.binary64 v).isFinite =
      decide (v.toNat / 4503599627370496 % 2048 < 2047) := by
  have exponent : (@UnpackedFloat.unpackExponent Format.binary64 v).toNat =
      v.toNat / 4503599627370496 % 2048 := by
    simp [UnpackedFloat.unpackExponent, Nat.shiftRight_eq_div_pow]
  unfold UnpackedFloat.unpack
  dsimp only
  -- an exponent field of all ones marks the infinities and NaNs
  split
  · next allOnes =>
    have top := congrArg BitVec.toNat allOnes
    rw [exponent] at top
    have notBelow : ¬v.toNat / 4503599627370496 % 2048 < 2047 := by
      simp at top
      omega
    split <;> simp [UnpackedFloat.isFinite, notBelow]
  · next notAllOnes =>
    have below : v.toNat / 4503599627370496 % 2048 < 2047 := by
      have other : (@UnpackedFloat.unpackExponent Format.binary64 v).toNat ≠ 2047 :=
        fun same => notAllOnes (BitVec.eq_of_toNat_eq (by rw [same]; rfl))
      rw [exponent] at other
      omega
    split
    · split <;> simp [UnpackedFloat.isFinite, below]
    · simp [UnpackedFloat.isFinite, below]

/-- The fields read off the bits call a word finite exactly when the floating point model
does. -/
theorem Binary64.fields_isFinite (x : Float) : (Binary64.fields x).isFinite = x.isFinite := by
  rw [Float.isFinite, Float.Model.isFinite, Float.Model.unpack, Binary64.unpack_isFinite]
  simp [Binary64.fields, Binary64.Fields.isFinite, Float.toBits]
  rfl

theorem Literal.digits_toString (n : Nat) : Literal.Digits (toString n).toList := by
  intro c mem
  have listed : c ∈ Nat.toDigits 10 n := by simpa [toString, Nat.repr] using mem
  have digit : c.isDigit = true := Nat.isDigit_of_mem_toDigits (by decide) (by decide) listed
  simpa [Decimal.isDigit, Char.isDigit, Char.le_def] using digit

theorem Literal.toString_ne_nil (n : Nat) : (toString n).toList ≠ [] := by
  simp [toString, Nat.repr, Nat.toDigits_ne_nil]

theorem Literal.digits_zeros (k : Nat) : Literal.Digits (Decimal.zeros k).toList := by
  intro c mem
  simp only [Decimal.zeros, String.toList_ofList, List.mem_replicate] at mem
  rw [mem.2]
  rfl

/-- Positional notation writes a magnitude as an unsigned literal without exponent: digits,
with a point where the number has a fraction. -/
theorem positional_magnitude_unsigned (m : Nat) (e : Int) :
    Literal.Unsigned (Decimal.Notation.positional.magnitude m e).toList := by
  have whole : ∀ ds, ds ≠ [] → Literal.Digits ds → Literal.Unsigned ds := fun ds nonempty digits =>
    ⟨ds, [], (List.append_nil ds).symm, .whole nonempty digits, .none⟩
  have pointed : ∀ ds fs, Literal.Digits ds → Literal.Digits fs → ds ++ fs ≠ [] →
      Literal.Unsigned (ds ++ '.' :: fs) := fun ds fs before after nonempty =>
    ⟨_, [], (List.append_nil _).symm, .pointed before after nonempty, .none⟩
  unfold Decimal.Notation.magnitude
  dsimp only
  split
  · exact whole ['0'] (by simp) (fun c mem => by rw [List.mem_singleton.mp mem]; rfl)
  · have notScientific : ∀ lead, Decimal.Notation.positional.isScientific lead = false :=
      fun _ => rfl
    rw [notScientific]
    simp only [Bool.false_eq_true, ↓reduceIte]
    unfold Decimal.layoutPositional
    dsimp only
    have digits := Literal.digits_toString (Decimal.shortest m e).digits
    have nonempty := Literal.toString_ne_nil (Decimal.shortest m e).digits
    -- below one, from one up to the last digit, or with the point among the digits
    split
    · simp only [String.toList_append]
      exact pointed ['0'] _ (fun c mem => by rw [List.mem_singleton.mp mem]; rfl)
        (Literal.Digits.append (Literal.digits_zeros _) digits) (by simp)
    · split
      · have noFraction : Decimal.Notation.positional.pointZero = false := rfl
        simp only [noFraction, Bool.false_eq_true, ↓reduceIte, String.toList_append,
          show "".toList = [] from rfl, List.append_nil]
        exact whole _ (by simp) (Literal.Digits.append digits (Literal.digits_zeros _))
      · generalize (toString (Decimal.shortest m e).digits).toList = text at digits nonempty ⊢
        simp only [String.toList_append, String.toList_ofList, show ".".toList = ['.'] from rfl,
          List.append_assoc, List.singleton_append]
        have split := List.take_append_drop
          (↑(toString (Decimal.shortest m e).digits).length + (Decimal.shortest m e).exponent).toNat
          text
        exact pointed _ _ (fun c mem => digits c (List.mem_of_mem_take mem))
          (fun c mem => digits c (List.mem_of_mem_drop mem)) (by rw [split]; exact nonempty)

/-- A finite word is written as an unsigned literal, after a minus sign when its sign bit is
set. -/
theorem writeReal_of_isFinite {x : Binary64.Word} (finite : x.isFinite = true) :
    ∃ sign lit, Literal.Unsigned lit ∧ (writeReal x).toList = signText sign ++ lit ∧
      (Binary64.isSignPositive x.toFloat = true → sign = none) := by
  have decoded : (Binary64.fields x.toFloat).isFinite = true := by
    rw [Binary64.fields_isFinite]
    exact finite
  have literal := positional_magnitude_unsigned (Binary64.fields x.toFloat).significand
    (Binary64.fields x.toFloat).exponent
  unfold writeReal Decimal.Notation.render
  cases negative : (Binary64.fields x.toFloat).negative with
  | false =>
    refine ⟨none, _, literal, ?_, fun _ => rfl⟩
    simp [decoded, negative, signText]
  | true =>
    refine ⟨some .minus, _, literal, ?_, fun positive => ?_⟩
    · simp [decoded, negative, signText, Sign.char]
    · simp [Binary64.isSignPositive, negative] at positive

/-- A literal with an optional sign in front is written with the characters of formulas. -/
theorem formulaChar_of_signed_literal {sign : Option Sign} {lit : List Char}
    (unsigned : Literal.Unsigned lit) {c : Char} (mem : c ∈ signText sign ++ lit) :
    FormulaChar c := by
  rcases List.mem_append.mp mem with inSign | inLiteral
  · left
    rcases signText_shape sign with same | same | same <;> rw [same] at inSign <;>
      simp at inSign <;> rw [inSign] <;> rfl
  · rcases unsigned.mem inLiteral with digit | rfl | rfl | rfl | rfl | rfl
    · exact Or.inr (Or.inl digit)
    · exact Or.inr (Or.inr (Or.inl rfl))
    · exact Or.inr (Or.inr (Or.inr (Or.inl rfl)))
    · exact Or.inr (Or.inr (Or.inr (Or.inr (Or.inl rfl))))
    · exact Or.inl rfl
    · exact Or.inl rfl

/-! ## The text of a tree -/

/-- The constants of a tree, from left to right. -/
def Tree.constants : Tree → List ComplexFloat
  | .const z => [z]
  | .var _ _ => []
  | .unary _ arg => arg.constants
  | .binary _ left right => left.constants ++ right.constants

/-- The text a tree is read back from: its written form without white space, which is what
normalizing the written form leaves. -/
def Tree.compactText (names : List String) (t : Tree) : List Char :=
  (t.render names).toList.filter fun c => !Text.isWhiteSpace c

namespace Tree

variable (names : List String)

theorem compactText_binary (op : BinaryOp) (left right : Tree) :
    (binary op left right).compactText names =
      '(' :: (left.compactText names ++ op.symbol :: (right.compactText names ++ [')'])) := by
  have symbol : Text.isWhiteSpace op.symbol = false := by cases op <;> decide
  simp [compactText, render, List.filter_append, symbol,
    show Text.isWhiteSpace '(' = false by decide, show Text.isWhiteSpace ')' = false by decide,
    show Text.isWhiteSpace ' ' = true by decide]

theorem compactText_unary (f : UnaryFn) (arg : Tree) :
    (unary f arg).compactText names =
      f.name.toList ++ '(' :: (arg.compactText names ++ [')']) := by
  have plain : f.name.toList.filter (fun c => !Text.isWhiteSpace c) = f.name.toList := by
    cases f <;> decide
  simp [compactText, render, List.filter_append, plain,
    show Text.isWhiteSpace '(' = false by decide, show Text.isWhiteSpace ')' = false by decide]

theorem compactText_var {leaf slot : Nat} {name : String} (named : names[slot]? = some name)
    (identifier : Text.isIdentifier name = true) :
    (var leaf slot).compactText names = name.toList := by
  simp only [compactText, render, named, Option.getD_some, List.filter_eq_self]
  intro c mem
  simp [Text.isWhiteSpace_eq_false_of_mem_identifier identifier mem]

theorem compactText_const {z : ComplexFloat} (real : (z.im == 0) = true)
    (finite : z.re.isFinite = true) :
    (const z).compactText names = (writeReal z.re).toList := by
  obtain ⟨sign, lit, unsigned, written, -⟩ := writeReal_of_isFinite finite
  simp only [compactText, render, real, ↓reduceIte, List.filter_eq_self]
  intro c mem
  rw [written] at mem
  simp [(formulaChar_of_signed_literal unsigned mem).isWhiteSpace_eq_false]

end Tree

/-! ## Brackets -/

/-- Text that leaves the bracket depth as it found it whenever it is read inside a bracket:
the brackets it opens it closes, and it never closes one it did not open. -/
def Balanced (text : List Char) : Prop :=
  ∀ depth pos rest, closingOffset (text ++ rest) (depth + 1) pos =
    closingOffset rest (depth + 1) (pos + text.length)

/-- Text without round brackets moves the search for a closing bracket on by its length. -/
theorem closingOffset_roundFree {xs : List Char} (noOpening : '(' ∉ xs) (noClosing : ')' ∉ xs)
    (rest : List Char) (depth pos : Nat) :
    closingOffset (xs ++ rest) depth pos = closingOffset rest depth (pos + xs.length) := by
  induction xs generalizing pos with
  | nil => rfl
  | cons c xs inductionHypothesis =>
    have notOpening : c ≠ '(' := fun same => noOpening (same ▸ List.mem_cons_self)
    have notClosing : c ≠ ')' := fun same => noClosing (same ▸ List.mem_cons_self)
    rw [List.cons_append, closingOffset_other notOpening notClosing,
      inductionHypothesis (fun mem => noOpening (List.mem_cons_of_mem c mem))
        (fun mem => noClosing (List.mem_cons_of_mem c mem))]
    simp only [List.length_cons]
    congr 1
    omega

theorem balanced_of_round_free {text : List Char} (noOpening : '(' ∉ text)
    (noClosing : ')' ∉ text) : Balanced text :=
  fun depth pos rest => closingOffset_roundFree noOpening noClosing rest (depth + 1) pos

theorem Balanced.append {first second : List Char} (left : Balanced first)
    (right : Balanced second) : Balanced (first ++ second) := by
  intro depth pos rest
  rw [List.append_assoc, left, right, List.length_append, Nat.add_assoc]

/-- A bracket around balanced text closes right after it. -/
theorem closingOffset_bracket {b : List Char} (inner : Balanced b) (depth pos : Nat)
    (rest : List Char) :
    closingOffset ('(' :: (b ++ ')' :: rest)) depth pos =
      if depth = 0 then some (pos + b.length + 1)
      else closingOffset rest depth (pos + b.length + 2) := by
  rw [closingOffset_opening, inner depth (pos + 1) (')' :: rest)]
  cases depth with
  | zero =>
    rw [closingOffset_closing_last (Nat.le_refl 1), if_pos rfl]
    congr 1
    omega
  | succ depth =>
    rw [closingOffset_closing, if_neg (Nat.succ_ne_zero depth)]
    congr 1
    omega

theorem Balanced.bracket {b : List Char} (inner : Balanced b) :
    Balanced ('(' :: (b ++ [')'])) := by
  intro depth pos rest
  rw [List.cons_append, List.append_assoc, List.singleton_append,
    closingOffset_bracket inner, if_neg (Nat.succ_ne_zero depth)]
  simp only [List.length_cons, List.length_append, List.length_nil]
  congr 1

/-! ## Trees written with declared names and real constants -/

section Written

variable {names : List String} (named : ∀ name ∈ names, Text.isIdentifier name = true)
include named

/-- The text of a leaf: a declared name, or a finite real constant. -/
theorem Tree.formulaChars_leaf {t : Tree} (leaf : (∃ l s, t = .var l s) ∨ ∃ z, t = .const z)
    (slots : ∀ entry ∈ t.leaves, entry.2 < names.length)
    (real : ∀ z ∈ t.constants, z.re.isFinite = true ∧ (z.im == 0) = true) :
    t.compactText names ≠ [] ∧ ∀ c ∈ t.compactText names, FormulaChar c := by
  rcases leaf with ⟨l, s, rfl⟩ | ⟨z, rfl⟩
  · have bound : s < names.length := slots (l, s) (List.mem_singleton_self _)
    have identifier := named names[s] (List.getElem_mem bound)
    rw [Tree.compactText_var names (List.getElem?_eq_getElem bound) identifier]
    exact ⟨Text.ne_nil_of_identifier identifier, fun c mem =>
      Or.inr (Or.inr (Or.inr (Or.inr (Or.inr (Text.isWordChar_of_mem_identifier identifier mem)))))⟩
  · obtain ⟨finite, isReal⟩ := real z (List.mem_singleton_self _)
    obtain ⟨sign, lit, unsigned, written, -⟩ := writeReal_of_isFinite finite
    rw [Tree.compactText_const names isReal finite, written]
    obtain ⟨c, r, same, -⟩ := unsigned.head
    exact ⟨by simp [same], fun c mem => formulaChar_of_signed_literal unsigned mem⟩

/-- The text of a tree is balanced, and written with the characters of formulas and round
brackets. -/
theorem Tree.compactText_shape (t : Tree) (slots : ∀ entry ∈ t.leaves, entry.2 < names.length)
    (real : ∀ z ∈ t.constants, z.re.isFinite = true ∧ (z.im == 0) = true) :
    Balanced (t.compactText names) ∧ t.compactText names ≠ [] ∧
      ∀ c ∈ t.compactText names, FormulaChar c ∨ c = '(' ∨ c = ')' := by
  have leafShape : ∀ {u : Tree}, ((∃ l s, u = .var l s) ∨ ∃ z, u = .const z) →
      (∀ entry ∈ u.leaves, entry.2 < names.length) →
      (∀ z ∈ u.constants, z.re.isFinite = true ∧ (z.im == 0) = true) →
      Balanced (u.compactText names) ∧ u.compactText names ≠ [] ∧
        ∀ c ∈ u.compactText names, FormulaChar c ∨ c = '(' ∨ c = ')' := by
    intro u leaf slots real
    obtain ⟨nonempty, chars⟩ := Tree.formulaChars_leaf named leaf slots real
    refine ⟨balanced_of_round_free ?_ ?_, nonempty, fun c mem => Or.inl (chars c mem)⟩ <;>
      exact fun mem => not_formulaChar_of_punctuation (by decide) (by decide) (by decide)
        (chars _ mem)
  induction t with
  | const z => exact leafShape (Or.inr ⟨z, rfl⟩) slots real
  | var l s => exact leafShape (Or.inl ⟨l, s, rfl⟩) slots real
  | unary f arg inductionHypothesis =>
    obtain ⟨balanced, -, chars⟩ := inductionHypothesis slots real
    have nameChars : ∀ c ∈ f.name.toList, FormulaChar c ∧ c ≠ '(' ∧ c ≠ ')' := by
      intro c mem
      have checked : f.name.toList.all (fun c => Text.isWordChar c && c != '(' && c != ')') =
          true := by
        cases f <;> decide +kernel
      have word := List.all_eq_true.mp checked c mem
      simp only [Bool.and_eq_true, bne_iff_ne, ne_eq] at word
      exact ⟨Or.inr (Or.inr (Or.inr (Or.inr (Or.inr word.1.1)))), word.1.2, word.2⟩
    rw [Tree.compactText_unary]
    refine ⟨(balanced_of_round_free (fun mem => (nameChars _ mem).2.1 rfl)
      (fun mem => (nameChars _ mem).2.2 rfl)).append balanced.bracket, by simp, ?_⟩
    intro c mem
    simp only [List.mem_append, List.mem_cons, List.not_mem_nil, or_false] at mem
    rcases mem with inName | rfl | inArg | rfl
    · exact Or.inl (nameChars c inName).1
    · exact Or.inr (Or.inl rfl)
    · exact chars c inArg
    · exact Or.inr (Or.inr rfl)
  | binary op left right leftHypothesis rightHypothesis =>
    have leftSlots : ∀ entry ∈ left.leaves, entry.2 < names.length :=
      fun entry mem => slots entry (List.mem_append_left _ mem)
    have rightSlots : ∀ entry ∈ right.leaves, entry.2 < names.length :=
      fun entry mem => slots entry (List.mem_append_right _ mem)
    have leftReal : ∀ z ∈ left.constants, z.re.isFinite = true ∧ (z.im == 0) = true :=
      fun z mem => real z (List.mem_append_left _ mem)
    have rightReal : ∀ z ∈ right.constants, z.re.isFinite = true ∧ (z.im == 0) = true :=
      fun z mem => real z (List.mem_append_right _ mem)
    obtain ⟨leftBalanced, -, leftChars⟩ := leftHypothesis leftSlots leftReal
    obtain ⟨rightBalanced, -, rightChars⟩ := rightHypothesis rightSlots rightReal
    have symbol : Balanced [op.symbol] := by
      apply balanced_of_round_free <;> cases op <;> decide
    have grouped : left.compactText names ++ op.symbol :: (right.compactText names ++ [')']) =
        (left.compactText names ++ [op.symbol] ++ right.compactText names) ++ [')'] := by simp
    rw [Tree.compactText_binary, grouped]
    refine ⟨Balanced.bracket ((leftBalanced.append symbol).append rightBalanced), by simp, ?_⟩
    · intro c mem
      simp only [List.mem_cons, List.mem_append, List.not_mem_nil, or_false, or_assoc] at mem
      rcases mem with rfl | inLeft | rfl | inRight | rfl
      · exact Or.inr (Or.inl rfl)
      · exact leftChars c inLeft
      · exact Or.inl (Or.inl op.isOperatorChar_symbol)
      · exact rightChars c inRight
      · exact Or.inr (Or.inr rfl)

/-- Normalizing the written form of a tree leaves its compact text. -/
theorem Tree.normalize_render (t : Tree) (slots : ∀ entry ∈ t.leaves, entry.2 < names.length)
    (real : ∀ z ∈ t.constants, z.re.isFinite = true ∧ (z.im == 0) = true) :
    normalize BracketGlyphs.standard (t.render names) =
      .ok (String.ofList (t.compactText names)) := by
  obtain ⟨-, nonempty, chars⟩ := t.compactText_shape named slots real
  have noGlyph : ∀ d ∈ ['[', '\x7b', ']', '\x7d'], d ∉ t.compactText names := by
    intro d glyph mem
    simp only [List.mem_cons, List.not_mem_nil, or_false] at glyph
    rcases chars d mem with char | round | round
    · refine not_formulaChar_of_punctuation ?_ ?_ ?_ char <;>
        rcases glyph with rfl | rfl | rfl | rfl <;> decide
    · rcases glyph with rfl | rfl | rfl | rfl <;> cases round
    · rcases glyph with rfl | rfl | rfl | rfl <;> cases round
  have notBlank : Text.isBlank (t.render names) = false := by
    obtain ⟨c, kept⟩ := List.exists_mem_of_ne_nil _ nonempty
    obtain ⟨written, notSpace⟩ := List.mem_filter.mp kept
    rw [Text.isBlank, List.all_eq_false]
    exact ⟨c, written, by simpa using notSpace⟩
  have square : "[".toList = ['['] := by decide
  have curly : "\x7b".toList = ['\x7b'] := by decide
  have squareClosing : "]".toList = [']'] := by decide
  have curlyClosing : "\x7d".toList = ['\x7d'] := by decide
  have stripped : (Text.stripWhiteSpace (t.render names)).toList = t.compactText names := by
    simp [Text.stripWhiteSpace, Tree.compactText]
  unfold normalize
  rw [notBlank, if_neg Bool.false_ne_true]
  simp only [stripped, BracketGlyphs.standard, List.foldl_cons,
    List.foldl_nil, square, curly, squareClosing, curlyClosing]
  rw [replaceAll_of_not_mem _ (noGlyph '[' (by simp)),
    replaceAll_of_not_mem _ (noGlyph '\x7b' (by simp)),
    replaceAll_of_not_mem _ (noGlyph ']' (by simp)),
    replaceAll_of_not_mem _ (noGlyph '\x7d' (by simp))]

end Written

end ComplexFormula
