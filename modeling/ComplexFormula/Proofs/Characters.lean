import ComplexFormula.Text.Identifier
import ComplexFormula.Decimal.Read
import ComplexFormula.BinaryOp

/-!
# The characters that keep the parts of an expression apart

Expression text is never split into tokens: the resolvers look at single characters. A
name, of a constant or of a declared variable, is made of word characters and starts with
an alphabetic one. A number is made of ASCII digits, a point, an exponent marker and its
sign. The operators, the round brackets, the bars of a placeholder and white space are
none of these. This module proves the separations the resolvers rely on.

The facts about the Unicode tables are decided once, range by range, so that no later
proof looks into a table.
-/

namespace ComplexFormula.Text

/-- Two tables share no code point: each range of one lies below or above each range of
the other. -/
def CodeRanges.Disjoint (a b : CodeRanges) : Prop :=
  ∀ r ∈ a, ∀ s ∈ b, r.2 < s.1 ∨ s.2 < r.1

instance (a b : CodeRanges) : Decidable (CodeRanges.Disjoint a b) :=
  inferInstanceAs (Decidable (∀ r ∈ a, ∀ s ∈ b, r.2 < s.1 ∨ s.2 < r.1))

theorem CodeRanges.Disjoint.contains_eq_false {a b : CodeRanges} (disjoint : a.Disjoint b)
    {c : Char} (inA : a.contains c = true) : b.contains c = false := by
  rw [← Bool.not_eq_true, CodeRanges.contains_iff]
  rintro ⟨s, inB, lowB, highB⟩
  obtain ⟨r, inA, lowA, highA⟩ := (CodeRanges.contains_iff a c).mp inA
  rcases disjoint r inA s inB with below | above <;> omega

/-- Every alphabetic range starts at `A` or later. -/
theorem alphabetic_from_A : ∀ r ∈ alphabetic, 0x41 ≤ r.1 := by decide +kernel

theorem whiteSpace_disjoint_alphabetic : whiteSpace.Disjoint alphabetic := by decide +kernel

theorem whiteSpace_disjoint_numeric : whiteSpace.Disjoint numeric := by decide +kernel

/-- An alphabetic character is not below `A`: not an ASCII digit, a point, an operator or a
round bracket. -/
theorem le_toNat_of_isAlphabetic {c : Char} (h : isAlphabetic c = true) : 0x41 ≤ c.toNat := by
  obtain ⟨r, inTable, low, _⟩ := (CodeRanges.contains_iff alphabetic c).mp h
  have := alphabetic_from_A r inTable
  omega

/-- An ASCII digit lies between `0` and `9`. -/
theorem toNat_of_isDigit {c : Char} (h : Decimal.isDigit c = true) :
    0x30 ≤ c.toNat ∧ c.toNat ≤ 0x39 := by
  simp only [Decimal.isDigit, Bool.and_eq_true, decide_eq_true_eq] at h
  exact h

theorem isDigit_eq_false_of_isAlphabetic {c : Char} (h : isAlphabetic c = true) :
    Decimal.isDigit c = false := by
  have letter := le_toNat_of_isAlphabetic h
  cases digit : Decimal.isDigit c with
  | false => rfl
  | true =>
    have := toNat_of_isDigit digit
    omega

theorem ne_point_of_isAlphabetic {c : Char} (h : isAlphabetic c = true) : c ≠ '.' := by
  rintro rfl
  exact absurd (le_toNat_of_isAlphabetic h) (by decide)

/-- The characters that write operators, brackets (round and alternative), placeholders and
the decimal point: none of them may stand in a name. -/
def punctuation : List Char :=
  ['+', '-', '*', '/', '^', '(', ')', '|', '.', '[', ']', '\x7b', '\x7d']

theorem isWordChar_punctuation : ∀ c ∈ punctuation, isWordChar c = false := by
  have checked : punctuation.all (fun c => !isWordChar c) = true := by decide +kernel
  simpa using checked

theorem isWordChar_eq_false_of_isOperatorChar {c : Char} (h : isOperatorChar c = true) :
    isWordChar c = false := by
  apply isWordChar_punctuation
  simp only [isOperatorChar, Bool.or_eq_true, beq_iff_eq] at h
  rcases h with (((rfl | rfl) | rfl) | rfl) | rfl <;> simp [punctuation]

/-- White space is never part of a name. -/
theorem isWordChar_eq_false_of_isWhiteSpace {c : Char} (h : isWhiteSpace c = true) :
    isWordChar c = false := by
  have notLetter := whiteSpace_disjoint_alphabetic.contains_eq_false h
  have notNumber := whiteSpace_disjoint_numeric.contains_eq_false h
  have notUnderscore : c ≠ '_' := by
    rintro rfl
    exact absurd h (by decide)
  simp only [isWordChar, isAlphabetic, isNumeric, notLetter, notNumber, Bool.false_or,
    beq_eq_false_iff_ne, ne_eq, notUnderscore, not_false_eq_true]

/-- A name is nonempty, starts with an alphabetic character and holds word characters only. -/
theorem isIdentifierChars_iff (cs : List Char) :
    isIdentifierChars cs = true ↔
      ∃ first rest, cs = first :: rest ∧ isAlphabetic first = true ∧
        ∀ c ∈ rest, isWordChar c = true := by
  constructor
  · intro name
    cases cs with
    | nil => exact absurd name (by simp [isIdentifierChars_nil])
    | cons first rest =>
      simp only [isIdentifierChars_cons, Bool.and_eq_true, List.all_eq_true] at name
      exact ⟨first, rest, rfl, name.1, name.2⟩
  · rintro ⟨first, rest, rfl, letter, word⟩
    simp only [isIdentifierChars_cons, Bool.and_eq_true, List.all_eq_true]
    exact ⟨letter, word⟩

theorem isWordChar_of_mem_identifier {cs : List Char} (name : isIdentifierChars cs = true)
    {c : Char} (mem : c ∈ cs) : isWordChar c = true := by
  obtain ⟨first, rest, rfl, letter, word⟩ := (isIdentifierChars_iff cs).mp name
  rcases List.mem_cons.mp mem with rfl | inRest
  · simp [isWordChar, letter]
  · exact word c inRest

theorem ne_nil_of_identifier {cs : List Char} (name : isIdentifierChars cs = true) : cs ≠ [] := by
  rintro rfl
  exact absurd name (by simp [isIdentifierChars_nil])

/-- No punctuation stands in a name. -/
theorem not_mem_identifier {cs : List Char} (name : isIdentifierChars cs = true) {c : Char}
    (punct : c ∈ punctuation) : c ∉ cs := fun mem => by
  have := isWordChar_of_mem_identifier name mem
  rw [isWordChar_punctuation c punct] at this
  exact Bool.false_ne_true this

theorem isOperatorChar_eq_false_of_mem_identifier {cs : List Char}
    (name : isIdentifierChars cs = true) {c : Char} (mem : c ∈ cs) : isOperatorChar c = false := by
  cases operator : isOperatorChar c with
  | false => rfl
  | true =>
    have := isWordChar_of_mem_identifier name mem
    rw [isWordChar_eq_false_of_isOperatorChar operator] at this
    exact absurd this Bool.false_ne_true

theorem isWhiteSpace_eq_false_of_mem_identifier {cs : List Char}
    (name : isIdentifierChars cs = true) {c : Char} (mem : c ∈ cs) : isWhiteSpace c = false := by
  cases space : isWhiteSpace c with
  | false => rfl
  | true =>
    have := isWordChar_of_mem_identifier name mem
    rw [isWordChar_eq_false_of_isWhiteSpace space] at this
    exact absurd this Bool.false_ne_true

end ComplexFormula.Text
