import ComplexFormula.Proofs.Groups
import ComplexFormula.Proofs.PowerOperands

/-!
# A literal in scientific notation next to a name or a group

A value written right after another multiplies it: `2x` is `2 * x`. After a literal in
scientific notation with a signed exponent, as in `1E-5x`, the sign must not split the text.
The additive splitter skips it as an exponent sign (`Literal.isExponentSign`), so the whole
text reaches the leaf resolver, which reads a literal only when it is the whole text and
otherwise splits around the first placeholder, else the first constant, else the first
variable, that it finds.

A bracketed group after the literal is resolved first and stands as a placeholder, which the
leaf resolver splits around before it looks for constants: `1e-5(x)` compiles exactly as
`1e-5*(x)`, whatever the marker. A name after the literal is found only when the literal holds
no name before it. The literal holds one letter, its exponent marker. When the marker is no
name the scope knows, the text is the literal's value times the name, the same tree as the
product written out (`compile_scientific_juxtaposed`). When the marker is a name the scope
knows, as the built-in constant `e` is for every lowercase marker, the leaf resolver finds it
inside the literal and splits the literal there: `1e-5pi` is `(1 * e) * (-5 * pi)`
(`compile_marker_constant_splits_literal`).
-/

namespace ComplexFormula

/-- A literal in scientific notation with a signed exponent: a mantissa, the marker `e` or
`E`, a sign and digits, as in `1e-5` or `2.5E+3`. -/
structure ScientificLiteral where
  mantissa : List Char
  marker : Char
  sign : Sign
  digits : List Char
  isMantissa : Literal.Mantissa mantissa
  isMarker : marker = 'e' ∨ marker = 'E'
  nonempty : digits ≠ []
  isDigits : Literal.Digits digits

namespace ScientificLiteral

variable (l : ScientificLiteral)

/-- The text of the literal. -/
def text : List Char := l.mantissa ++ l.marker :: l.sign.char :: l.digits

/-- The exponent part of the literal: marker, sign and digits. -/
theorem exponent : Literal.Exponent (l.marker :: l.sign.char :: l.digits) :=
  @Literal.Exponent.marked l.marker [l.sign.char] l.digits l.isMarker
    (signText_shape (some l.sign)) l.nonempty l.isDigits

theorem unsigned : Literal.Unsigned l.text :=
  ⟨l.mantissa, l.marker :: l.sign.char :: l.digits, rfl, l.isMantissa, l.exponent⟩

/-- The value of the literal, as the reader reads it. -/
def value : Binary64.Word := literalValue none l.text l.unsigned

theorem text_ne_nil : l.text ≠ [] := by
  simp [text]

/-- The characters of the literal by position: those of the mantissa, the marker, the sign,
then digits. -/
theorem getElem?_text {j : Nat} {c : Char} (found : l.text[j]? = some c) :
    (j < l.mantissa.length ∧ (Decimal.isDigit c = true ∨ c = '.')) ∨
      (j = l.mantissa.length ∧ c = l.marker) ∨ (j = l.mantissa.length + 1 ∧ c = l.sign.char) ∨
      (l.mantissa.length + 2 ≤ j ∧ Decimal.isDigit c = true) := by
  unfold text at found
  rcases Nat.lt_or_ge j l.mantissa.length with inMantissa | after
  · rw [List.getElem?_append_left inMantissa] at found
    exact Or.inl ⟨inMantissa, l.isMantissa.mem (List.mem_of_getElem? found)⟩
  · obtain ⟨k, rfl⟩ : ∃ k, j = l.mantissa.length + k := ⟨j - l.mantissa.length, by omega⟩
    rw [List.getElem?_append_right after, Nat.add_sub_cancel_left] at found
    rcases k with _ | _ | k
    · simp only [List.getElem?_cons_zero, Option.some.injEq] at found
      exact Or.inr (Or.inl ⟨rfl, found.symm⟩)
    · simp only [List.getElem?_cons_succ, List.getElem?_cons_zero, Option.some.injEq] at found
      exact Or.inr (Or.inr (Or.inl ⟨rfl, found.symm⟩))
    · simp only [List.getElem?_cons_succ] at found
      exact Or.inr (Or.inr (Or.inr ⟨by omega, l.isDigits c (List.mem_of_getElem? found)⟩))

/-- The characters of the literal: digits, points, the marker and the sign. -/
theorem mem_text {c : Char} (mem : c ∈ l.text) :
    Decimal.isDigit c = true ∨ c = '.' ∨ c = l.marker ∨ c = l.sign.char := by
  obtain ⟨j, found⟩ := List.mem_iff_getElem?.mp mem
  rcases l.getElem?_text found with ⟨-, digit | point⟩ | ⟨-, marker⟩ | ⟨-, sign⟩ | ⟨-, digit⟩
  · exact Or.inl digit
  · exact Or.inr (Or.inl point)
  · exact Or.inr (Or.inr (Or.inl marker))
  · exact Or.inr (Or.inr (Or.inr sign))
  · exact Or.inl digit

theorem isSignChar_sign : isSignChar l.sign.char = true := by
  cases l.sign <;> rfl

/-- No function name ends the literal: every name has a letter other than `e` and `E`, which no
literal holds. -/
theorem suffixOf?_text : UnaryFn.suffixOf? l.text = none := by
  cases found : UnaryFn.suffixOf? l.text with
  | none => rfl
  | some f =>
    exfalso
    have foreign : f.name.toList.any (fun c => !Decimal.isDigit c && c != '.' && c != 'e' &&
        c != 'E' && !isSignChar c) = true := by
      cases f <;> decide
    obtain ⟨c, named, notLiteral⟩ := List.any_eq_true.mp foreign
    simp only [Bool.and_eq_true, Bool.not_eq_true', bne_iff_ne, ne_eq] at notLiteral
    obtain ⟨⟨⟨⟨notDigit, notPoint⟩, notSmall⟩, notCapital⟩, notSign⟩ := notLiteral
    rcases l.mem_text ((UnaryFn.suffixOf?_suffix found).subset named) with
      digit | point | marker | sign
    · rw [notDigit] at digit
      cases digit
    · exact notPoint point
    · rcases l.isMarker with small | capital
      · exact notSmall (marker.trans small)
      · exact notCapital (marker.trans capital)
    · rw [sign, l.isSignChar_sign] at notSign
      cases notSign

/-- No punctuation stands in the literal but its point and its sign. -/
theorem punctuation_not_mem {d : Char} (punctuation : d ∈ Text.punctuation) (notPoint : d ≠ '.')
    (notSign : isSignChar d = false) : d ∉ l.text := by
  intro mem
  have plain : ∀ c ∈ Text.punctuation, Decimal.isDigit c = false ∧ c ≠ 'e' ∧ c ≠ 'E' := by
    have checked : Text.punctuation.all (fun c => !Decimal.isDigit c && c != 'e' && c != 'E') =
        true := by decide
    simpa [and_assoc] using checked
  obtain ⟨notDigit, notSmall, notCapital⟩ := plain d punctuation
  rcases l.mem_text mem with digit | point | marker | sign
  · rw [notDigit] at digit
    cases digit
  · exact notPoint point
  · rcases l.isMarker with small | capital
    · exact notSmall (marker.trans small)
    · exact notCapital (marker.trans capital)
  · rw [sign, l.isSignChar_sign] at notSign
    cases notSign

/-- No `*`, `/`, `^` or round bracket stands in a literal followed by a name. -/
theorem stray_not_mem {name : List Char} (named : Text.isIdentifierChars name = true) {d : Char}
    (stray : d = '*' ∨ d = '/' ∨ d = '^' ∨ d = '(' ∨ d = ')') : d ∉ l.text ++ name := by
  have punctuation : d ∈ Text.punctuation := by
    rcases stray with rfl | rfl | rfl | rfl | rfl <;> decide
  have notPoint : d ≠ '.' := by
    rcases stray with rfl | rfl | rfl | rfl | rfl <;> decide
  have notSign : isSignChar d = false := by
    rcases stray with rfl | rfl | rfl | rfl | rfl <;> rfl
  intro mem
  rcases List.mem_append.mp mem with inLiteral | inName
  · exact l.punctuation_not_mem punctuation notPoint notSign inLiteral
  · exact Text.not_mem_identifier named punctuation inName

/-- The literal is written with the characters of formulas. -/
theorem formulaChar_of_mem {c : Char} (mem : c ∈ l.text) : FormulaChar c := by
  rcases l.mem_text mem with digit | point | marker | sign
  · exact Or.inr (Or.inl digit)
  · exact Or.inr (Or.inr (Or.inl point))
  · rcases l.isMarker with small | capital
    · exact Or.inr (Or.inr (Or.inr (Or.inl (marker.trans small))))
    · exact Or.inr (Or.inr (Or.inr (Or.inr (Or.inl (marker.trans capital)))))
  · rw [sign]
    exact Or.inl (by cases l.sign <;> rfl)

/-- A literal followed by a name is written with the characters of formulas. -/
theorem formulaChars {name : List Char} (named : Text.isIdentifierChars name = true) :
    ∀ c ∈ l.text ++ name, FormulaChar c := by
  intro c mem
  rcases List.mem_append.mp mem with inLiteral | inName
  · exact l.formulaChar_of_mem inLiteral
  · exact Or.inr (Or.inr (Or.inr (Or.inr (Or.inr
      (Text.isWordChar_of_mem_identifier named inName)))))

/-- The literal is its own normal form, and so is the literal with a `*` after it. -/
theorem normalForm_text :
    normalForm BracketGlyphs.standard l.text = l.text ∧
      normalForm BracketGlyphs.standard (l.text ++ ['*']) = l.text ++ ['*'] := by
  have starred : ∀ c ∈ l.text ++ ['*'], FormulaChar c := by
    intro c mem
    rcases List.mem_append.mp mem with inLiteral | star
    · exact l.formulaChar_of_mem inLiteral
    · rw [List.mem_singleton.mp star]
      exact Or.inl rfl
  exact ⟨normalForm_of_formulaChars l.text_ne_nil fun _ => l.formulaChar_of_mem,
    normalForm_of_formulaChars (List.append_ne_nil_of_left_ne_nil l.text_ne_nil _) starred⟩

/-- The literal guards the name after it when its marker is no name the scope knows: the
marker is its only letter, and the sign after the marker ends any name the marker starts. -/
theorem guards {scope : Scope} (wf : scope.WellFormed)
    (markerFree : ¬scope.Knows (String.ofList [l.marker])) : scope.Guards l.text where
  noBar := l.punctuation_not_mem (by decide) (by decide) rfl
  namesAfter name known rest j occurs := by
    obtain ⟨c, r, spelled, letter, word⟩ :=
      (Text.isIdentifierChars_iff _).mp (identifier_of_knows wf known)
    rcases Nat.lt_or_ge j l.text.length with inside | outside
    · exfalso
      have atStart : (l.text ++ rest)[j + 0]? = some c :=
        getElem?_of_occurs occurs (by rw [spelled]; rfl)
      rw [Nat.add_zero, List.getElem?_append_left inside] at atStart
      rcases l.getElem?_text atStart with
        ⟨-, digit | rfl⟩ | ⟨atMarker, rfl⟩ | ⟨-, rfl⟩ | ⟨-, digit⟩
      · rw [Text.isDigit_eq_false_of_isAlphabetic letter] at digit
        cases digit
      · exact Text.ne_point_of_isAlphabetic letter rfl
      · cases r with
        | nil =>
          -- the name is the marker alone
          apply markerFree
          rw [← spelled, String.ofList_toList]
          exact known
        | cons d more =>
          -- the name goes on past the marker, into the sign
          have next : (l.text ++ rest)[j + 1]? = some d :=
            getElem?_of_occurs occurs (by rw [spelled]; rfl)
          have signAt : (l.text ++ rest)[j + 1]? = some l.sign.char := by
            rw [atMarker, text, List.append_assoc, List.getElem?_append_right (by omega)]
            simp
          rw [signAt, Option.some.injEq] at next
          have wordSign := word d List.mem_cons_self
          rw [← next, Text.isWordChar_eq_false_of_isOperatorChar (by cases l.sign <;> rfl)]
            at wordSign
          cases wordSign
      · rw [Text.isAlphabetic_eq_false_of_lt (by cases l.sign <;> decide)] at letter
        cases letter
      · rw [Text.isDigit_eq_false_of_isAlphabetic letter] at digit
        cases digit
    · exact outside

/-- A literal followed by a name is no literal: the scan stops where the name starts. -/
theorem value?_append_name {name : List Char} (named : Text.isIdentifierChars name = true) :
    Literal.value? (l.text ++ name) = none := by
  obtain ⟨c, r, rfl, notDigit, -⟩ := identifier_head named
  have stop : Literal.StopsAfter (l.marker :: l.sign.char :: l.digits) (c :: r) := by
    intro d r' same
    rw [(List.cons.inj same).1] at notDigit
    exact notDigit
  have scanned : Literal.leadingLength (l.text ++ c :: r) true = some l.text.length :=
    Literal.leadingLength_parts_append l.isMantissa l.exponent stop true
  simp [Literal.value?, Literal.isLiteral, scanned]

/-- The product of the literal and a name, written out. -/
def times (name : String) : Formula :=
  ⟨⟨none, .literal l.text l.unsigned⟩, [(.mul, ⟨none, .name name⟩)]⟩

theorem text_times (name : String) : (l.times name).text = l.text ++ '*' :: name.toList := by
  simp [times, Formula.text, Chain.text, Operand.text, signText, Atom.text, BinaryOp.symbol]

theorem reference_times (scope : Scope) (name : String) :
    (l.times name).reference scope =
      .binary .mul (.const (ComplexFloat.ofReal l.value)) (nameTree scope name) :=
  rfl

/-- The written-out product holds no power, so no run of powers in it is misread. -/
theorem readable_times (name : String) : (l.times name).Readable := by
  rintro before op after ⟨i, -, adjacent⟩ ⟨-, -, powers, -⟩
  simp only [times, Chain.group, Chain.groupFrom, bne_iff_ne, ne_eq, reduceCtorEq,
    not_false_eq_true, ↓reduceIte] at adjacent
  rcases i with _ | i
  · simp only [List.getElem?_cons_zero, Option.some.injEq, Prod.mk.injEq] at adjacent
    rw [← adjacent.2] at powers
    exact powers rfl
  · simp at adjacent

end ScientificLiteral

section Resolving

variable {scope : Scope} (wf : scope.WellFormed) (l : ScientificLiteral)
  (markerFree : ¬scope.Knows (String.ofList [l.marker]))

include wf markerFree in
/-- The leaf resolver on the literal followed by a known name: the literal's value times the
name's tree. -/
theorem resolveLeaf_scientific_name {w : Workspace} (keys : w.Placeholders) {name : String}
    (known : scope.Knows name) :
    ∃ m w', resolveLeaf scope (l.text ++ name.toList) w =
        .ok (.binary .mul (.const (ComplexFloat.ofReal l.value)) m, w') ∧
      m.eraseLeaves = nameTree scope name ∧ w'.pending = w.pending ∧ w'.minted = w.minted :=
  resolveLeaf_name_after wf keys (l.guards wf markerFree) l.text_ne_nil known
    (l.value?_append_name (identifier_of_knows wf known))
    (fun w' => resolveLeaf_literal scope none l.unsigned w')

/-- The only additive sign of the literal is its exponent sign, where the text does not split,
so the literal followed by text without signs is no sum. -/
theorem additiveSplit?_scientific {R : List Char} (signFree : ∀ c ∈ R, isSignChar c = false) :
    additiveSplit? (l.text ++ R) = none := by
  have exponentSign : Literal.isExponentSign
      ([] ++ l.mantissa ++ l.marker :: l.sign.char :: (l.digits ++ R))
      ([].length + l.mantissa.length + 1) = true :=
    isExponentSign_literal OperatorBefore.nil l.isMantissa l.isMarker l.isDigits l.nonempty
  simp only [List.nil_append, List.length_nil, Nat.zero_add] at exponentSign
  rw [show l.mantissa ++ l.marker :: l.sign.char :: (l.digits ++ R) = l.text ++ R by
    simp [ScientificLiteral.text]] at exponentSign
  apply additiveSplit?_eq_none
  intro j _ _
  cases found : (l.text ++ R)[j]? with
  | none => simp [isAdditiveSplit, found]
  | some c =>
    rcases Nat.lt_or_ge j l.text.length with inside | outside
    · rw [List.getElem?_append_left inside] at found
      rcases l.getElem?_text found with ⟨-, literalChar⟩ | ⟨-, rfl⟩ | ⟨rfl, -⟩ | ⟨-, digit⟩
      · exact isAdditiveSplit_of_not_sign (by rwa [List.getElem?_append_left inside])
          (isSignChar_eq_false_of_literalChar literalChar)
      · refine isAdditiveSplit_of_not_sign (by rwa [List.getElem?_append_left inside]) ?_
        rcases l.isMarker with same | same <;> rw [same] <;> rfl
      · exact isAdditiveSplit_of_exponentSign exponentSign
      · exact isAdditiveSplit_of_not_sign (by rwa [List.getElem?_append_left inside])
          (isSignChar_eq_false_of_literalChar (Or.inl digit))
    · rw [List.getElem?_append_right outside] at found
      exact isAdditiveSplit_of_not_sign (by rwa [List.getElem?_append_right outside])
        (signFree c (List.mem_of_getElem? found))

/-- Text without brackets and `^` that has an operator and ends in none is resolved as a sum. -/
theorem resolveExpression_of_flat {text : List Char} (noOpening : '(' ∉ text)
    (noClosing : ')' ∉ text) (operator : text.any isOperatorChar = true) {c : Char}
    (last : text.getLast? = some c) (notOperator : isOperatorChar c = false)
    (noCaret : text.findIdx? (· == '^') = none) :
    resolveExpression scope text = resolveSum scope text := by
  rw [resolveExpression_of_plain noOpening noClosing, if_pos operator,
    resolveOperators_of_last last notOperator, resolvePowers_of_none noCaret, pure_bind]

include wf markerFree in
/-- The literal followed by a known name resolves to the literal's value times the name's
tree: neither the operator passes nor the leaf resolver split the literal. -/
theorem resolveExpression_scientific_name {name : String} (known : scope.Knows name) :
    ∃ raw w, resolveExpression scope (l.text ++ name.toList) Workspace.initial = .ok (raw, w) ∧
      raw.eraseLeaves = .binary .mul (.const (ComplexFloat.ofReal l.value)) (nameTree scope name) := by
  have named := identifier_of_knows wf known
  have absent : ∀ d, (d = '*' ∨ d = '/' ∨ d = '^' ∨ d = '(' ∨ d = ')') →
      d ∉ l.text ++ name.toList := fun d stray => l.stray_not_mem named stray
  -- the sign of the exponent is an operator, and the text ends with the name
  have signed : (l.text ++ name.toList).any isOperatorChar = true := by
    rw [List.any_eq_true]
    exact ⟨l.sign.char, List.mem_append_left _ (by simp [ScientificLiteral.text]),
      by cases l.sign <;> rfl⟩
  obtain ⟨c, r, spelled, -, word⟩ := (Text.isIdentifierChars_iff _).mp named
  obtain ⟨last, lastOfName⟩ : ∃ last, name.toList.getLast? = some last := by
    rw [spelled]
    exact ⟨_, List.getLast?_cons⟩
  have ending : (l.text ++ name.toList).getLast? = some last := by
    rw [List.getLast?_append, lastOfName, Option.some_or]
  have lastWord : Text.isWordChar last = true :=
    Text.isWordChar_of_mem_identifier named (List.mem_of_getLast? lastOfName)
  have notOperator : isOperatorChar last = false := by
    cases operator : isOperatorChar last with
    | false => rfl
    | true =>
      rw [Text.isWordChar_eq_false_of_isOperatorChar operator] at lastWord
      cases lastWord
  have noCaret : (l.text ++ name.toList).findIdx? (· == '^') = none :=
    findIdx?_beq_eq_none (absent '^' (Or.inr (Or.inr (Or.inl rfl))))
  have noProduct : (l.text ++ name.toList).findIdx? (fun d => d == '*' || d == '/') = none := by
    rw [List.findIdx?_eq_none_iff]
    intro d mem
    simp only [Bool.or_eq_false_iff, beq_eq_false_iff_ne, ne_eq]
    exact ⟨fun star => absent d (Or.inl star) mem, fun slash => absent d (Or.inr (Or.inl slash)) mem⟩
  have signFree : ∀ d ∈ name.toList, isSignChar d = false := fun d mem =>
    isSignChar_eq_false_of_isWordChar (Text.isWordChar_of_mem_identifier named mem)
  have keys : Workspace.initial.Placeholders := fun _ mem => by cases mem
  obtain ⟨m, w, resolved, tree, -⟩ := resolveLeaf_scientific_name wf l markerFree keys known
  refine ⟨.binary .mul (.const (ComplexFloat.ofReal l.value)) m, w, ?_,
    by simp [Tree.eraseLeaves, tree]⟩
  rw [resolveExpression_of_flat (absent '(' (Or.inr (Or.inr (Or.inr (Or.inl rfl)))))
      (absent ')' (Or.inr (Or.inr (Or.inr (Or.inr rfl))))) signed ending notOperator noCaret,
    resolveSum_of_none (additiveSplit?_scientific l signFree), resolveProduct_of_none noProduct]
  exact resolved

end Resolving

/-! ## A bracketed group after the literal -/

section Held

variable (scope : Scope) (l : ScientificLiteral) {w : Workspace} (keys : w.Placeholders)
  {n : Nat} {t : Tree}
  (holding : w.pending.find? (·.1 == placeholderText n) = some (placeholderText n, t))
include keys holding

/-- The literal right before a held placeholder, juxtaposed or with the product written out,
is the literal's value times the placeholder's tree, and the placeholder is taken out: the
placeholder is found before any name inside the literal. -/
theorem resolveSum_scientific_held :
    resolveSum scope (l.text ++ placeholderText n) w =
        .ok (.binary .mul (.const (ComplexFloat.ofReal l.value)) t, w.without (placeholderText n)) ∧
      resolveSum scope (l.text ++ '*' :: placeholderText n) w =
        .ok (.binary .mul (.const (ComplexFloat.ofReal l.value)) t, w.without (placeholderText n)) := by
  have placeholderSignFree : ∀ d ∈ placeholderText n, isSignChar d = false :=
    fun _ => isSignChar_eq_false_of_mem_placeholderText
  have barFree : '|' ∉ l.text := l.punctuation_not_mem (by decide) (by decide) rfl
  have productFree : ∀ d ∈ l.text, (d == '*' || d == '/') = false := by
    intro d mem
    have notStar : d ≠ '*' := fun same =>
      l.punctuation_not_mem (by decide) (by decide) rfl (same ▸ mem)
    have notSlash : d ≠ '/' := fun same =>
      l.punctuation_not_mem (by decide) (by decide) rfl (same ▸ mem)
    simp only [Bool.or_eq_false_iff, beq_eq_false_iff_ne]
    exact ⟨notStar, notSlash⟩
  have juxtaposedProduct :
      (l.text ++ placeholderText n).findIdx? (fun c => c == '*' || c == '/') = none :=
    List.findIdx?_eq_none_iff.mpr (List.forall_mem_append.mpr
      ⟨productFree, fun d mem => productSplit_eq_false (noOperator_placeholderText _ d mem)⟩)
  have literal : ∀ v : Workspace,
      resolveLeaf scope l.text v = .ok (.const (ComplexFloat.ofReal l.value), v) :=
    resolveLeaf_literal scope none l.unsigned
  constructor
  · rw [resolveSum_of_none (additiveSplit?_scientific l placeholderSignFree),
      resolveProduct_of_none juxtaposedProduct,
      resolveLeaf_before_held scope keys holding barFree l.text_ne_nil, literal]
    rfl
  · rw [resolveSum_of_none (additiveSplit?_scientific l
        (List.forall_mem_cons.mpr ⟨rfl, placeholderSignFree⟩)),
      resolveProduct_before_held scope keys holding productFree barFree, literal]
    rfl

end Held

section Group

variable {scope : Scope} (wf : scope.WellFormed) (l : ScientificLiteral)
include wf

/-- The literal before a group that resolves alone, juxtaposed or with the product written
out: the group is resolved first, from the same state as alone, and the text becomes the
literal's value times the group's tree; both runs end in the same state. -/
theorem resolveExpression_scientific_group {S : List Char} {rawS : Tree} {wS : Workspace}
    (resolvedS : resolveExpression scope S Workspace.initial = .ok (rawS, wS)) :
    ∃ w, resolveExpression scope (l.text ++ '(' :: (S ++ [')'])) Workspace.initial =
        .ok (.binary .mul (.const (ComplexFloat.ofReal l.value)) rawS, w) ∧
      resolveExpression scope (l.text ++ '*' :: '(' :: (S ++ [')'])) Workspace.initial =
        .ok (.binary .mul (.const (ComplexFloat.ofReal l.value)) rawS, w) ∧
      w.occurrences = wS.occurrences := by
  have inner : Balanced S := Balanced.of_openAfter? (openAfter?_of_initial resolvedS)
  have clear : wS.pending = [] :=
    (resolveExpression_resolved wf _ (Workspace.sound_initial _) resolvedS).of_initial.1
  have keys : (wS.withMinted rawS).Placeholders := (holding_single clear rawS).1
  have holding := (holding_single clear rawS).2
  obtain ⟨juxtaposed, written⟩ := resolveSum_scientific_held scope l keys holding
  have noOpening : '(' ∉ l.text := l.punctuation_not_mem (by decide) (by decide) rfl
  have noClosing : ')' ∉ l.text := l.punctuation_not_mem (by decide) (by decide) rfl
  obtain ⟨placeholderOpening, placeholderClosing⟩ := roundFree_placeholderText (wS.minted + 1)
  have signed : ∀ R, (l.text ++ R).any isOperatorChar = true := fun R =>
    List.any_eq_true.mpr ⟨l.sign.char, List.mem_append_left _ (by simp [ScientificLiteral.text]),
      by cases l.sign <;> rfl⟩
  have caretFree : ∀ R, '^' ∉ R → (l.text ++ R).findIdx? (· == '^') = none := fun R absent =>
    findIdx?_beq_eq_none (List.not_mem_append
      (l.punctuation_not_mem (by decide) (by decide) rfl) absent)
  have placeholderCaret : '^' ∉ placeholderText (wS.minted + 1) := fun mem =>
    absurd (noOperator_placeholderText _ '^' mem) (by decide)
  -- after the group, what is left of each text is a sum
  have flatJuxtaposed : resolveExpression scope (l.text ++ placeholderText (wS.minted + 1)) =
      resolveSum scope (l.text ++ placeholderText (wS.minted + 1)) :=
    resolveExpression_of_flat (List.not_mem_append noOpening placeholderOpening)
      (List.not_mem_append noClosing placeholderClosing) (signed _)
      (getLast?_append_placeholderText _ _) rfl (caretFree _ placeholderCaret)
  have starred : l.text ++ '*' :: placeholderText (wS.minted + 1) =
      l.text ++ ['*'] ++ placeholderText (wS.minted + 1) := by simp
  have lastWritten : (l.text ++ '*' :: placeholderText (wS.minted + 1)).getLast? = some '|' := by
    rw [starred]
    exact getLast?_append_placeholderText _ _
  have flatWritten :
      resolveExpression scope (l.text ++ '*' :: placeholderText (wS.minted + 1)) =
        resolveSum scope (l.text ++ '*' :: placeholderText (wS.minted + 1)) := by
    refine resolveExpression_of_flat ?_ ?_ (signed _) lastWritten rfl
      (caretFree _ (List.not_mem_cons_of_ne_of_not_mem (by decide) placeholderCaret))
    · exact List.not_mem_append noOpening
        (List.not_mem_cons_of_ne_of_not_mem (by decide) placeholderOpening)
    · exact List.not_mem_append noClosing
        (List.not_mem_cons_of_ne_of_not_mem (by decide) placeholderClosing)
  have operatorBefore : OperatorBefore (l.text ++ ['*']) := by
    intro c last
    rw [List.getLast?_append, List.getLast?_singleton, Option.some_or, Option.some.injEq] at last
    rw [← last]
    rfl
  refine ⟨(wS.withMinted rawS).without (placeholderText (wS.minted + 1)), ?_, ?_, rfl⟩
  · rw [← List.append_nil (S ++ [')']), List.append_assoc S, List.singleton_append,
      resolveExpression_group_unnamed noOpening l.suffixOf?_text inner,
      Resolve.bind_of_ok resolvedS, Resolve.bind_of_ok (mint_apply _ _), List.append_nil,
      flatJuxtaposed]
    exact juxtaposed
  · rw [show l.text ++ '*' :: '(' :: (S ++ [')']) = l.text ++ ['*'] ++ '(' :: (S ++ ')' :: [])
        by simp,
      resolveExpression_group_after
        (List.not_mem_append noOpening (by decide))
        operatorBefore inner,
      Resolve.bind_of_ok resolvedS, Resolve.bind_of_ok (mint_apply _ _), List.append_nil,
      ← starred, flatWritten]
    exact written

end Group

/-! ## Compiling the juxtaposition -/

/-- A literal in scientific notation followed by a known name compiles, without folding, to
the literal's value times the name, the same tree as the product written out, when the
literal's exponent marker is no name the scope knows. -/
theorem compile_scientific_before_name {table : ConstantTable} {names declared : List String}
    (constantsChecked : Compiler.checkConstants table = .ok ())
    (variablesChecked : Compiler.declareVariables table names = .ok declared)
    (l : ScientificLiteral) (markerFree : ¬Scope.Knows ⟨table, declared⟩ (String.ofList [l.marker]))
    {name : String} (known : Scope.Knows ⟨table, declared⟩ name) :
    ∃ e e', Compiler.compile ⟨table, BracketGlyphs.standard, false⟩
        (String.ofList (l.text ++ name.toList)) names = .ok e ∧
      Compiler.compile ⟨table, BracketGlyphs.standard, false⟩
        (String.ofList (l.text ++ '*' :: name.toList)) names = .ok e' ∧
      e.root.eraseLeaves = e'.root.eraseLeaves ∧
      e.root.eraseLeaves =
        .binary .mul (.const (ComplexFloat.ofReal l.value)) (nameTree ⟨table, declared⟩ name) := by
  have wf := Compiler.wellFormed_of_checks constantsChecked variablesChecked
  have named := identifier_of_knows wf known
  obtain ⟨raw, w, resolved, tree⟩ := resolveExpression_scientific_name wf l markerFree known
  -- the product written out is a formula of two operands
  have knownTimes : (l.times name).Known ⟨table, declared⟩ :=
    ⟨trivial, fun entry mem => by
      simp only [ScientificLiteral.times, List.mem_singleton] at mem
      rw [mem]
      exact known⟩
  obtain ⟨raw', w', resolved', tree'⟩ :=
    resolveExpression_formula wf (l.times name) knownTimes (l.readable_times name)
  rw [l.text_times] at resolved'
  have normal : normalize BracketGlyphs.standard (String.ofList (l.text ++ '*' :: name.toList)) =
      .ok (String.ofList (l.text ++ '*' :: name.toList)) := by
    rw [← l.text_times]
    exact normalize_formula wf knownTimes
  refine ⟨_, _, compile_of_resolved constantsChecked variablesChecked
      (normalize_of_formulaChars (List.append_ne_nil_of_left_ne_nil l.text_ne_nil _)
        (l.formulaChars named)) resolved,
    compile_of_resolved constantsChecked variablesChecked normal resolved', ?_, tree⟩
  rw [tree, tree', l.reference_times]

/-- A literal in scientific notation followed by a bracketed expression that compiles alone
compiles, without folding, exactly as the product written out: to the literal's value times
the expression's tree, with the expression's leaves and index. -/
theorem compile_scientific_before_group {table : ConstantTable} {names : List String}
    (l : ScientificLiteral) {s : String} {eₛ : Compiled}
    (compiled : Compiler.compile ⟨table, BracketGlyphs.standard, false⟩ s names = .ok eₛ) :
    Compiler.compile ⟨table, BracketGlyphs.standard, false⟩
        (String.ofList l.text ++ "(" ++ s ++ ")") names =
      .ok ⟨.binary .mul (.const (ComplexFloat.ofReal l.value)) eₛ.root, eₛ.variableNames,
        eₛ.occurrences⟩ ∧
    Compiler.compile ⟨table, BracketGlyphs.standard, false⟩
        (String.ofList l.text ++ "*(" ++ s ++ ")") names =
      .ok ⟨.binary .mul (.const (ComplexFloat.ofReal l.value)) eₛ.root, eₛ.variableNames,
        eₛ.occurrences⟩ := by
  obtain ⟨S, declared, rawS, wS, normalS, constantsChecked, variablesChecked, resolvedS, rfl⟩ :=
    Compiler.compile_eq_ok compiled
  have wf := Compiler.wellFormed_of_checks constantsChecked variablesChecked
  obtain ⟨w, juxtaposed, written, occurrences⟩ := resolveExpression_scientific_group wf l resolvedS
  obtain ⟨literalForm, starredForm⟩ := l.normalForm_text
  -- the texts around the group are their own normal forms
  have normalJuxtaposed := normalize_group BracketGlyphs.characterwise_standard normalS
    (String.ofList l.text) ""
  rw [String.append_empty, String.toList_ofList, literalForm, String.toList_empty,
    normalForm_nil] at normalJuxtaposed
  have normalWritten := normalize_group BracketGlyphs.characterwise_standard normalS
    (String.ofList (l.text ++ ['*'])) ""
  rw [String.append_empty, String.toList_ofList, starredForm, String.toList_empty,
    normalForm_nil] at normalWritten
  have spelled : String.ofList l.text ++ "*(" ++ s ++ ")" =
      String.ofList (l.text ++ ['*']) ++ "(" ++ s ++ ")" := by
    apply String.toList_injective
    simp
  have compiledJuxtaposed := @Compiler.compile_of_checks ⟨table, BracketGlyphs.standard, false⟩
    _ _ _ _ normalJuxtaposed constantsChecked variablesChecked
  have compiledWritten := @Compiler.compile_of_checks ⟨table, BracketGlyphs.standard, false⟩
    _ _ _ _ normalWritten constantsChecked variablesChecked
  rw [String.toList_ofList, List.append_assoc, List.singleton_append] at compiledWritten
  rw [String.toList_ofList] at compiledJuxtaposed
  rw [compiledJuxtaposed, spelled, compiledWritten, juxtaposed, written]
  -- the literal adds no leaf, and the runs add no occurrence to the group's
  constructor <;>
  · show Except.ok (Compiled.mk _ declared (w.occurrences.retainPresent _)) = _
    rw [occurrences]
    rfl

/-- A literal in scientific notation with a signed exponent next to an operand multiplies it
as the product written out. Before a bracketed expression that compiles alone, whatever the
exponent marker, the juxtaposition compiles exactly as the product: to the literal's value times
the expression's tree. Before a registered constant or declared variable, when the marker is no
name the scope knows, it compiles to the literal's value times the name, the same tree as the
product up to leaf numbers. -/
theorem compile_scientific_juxtaposed {table : ConstantTable} {names declared : List String}
    (constantsChecked : Compiler.checkConstants table = .ok ())
    (variablesChecked : Compiler.declareVariables table names = .ok declared)
    (l : ScientificLiteral) :
    (∀ s eₛ, Compiler.compile ⟨table, BracketGlyphs.standard, false⟩ s names = .ok eₛ →
      Compiler.compile ⟨table, BracketGlyphs.standard, false⟩
          (String.ofList l.text ++ "(" ++ s ++ ")") names =
        .ok ⟨.binary .mul (.const (ComplexFloat.ofReal l.value)) eₛ.root, eₛ.variableNames,
          eₛ.occurrences⟩ ∧
      Compiler.compile ⟨table, BracketGlyphs.standard, false⟩
          (String.ofList l.text ++ "*(" ++ s ++ ")") names =
        .ok ⟨.binary .mul (.const (ComplexFloat.ofReal l.value)) eₛ.root, eₛ.variableNames,
          eₛ.occurrences⟩) ∧
    (¬Scope.Knows ⟨table, declared⟩ (String.ofList [l.marker]) →
      ∀ name, Scope.Knows ⟨table, declared⟩ name →
      ∃ e e', Compiler.compile ⟨table, BracketGlyphs.standard, false⟩
          (String.ofList (l.text ++ name.toList)) names = .ok e ∧
        Compiler.compile ⟨table, BracketGlyphs.standard, false⟩
          (String.ofList (l.text ++ '*' :: name.toList)) names = .ok e' ∧
        e.root.eraseLeaves = e'.root.eraseLeaves ∧
        e.root.eraseLeaves =
          .binary .mul (.const (ComplexFloat.ofReal l.value)) (nameTree ⟨table, declared⟩ name)) :=
  ⟨fun _ _ compiled => compile_scientific_before_group l compiled,
    fun markerFree _ known =>
      compile_scientific_before_name constantsChecked variablesChecked l markerFree known⟩

/-- The literal `1E-5`. -/
def ScientificLiteral.oneEMinusFive : ScientificLiteral :=
  ⟨['1'], 'E', .minus, ['5'], .whole (List.cons_ne_nil _ _) (by simp [Literal.Digits]; rfl),
    Or.inr rfl, List.cons_ne_nil _ _, by simp [Literal.Digits]; rfl⟩

/-- The literal `1e-5`, whose marker is the built-in constant `e`. -/
def ScientificLiteral.oneSmallEMinusFive : ScientificLiteral :=
  ⟨['1'], 'e', .minus, ['5'], .whole (List.cons_ne_nil _ _) (by simp [Literal.Digits]; rfl),
    Or.inl rfl, List.cons_ne_nil _ _, by simp [Literal.Digits]; rfl⟩

set_option maxRecDepth 4000 in
/-- `1e-5(x)` is `1e-5*(x)` though `e` is a constant, and `1E-5pi` is `1E-5*pi`. -/
theorem compile_scientific_group_and_pi :
    Compiler.compile ⟨ConstantTable.builtin, BracketGlyphs.standard, false⟩
        (String.ofList ScientificLiteral.oneSmallEMinusFive.text ++ "(" ++ "x" ++ ")") ["x"] =
      .ok ⟨.binary .mul (.const (ComplexFloat.ofReal ScientificLiteral.oneSmallEMinusFive.value))
        (.var 0 0), ["x"], ⟨[("x", [0])]⟩⟩ ∧
    Compiler.compile ⟨ConstantTable.builtin, BracketGlyphs.standard, false⟩
        (String.ofList ScientificLiteral.oneSmallEMinusFive.text ++ "*(" ++ "x" ++ ")") ["x"] =
      .ok ⟨.binary .mul (.const (ComplexFloat.ofReal ScientificLiteral.oneSmallEMinusFive.value))
        (.var 0 0), ["x"], ⟨[("x", [0])]⟩⟩ ∧
    ∃ e e', Compiler.compile ⟨ConstantTable.builtin, BracketGlyphs.standard, false⟩
        (String.ofList (ScientificLiteral.oneEMinusFive.text ++ "pi".toList)) ["x"] = .ok e ∧
      Compiler.compile ⟨ConstantTable.builtin, BracketGlyphs.standard, false⟩
        (String.ofList (ScientificLiteral.oneEMinusFive.text ++ '*' :: "pi".toList)) ["x"] =
          .ok e' ∧
      e.root.eraseLeaves = e'.root.eraseLeaves ∧
      e.root.eraseLeaves = .binary .mul
        (.const (ComplexFloat.ofReal ScientificLiteral.oneEMinusFive.value))
        (nameTree ⟨ConstantTable.builtin, ["x"]⟩ "pi") := by
  have variablesChecked :
      Compiler.declareVariables ConstantTable.builtin ["x"] = .ok ["x"] := rfl
  have x : Compiler.compile ⟨ConstantTable.builtin, BracketGlyphs.standard, false⟩ "x" ["x"] =
      .ok ⟨.var 0 0, ["x"], ⟨[("x", [0])]⟩⟩ := by
    decide +kernel
  obtain ⟨group, -⟩ := compile_scientific_juxtaposed rfl variablesChecked
    ScientificLiteral.oneSmallEMinusFive
  obtain ⟨-, name⟩ := compile_scientific_juxtaposed rfl variablesChecked
    ScientificLiteral.oneEMinusFive
  exact ⟨(group "x" _ x).1, (group "x" _ x).2,
    name (by unfold Scope.Knows ConstantTable.builtin ConstantTable.names; decide) "pi"
      (Or.inl (by unfold ConstantTable.builtin ConstantTable.names; decide))⟩

/-- A marker that is a constant splits the literal: `1e-5pi` is `(1 * e) * (-5 * pi)`, while
the product written out is `1e-5 * pi`. -/
theorem compile_marker_constant_splits_literal :
    (Compiler.compile ⟨ConstantTable.builtin, BracketGlyphs.standard, false⟩ "1e-5pi" []).map
        (·.root) =
      .ok (.binary .mul
        (.binary .mul (.const (ComplexFloat.ofReal 1))
          (.const (ComplexFloat.ofReal ConstantTable.eulerNumber)))
        (.binary .mul (.const (ComplexFloat.ofReal (-5)))
          (.const (ComplexFloat.ofReal ConstantTable.piValue)))) ∧
    (Compiler.compile ⟨ConstantTable.builtin, BracketGlyphs.standard, false⟩ "1e-5*pi" []).map
        (·.root) =
      .ok (.binary .mul (.const (ComplexFloat.ofReal ScientificLiteral.oneSmallEMinusFive.value))
        (.const (ComplexFloat.ofReal ConstantTable.piValue))) := by
  constructor <;> decide +kernel

end ComplexFormula
