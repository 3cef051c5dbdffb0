import ComplexFormula.Proofs.Leaves

/-!
# Where a sum splits

`resolveSum` splits its text at the last position that `isAdditiveSplit` accepts: a `+` or
`-` that follows no operator and is not the exponent sign of a literal. This module turns the
search into a statement about positions (`additiveSplit?_eq_some_iff`) and computes the test
at the positions a formula's text has:

* the sign of an operand follows an operator, or stands first;
* the sign in a literal's exponent is an exponent sign when no word character, digit or point
  stands right before the literal (`isExponentSign_literal`);
* the sign after a name is none, even when the name ends in `e` or `E` after digits: such
  digits are the tail of the name, not a mantissa (`isExponentSign_after_name`).
-/

namespace ComplexFormula

/-! ## The last split -/

/-- Searching `n, n - 1, …, 1` finds the largest number that passes. -/
theorem find?_descending (p : Nat → Bool) (n i : Nat) :
    ((List.range n).reverse.map (· + 1)).find? p = some i ↔
      1 ≤ i ∧ i ≤ n ∧ p i = true ∧ ∀ j, i < j → j ≤ n → p j = false := by
  induction n with
  | zero =>
    simp only [List.range_zero, List.reverse_nil, List.map_nil, List.find?_nil, reduceCtorEq,
      false_iff]
    omega
  | succ n inductionHypothesis =>
    rw [List.range_succ, List.reverse_append, List.map_append]
    simp only [List.reverse_cons, List.reverse_nil, List.nil_append, List.map_cons, List.map_nil,
      List.singleton_append, List.find?_cons]
    cases passes : p (n + 1) with
    | true =>
      simp only [Option.some.injEq]
      constructor
      · rintro rfl
        exact ⟨by omega, Nat.le_refl _, passes, fun j above below => by omega⟩
      · rintro ⟨-, below, -, later⟩
        by_cases top : i = n + 1
        · exact top.symm
        · have := later (n + 1) (by omega) (Nat.le_refl _)
          rw [passes] at this
          cases this
    | false =>
      rw [inductionHypothesis]
      constructor
      · rintro ⟨low, high, holds, later⟩
        refine ⟨low, by omega, holds, fun j above below => ?_⟩
        by_cases top : j = n + 1
        · rw [top]
          exact passes
        · exact later j above (by omega)
      · rintro ⟨low, high, holds, later⟩
        have notTop : i ≠ n + 1 := by
          rintro rfl
          rw [passes] at holds
          cases holds
        exact ⟨low, by omega, holds, fun j above below => later j above (by omega)⟩

/-- A sum splits at the last position, neither first nor last, that the test accepts. -/
theorem additiveSplit?_eq_some_iff (text : List Char) (i : Nat) :
    additiveSplit? text = some i ↔
      1 ≤ i ∧ i + 2 ≤ text.length ∧ isAdditiveSplit text i = true ∧
        ∀ j, i < j → j + 2 ≤ text.length → isAdditiveSplit text j = false := by
  unfold additiveSplit?
  rw [find?_descending]
  constructor
  · rintro ⟨low, high, holds, later⟩
    exact ⟨low, by omega, holds, fun j above below => later j above (by omega)⟩
  · rintro ⟨low, high, holds, later⟩
    exact ⟨low, by omega, holds, fun j above below => later j above (by omega)⟩

/-- A text without a split position is no sum. -/
theorem additiveSplit?_eq_none {text : List Char}
    (noSplit : ∀ j, 1 ≤ j → j + 2 ≤ text.length → isAdditiveSplit text j = false) :
    additiveSplit? text = none := by
  unfold additiveSplit?
  rw [List.find?_eq_none]
  intro j listed
  simp only [List.mem_map, List.mem_reverse, List.mem_range] at listed
  obtain ⟨k, below, rfl⟩ := listed
  rw [noSplit (k + 1) (by omega) (by omega)]
  exact Bool.false_ne_true

/-! ## The test at one position -/

theorem isAdditiveSplit_of_not_sign {text : List Char} {j : Nat} {c : Char}
    (at_j : text[j]? = some c) (notSign : isSignChar c = false) : isAdditiveSplit text j = false := by
  simp [isAdditiveSplit, at_j, notSign]

theorem isAdditiveSplit_after_operator {text : List Char} {j : Nat} {p : Char}
    (before : text[j - 1]? = some p) (operator : isOperatorChar p = true) :
    isAdditiveSplit text j = false := by
  simp [isAdditiveSplit, before, operator]

theorem isAdditiveSplit_of_exponentSign {text : List Char} {j : Nat}
    (exponent : Literal.isExponentSign text j = true) : isAdditiveSplit text j = false := by
  simp [isAdditiveSplit, exponent]

theorem isAdditiveSplit_eq_true {text : List Char} {j : Nat} {o p : Char}
    (at_j : text[j]? = some o) (sign : isSignChar o = true) (before : text[j - 1]? = some p)
    (notOperator : isOperatorChar p = false)
    (notExponent : Literal.isExponentSign text j = false) : isAdditiveSplit text j = true := by
  simp [isAdditiveSplit, at_j, sign, before, notOperator, notExponent]

/-- A sum splits only at a sign. -/
theorem exists_sign_of_isAdditiveSplit {text : List Char} {j : Nat}
    (split : isAdditiveSplit text j = true) : ∃ c, text[j]? = some c ∧ isSignChar c = true := by
  cases atJ : text[j]? with
  | none => simp [isAdditiveSplit, atJ] at split
  | some c =>
    simp only [isAdditiveSplit, atJ, Option.map_some, Option.getD_some, Bool.and_eq_true] at split
    exact ⟨c, rfl, split.1.1⟩

/-! ## Exponent signs -/

/-- The text is empty or ends with an operator: no word character, digit or point stands
right before what follows. -/
def OperatorBefore (front : List Char) : Prop :=
  ∀ c, front.getLast? = some c → isOperatorChar c = true

/-- A character that continues the digits and points of a mantissa. -/
def mantissaChar (c : Char) : Bool := Decimal.isDigit c || c == '.'

/-- The exponent-sign test at the character after a possible exponent marker, in terms of the
text before the marker. -/
theorem isExponentSign_at {P tail : List Char} {m σ : Char} :
    Literal.isExponentSign (P ++ m :: σ :: tail) (P.length + 1) =
      (decide (1 ≤ P.length) && (m == 'e' || m == 'E') &&
        (tail.head?.map Decimal.isDigit).getD false &&
        (P.reverse.takeWhile mantissaChar).any Decimal.isDigit &&
        match P.reverse.drop (P.reverse.takeWhile mantissaChar).length with
        | c :: _ => !Text.isWordChar c
        | [] => true) := by
  have marker : (P ++ m :: σ :: tail)[P.length]? = some m := by simp
  have next : (P ++ m :: σ :: tail)[P.length + 1 + 1]? = tail.head? := by
    rw [List.getElem?_append_right (by omega)]
    simp only [show P.length + 1 + 1 - P.length = 2 by omega, List.getElem?_cons_succ]
    cases tail <;> rfl
  have two : decide (2 ≤ P.length + 1) = decide (1 ≤ P.length) := by
    simp only [decide_eq_decide]
    omega
  have small : (some m == some 'e') = (m == 'e') := rfl
  have capital : (some m == some 'E') = (m == 'E') := rfl
  unfold Literal.isExponentSign
  simp only [Nat.add_sub_cancel, List.take_left]
  rw [marker, next, two, small, capital]
  rfl

/-- Before a text that is empty or ends with an operator, no run of mantissa characters
reaches back. -/
theorem takeWhile_reverse_operatorBefore {front : List Char} (boundary : OperatorBefore front) :
    front.reverse.takeWhile mantissaChar = [] := by
  cases ending : front.reverse with
  | nil => rfl
  | cons c r =>
    have last : front.getLast? = some c := by
      rw [← List.head?_reverse, ending]
      rfl
    obtain ⟨notDigit, notPoint, -, -⟩ := Literal.literalChars_of_isOperatorChar (boundary c last)
    simp [mantissaChar, notDigit, notPoint]

/-- After the longest run that passes, a text goes on with its first element that fails. -/
theorem head_drop_takeWhile {q : Char → Bool} {Y Z : List Char} (fails : ∃ y ∈ Y, q y = false) :
    ∃ c ∈ Y, ((Y ++ Z).drop ((Y ++ Z).takeWhile q).length).head? = some c := by
  induction Y with
  | nil =>
    obtain ⟨y, mem, -⟩ := fails
    cases mem
  | cons y Y inductionHypothesis =>
    cases passes : q y with
    | false => exact ⟨y, List.mem_cons_self, by simp [passes]⟩
    | true =>
      have later : ∃ y' ∈ Y, q y' = false := by
        obtain ⟨y', mem, failing⟩ := fails
        rcases List.mem_cons.mp mem with rfl | inY
        · rw [passes] at failing
          cases failing
        · exact ⟨y', inY, failing⟩
      obtain ⟨c, inY, found⟩ := inductionHypothesis later
      refine ⟨c, List.mem_cons_of_mem y inY, ?_⟩
      simpa [passes] using found

/-- The sign in a literal's exponent is an exponent sign when the literal follows an operator
or starts the text. -/
theorem isExponentSign_literal {front M D rest : List Char} {marker σ : Char}
    (boundary : OperatorBefore front) (mantissa : Literal.Mantissa M)
    (isMarker : marker = 'e' ∨ marker = 'E') (digits : Literal.Digits D) (nonempty : D ≠ []) :
    Literal.isExponentSign (front ++ M ++ marker :: σ :: (D ++ rest))
      (front.length + M.length + 1) = true := by
  obtain ⟨d, D', rfl⟩ := List.exists_cons_of_ne_nil nonempty
  obtain ⟨c, r, rfl, -⟩ := mantissa.head
  have run : ((front ++ c :: r).reverse.takeWhile mantissaChar) = (c :: r).reverse := by
    rw [List.reverse_append, List.takeWhile_append_of_pos, takeWhile_reverse_operatorBefore boundary,
      List.append_nil]
    intro x mem
    rcases mantissa.mem (List.mem_reverse.mp mem) with digit | point
    · simp [mantissaChar, digit]
    · simp [mantissaChar, point]
  have hasDigit : (c :: r).reverse.any Decimal.isDigit = true := by
    obtain ⟨x, mem, digit⟩ := mantissa.exists_digit
    exact List.any_eq_true.mpr ⟨x, List.mem_reverse.mpr mem, digit⟩
  have afterRun : (front ++ c :: r).reverse.drop (c :: r).reverse.length = front.reverse := by
    rw [List.reverse_append, List.drop_left]
  have bounded : (match front.reverse with
      | c :: _ => !Text.isWordChar c
      | [] => true) = true := by
    cases ending : front.reverse with
    | nil => rfl
    | cons x r' =>
      have last : front.getLast? = some x := by
        rw [← List.head?_reverse, ending]
        rfl
      simp [Text.isWordChar_eq_false_of_isOperatorChar (boundary x last)]
  have markerTest : (marker == 'e' || marker == 'E') = true := by
    rcases isMarker with rfl | rfl <;> rfl
  rw [show front ++ c :: r ++ marker :: σ :: (d :: D' ++ rest) =
      (front ++ c :: r) ++ marker :: σ :: (d :: D' ++ rest) from rfl,
    show front.length + (c :: r).length + 1 = (front ++ c :: r).length + 1 by simp,
    isExponentSign_at, run, afterRun, hasDigit, bounded, markerTest]
  simp only [List.length_append, List.length_cons, decide_eq_true_eq, Bool.and_true,
    List.head?_cons, List.cons_append, Option.map_some, Option.getD_some,
    digits d List.mem_cons_self]
  omega

/-- The sign after a name is no exponent sign, even after a name such as `x1e`: the digits
before its `e` are the tail of the name. -/
theorem isExponentSign_after_name {front X B : List Char} {o : Char}
    (boundary : OperatorBefore front) (named : Text.isIdentifierChars X = true) :
    Literal.isExponentSign (front ++ X ++ o :: B) (front.length + X.length) = false := by
  obtain ⟨X', m, rfl⟩ : ∃ X' m, X = X' ++ [m] :=
    ⟨X.dropLast, X.getLast (Text.ne_nil_of_identifier named),
      (List.dropLast_concat_getLast (Text.ne_nil_of_identifier named)).symm⟩
  rw [show front ++ (X' ++ [m]) ++ o :: B = (front ++ X') ++ m :: o :: B by simp,
    show front.length + (X' ++ [m]).length = (front ++ X').length + 1 by simp; omega,
    isExponentSign_at, List.reverse_append]
  cases X' with
  | nil => simp [takeWhile_reverse_operatorBefore boundary]
  | cons first more =>
    -- the name's first letter ends the run, so a character of the name comes right before it
    obtain ⟨first', rest, same, letter, -⟩ := (Text.isIdentifierChars_iff _).mp named
    obtain ⟨rfl, -⟩ := List.cons.inj same
    have fails : ∃ y ∈ (first :: more).reverse, mantissaChar y = false :=
      ⟨first, by simp, by simp [mantissaChar, Text.isDigit_eq_false_of_isAlphabetic letter,
        Text.ne_point_of_isAlphabetic letter]⟩
    obtain ⟨c, inName, found⟩ := @head_drop_takeWhile mantissaChar _ front.reverse fails
    have word : Text.isWordChar c = true :=
      Text.isWordChar_of_mem_identifier named (List.mem_append_left _ (List.mem_reverse.mp inName))
    generalize ((first :: more).reverse ++ front.reverse).drop
      (((first :: more).reverse ++ front.reverse).takeWhile mantissaChar).length = after at found ⊢
    cases after with
    | nil => cases found
    | cons c' _ =>
      obtain rfl : c' = c := Option.some.inj found
      simp [word]

end ComplexFormula
