import ComplexFormula.Proofs.Splitting

/-!
# Sums and products of items

Once the powers are folded, what stands between two operators is an item: an operand, or a
placeholder with an optional sign in front that holds the tree of a run of powers. The text
is a chain of items joined by `+ - * /`. This module proves that `resolveSum` gives such a
chain the tree of the precedence grammar: it splits at the last `+` or `-` between items,
so sums group to the left (`resolveSum_chain`), and `resolveProduct` splits at the first `*`
or `/`, so products group to the right (`resolveProduct_chain`).

The split positions come from the text: inside an item the only signs are its own sign,
which follows an operator or stands first, and the exponent sign of a literal
(`isAdditiveSplit_inside_item`); the operator after an item always splits
(`isAdditiveSplit_after_item`).

Placeholders are consumed from the left: a workspace `Holds` the placeholders of the items
still to resolve, in their order, with leaf numbers erased.
-/

namespace ComplexFormula

/-! ## Items -/

/-- What stands between two operators once the powers are folded: an operand, or a
placeholder with an optional sign in front, standing for a tree. -/
inductive Item where
  | operand (a : Operand)
  | held (sign : Option Sign) (n : Nat) (tree : Tree)

namespace Item

/-- The text of an item. -/
def text : Item → List Char
  | operand a => a.text
  | held sign n _ => signText sign ++ placeholderText n

/-- The tree an item stands for. -/
def tree (scope : Scope) : Item → Tree
  | operand a => a.tree scope
  | held sign _ t => signTree sign t

/-- The names of an item are known to the scope. -/
def Known (scope : Scope) : Item → Prop
  | operand a => a.atom.Known scope
  | held _ _ _ => True

/-- The placeholder an item holds, with the tree it stands for. -/
def entries : Item → List (List Char × Tree)
  | operand _ => []
  | held _ n t => [(placeholderText n, t)]

end Item

/-- The pieces of a chain, from the left. -/
def Chain.pieces {α : Type} (c : Chain α) : List α := c.first :: c.rest.map (·.2)

theorem Chain.text_cons {α : Type} (piece : α → List Char) (x y : α) (op : BinaryOp)
    (rest : List (BinaryOp × α)) :
    Chain.text piece ⟨x, (op, y) :: rest⟩ = piece x ++ op.symbol :: Chain.text piece ⟨y, rest⟩ := by
  simp [Chain.text]

theorem Chain.text_snoc {α : Type} (piece : α → List Char) (x y : α) (op : BinaryOp)
    (rest : List (BinaryOp × α)) :
    Chain.text piece ⟨x, rest ++ [(op, y)]⟩ = Chain.text piece ⟨x, rest⟩ ++ op.symbol :: piece y := by
  simp [Chain.text]

theorem BinaryOp.isOperatorChar_symbol (op : BinaryOp) : isOperatorChar op.symbol = true := by
  cases op <;> rfl

/-! ## The characters of an item -/

/-- An item's name is a name. -/
def Item.Named : Item → Prop
  | operand ⟨_, .name n⟩ => Text.isIdentifierChars n.toList = true
  | _ => True

theorem Item.named_of_known {scope : Scope} (wf : scope.WellFormed) {x : Item}
    (known : x.Known scope) : x.Named := by
  match x, known with
  | .operand ⟨_, .literal _ _⟩, _ => trivial
  | .operand ⟨_, .name n⟩, known =>
    rcases known with constant | declared
    · exact wf.constantsNamed n constant
    · exact wf.variablesNamed n declared
  | .held _ _ _, _ => trivial

theorem OperatorBefore.append {front more : List Char} (left : OperatorBefore front)
    (right : OperatorBefore more) : OperatorBefore (front ++ more) := by
  intro c last
  rw [List.getLast?_append] at last
  cases ending : more.getLast? with
  | none =>
    rw [ending, Option.none_or] at last
    exact left c last
  | some d =>
    rw [ending, Option.some_or] at last
    exact right c (ending.trans last)

theorem OperatorBefore.nil : OperatorBefore [] := by
  intro c last
  cases last

theorem OperatorBefore.concat (front : List Char) {o : Char} (operator : isOperatorChar o = true) :
    OperatorBefore (front ++ [o]) := by
  intro c last
  rw [List.getLast?_concat] at last
  cases last
  exact operator

theorem OperatorBefore.signText (sign : Option Sign) : OperatorBefore (signText sign) := by
  cases sign with
  | none => exact OperatorBefore.nil
  | some s =>
    intro c last
    cases last
    cases s <;> rfl

theorem isSignChar_eq_false_of_isWordChar {c : Char} (word : Text.isWordChar c = true) :
    isSignChar c = false := by
  cases sign : isSignChar c with
  | false => rfl
  | true =>
    have operator : isOperatorChar c = true := by
      simp only [isSignChar, Bool.or_eq_true, beq_iff_eq] at sign
      rcases sign with rfl | rfl <;> rfl
    rw [Text.isWordChar_eq_false_of_isOperatorChar operator] at word
    cases word

theorem isSignChar_eq_false_of_mem_placeholderText {c : Char} {n : Nat}
    (mem : c ∈ placeholderText n) : isSignChar c = false := by
  rcases mem_placeholderText mem with rfl | rfl | digit
  · rfl
  · rfl
  · cases sign : isSignChar c with
    | false => rfl
    | true =>
      simp only [isSignChar, Bool.or_eq_true, beq_iff_eq] at sign
      rcases sign with rfl | rfl <;> exact absurd digit (by decide)

theorem isSignChar_eq_false_of_literalChar {c : Char}
    (literalChar : Decimal.isDigit c = true ∨ c = '.') : isSignChar c = false := by
  rcases literalChar with digit | rfl
  · cases sign : isSignChar c with
    | false => rfl
    | true =>
      simp only [isSignChar, Bool.or_eq_true, beq_iff_eq] at sign
      rcases sign with rfl | rfl <;> exact absurd digit (by decide)
  · rfl

/-- The only sign inside an unsigned literal is the sign of its exponent. -/
theorem Literal.Unsigned.sign_position {lit : List Char} (unsigned : Literal.Unsigned lit) {k : Nat}
    {c : Char} (at_k : lit[k]? = some c) (sign : isSignChar c = true) :
    ∃ M marker D, lit = M ++ marker :: c :: D ∧ k = M.length + 1 ∧ Literal.Mantissa M ∧
      (marker = 'e' ∨ marker = 'E') ∧ Literal.Digits D ∧ D ≠ [] := by
  obtain ⟨m, x, rfl, mantissa, exponent⟩ := unsigned
  have notInMantissa : m.length ≤ k := by
    rcases Nat.lt_or_ge k m.length with inside | outside
    · rw [List.getElem?_append_left inside] at at_k
      rw [isSignChar_eq_false_of_literalChar (mantissa.mem (List.mem_of_getElem? at_k))] at sign
      cases sign
    · exact outside
  rw [List.getElem?_append_right notInMantissa] at at_k
  cases exponent with
  | none => simp at at_k
  | @marked marker signPart ds isMarker signed nonempty digits =>
    have notDigit : ∀ d ∈ ds, isSignChar d = false := fun d mem =>
      isSignChar_eq_false_of_literalChar (Or.inl (digits d mem))
    rcases signed with rfl | rfl | rfl
    · -- no sign: the character is the marker or a digit
      cases same : k - m.length with
      | zero =>
        rw [same] at at_k
        obtain rfl : marker = c := by simpa using at_k
        rcases isMarker with rfl | rfl <;> cases sign
      | succ i =>
        rw [same] at at_k
        simp only [List.cons_append, List.nil_append, List.getElem?_cons_succ] at at_k
        rw [notDigit c (List.mem_of_getElem? at_k)] at sign
        cases sign
    all_goals
      cases same : k - m.length with
      | zero =>
        rw [same] at at_k
        obtain rfl : marker = c := by simpa using at_k
        rcases isMarker with rfl | rfl <;> cases sign
      | succ i =>
        cases i with
        | zero =>
          rw [same] at at_k
          simp only [List.cons_append, List.getElem?_cons_succ, List.getElem?_cons_zero,
            Option.some.injEq] at at_k
          subst at_k
          exact ⟨m, marker, ds, by simp, by omega, mantissa, isMarker, digits, nonempty⟩
        | succ i =>
          rw [same] at at_k
          simp only [List.cons_append, List.getElem?_cons_succ] at at_k
          rw [notDigit c (List.mem_of_getElem? at_k)] at sign
          cases sign

/-- The only punctuation in an item: signs, the point of a literal and the bars of a
placeholder. -/
theorem Item.mem_text {x : Item} (named : x.Named) {c : Char} (mem : c ∈ x.text)
    (punctuation : c ∈ Text.punctuation) : c = '+' ∨ c = '-' ∨ c = '.' ∨ c = '|' := by
  have notDigit : ∀ d ∈ Text.punctuation, Decimal.isDigit d = false := by
    have checked : Text.punctuation.all (fun d => !Decimal.isDigit d) = true := by decide
    simpa using checked
  have notLetter : ∀ d ∈ Text.punctuation, d ≠ 'e' ∧ d ≠ 'E' ∧ d ≠ '_' := by
    have checked : Text.punctuation.all (fun d => d != 'e' && d != 'E' && d != '_') = true := by
      decide
    simpa [and_assoc] using checked
  have notSign : ∀ sign : Option Sign, c ∈ signText sign → c = '+' ∨ c = '-' := by
    intro sign inSign
    rcases sign with _ | _ | _ <;> simp_all [signText, Sign.char]
  cases x with
  | operand a =>
    obtain ⟨sign, atom⟩ := a
    rcases List.mem_append.mp mem with inSign | inAtom
    · rcases notSign sign inSign with rfl | rfl <;> simp
    · cases atom with
      | literal lit unsigned =>
        rcases unsigned.mem inAtom with digit | rfl | rfl | rfl | rfl | rfl
        · rw [notDigit c punctuation] at digit
          cases digit
        · simp
        · exact absurd rfl (notLetter _ punctuation).1
        · exact absurd rfl (notLetter _ punctuation).2.1
        · simp
        · simp
      | name n => exact absurd inAtom (Text.not_mem_identifier named punctuation)
  | held sign n _ =>
    rcases List.mem_append.mp mem with inSign | inPlaceholder
    · rcases notSign sign inSign with rfl | rfl <;> simp
    · rcases mem_placeholderText inPlaceholder with rfl | rfl | digit
      · simp
      · exact absurd rfl (notLetter _ punctuation).2.2
      · rw [show c.isDigit = Decimal.isDigit c from rfl, notDigit c punctuation] at digit
        cases digit

/-- No item holds `*`, `/`, `^` or a round bracket. -/
theorem Item.not_mem_text {x : Item} (named : x.Named) {c : Char}
    (stray : c = '*' ∨ c = '/' ∨ c = '^' ∨ c = '(' ∨ c = ')') : c ∉ x.text := fun mem => by
  rcases stray with rfl | rfl | rfl | rfl | rfl <;>
    · have := Item.mem_text named mem (by decide)
      revert this
      decide

/-! ## Where the text of items splits -/

theorem isOperatorChar_of_isSignChar {c : Char} (sign : isSignChar c = true) :
    isOperatorChar c = true := by
  simp only [isSignChar, Bool.or_eq_true, beq_iff_eq] at sign
  rcases sign with rfl | rfl <;> rfl

/-- A position in a signed text lies in the sign, which is then the first character, or in
the body. -/
theorem signText_getElem? {sign : Option Sign} {body : List Char} {k : Nat} {c : Char}
    (at_k : (signText sign ++ body)[k]? = some c) :
    k = 0 ∨ (signText sign).length ≤ k ∧ body[k - (signText sign).length]? = some c := by
  rcases Nat.lt_or_ge k (signText sign).length with inSign | inBody
  · have short : (signText sign).length ≤ 1 := by cases sign <;> simp [signText]
    exact Or.inl (by omega)
  · rw [List.getElem?_append_right inBody] at at_k
    exact Or.inr ⟨inBody, at_k⟩

/-- A sign in an item is the item's own sign, at its start, or the exponent sign of its
literal. -/
theorem Item.sign_position {x : Item} (named : x.Named) {k : Nat} {c : Char}
    (at_k : x.text[k]? = some c) (sign : isSignChar c = true) :
    k = 0 ∨ ∃ F M marker D, x.text = F ++ M ++ marker :: c :: D ∧ k = F.length + M.length + 1 ∧
      OperatorBefore F ∧ Literal.Mantissa M ∧ (marker = 'e' ∨ marker = 'E') ∧
      Literal.Digits D ∧ D ≠ [] := by
  match x, named with
  | .operand ⟨s, atom⟩, named =>
    rcases signText_getElem? at_k with first | ⟨inBody, at_body⟩
    · exact Or.inl first
    · cases atom with
      | literal lit unsigned =>
        obtain ⟨M, marker, D, same, position, mantissa, isMarker, digits, nonempty⟩ :=
          unsigned.sign_position at_body sign
        dsimp only at inBody position
        refine Or.inr ⟨signText s, M, marker, D, ?_, by omega, OperatorBefore.signText s,
          mantissa, isMarker, digits, nonempty⟩
        simp [Item.text, Operand.text, Atom.text, same]
      | name n =>
        have word := Text.isWordChar_of_mem_identifier named (List.mem_of_getElem? at_body)
        rw [isSignChar_eq_false_of_isWordChar word] at sign
        cases sign
  | .held s n _, _ =>
    rcases signText_getElem? at_k with first | ⟨inBody, at_body⟩
    · exact Or.inl first
    · rw [isSignChar_eq_false_of_mem_placeholderText (List.mem_of_getElem? at_body)] at sign
      cases sign

/-- Right before a part that starts with an operator and follows an operator boundary stands
an operator; at the start of the text the test reads the first character itself. -/
theorem operator_before_start {front rest : List Char} {c : Char} (boundary : OperatorBefore front)
    (first : rest[0]? = some c) (operator : isOperatorChar c = true) :
    ∃ p, (front ++ rest)[front.length + 0 - 1]? = some p ∧ isOperatorChar p = true := by
  rcases List.eq_nil_or_concat front with rfl | ⟨F, q, rfl⟩
  · exact ⟨c, by simpa using first, operator⟩
  · refine ⟨q, by simp, boundary q (by simp)⟩

/-- No position inside an item splits a sum: its own sign follows an operator or starts the
text, and the sign of a literal's exponent is an exponent sign. -/
theorem isAdditiveSplit_inside_item {front back : List Char} (boundary : OperatorBefore front)
    {x : Item} (named : x.Named) {k : Nat} (inside : k < x.text.length) :
    isAdditiveSplit (front ++ x.text ++ back) (front.length + k) = false := by
  obtain ⟨c, at_k⟩ : ∃ c, x.text[k]? = some c := ⟨_, List.getElem?_eq_getElem inside⟩
  have at_pos : (front ++ x.text ++ back)[front.length + k]? = some c := by
    rw [List.append_assoc, List.getElem?_append_right (by omega), Nat.add_sub_cancel_left,
      List.getElem?_append_left inside, at_k]
  cases sign : isSignChar c with
  | false => exact isAdditiveSplit_of_not_sign at_pos sign
  | true =>
    rcases Item.sign_position named at_k sign with rfl |
      ⟨F, M, marker, D, same, rfl, before, mantissa, isMarker, digits, nonempty⟩
    · have first : (x.text ++ back)[0]? = some c := by
        rw [List.getElem?_append_left inside, at_k]
      obtain ⟨p, at_before, operator⟩ :=
        operator_before_start boundary first (isOperatorChar_of_isSignChar sign)
      rw [← List.append_assoc] at at_before
      exact isAdditiveSplit_after_operator at_before operator
    · apply isAdditiveSplit_of_exponentSign
      rw [same, show front ++ (F ++ M ++ marker :: c :: D) ++ back =
          (front ++ F) ++ M ++ marker :: c :: (D ++ back) by simp,
        show front.length + (F.length + M.length + 1) = (front ++ F).length + M.length + 1 by
          simp only [List.length_append]; omega]
      exact isExponentSign_literal (boundary.append before) mantissa isMarker digits nonempty

/-- Before a character that is no exponent marker, no sign is an exponent sign. -/
theorem isExponentSign_after_nonmarker {text : List Char} {idx : Nat} {p : Char}
    (before : text[idx - 1]? = some p) (notSmall : p ≠ 'e') (notCapital : p ≠ 'E') :
    Literal.isExponentSign text idx = false := by
  simp [Literal.isExponentSign, before, notSmall, notCapital]

/-- The character right before what follows a text is the text's last one. -/
theorem getElem?_length_sub_one {A B : List Char} {p : Char} (last : A.getLast? = some p) :
    (A ++ B)[A.length - 1]? = some p := by
  have nonempty : A.length ≠ 0 := by
    intro empty
    rw [List.length_eq_zero_iff.mp empty] at last
    cases last
  rw [List.getElem?_append_left (by omega), ← List.getLast?_eq_getElem?, last]

/-- A literal with a sign in front ends where the literal ends, with a digit or a point. -/
theorem getLast?_signed_literal (sign : Option Sign) {lit : List Char}
    (unsigned : Literal.Unsigned lit) :
    ∃ p, (signText sign ++ lit).getLast? = some p ∧ (Decimal.isDigit p = true ∨ p = '.') := by
  cases last : lit.getLast? with
  | none =>
    obtain ⟨c, r, same, -⟩ := unsigned.head
    rw [same] at last
    simp at last
  | some p => exact ⟨p, by rw [List.getLast?_append, last, Option.some_or], unsigned.getLast? last⟩

/-- A text that ends with a placeholder ends with its bar. -/
theorem getLast?_append_placeholderText (front : List Char) (n : Nat) :
    (front ++ placeholderText n).getLast? = some '|' := by
  rw [placeholderText, ← List.append_assoc, List.getLast?_append]
  rfl

/-- An item ends with a character that is no operator. -/
theorem Item.getLast?_text {x : Item} (named : x.Named) :
    ∃ p, x.text.getLast? = some p ∧ isOperatorChar p = false := by
  match x, named with
  | .operand ⟨s, .literal lit unsigned⟩, _ =>
    obtain ⟨p, last, digitOrPoint⟩ := getLast?_signed_literal s unsigned
    refine ⟨p, last, ?_⟩
    cases operator : isOperatorChar p with
    | false => rfl
    | true =>
      obtain ⟨notDigit, notPoint, -⟩ := Literal.literalChars_of_isOperatorChar operator
      rcases digitOrPoint with digit | point
      · rw [digit] at notDigit
        cases notDigit
      · exact absurd point notPoint
  | .operand ⟨s, .name n⟩, named =>
    cases last : n.toList.getLast? with
    | none => exact absurd (List.getLast?_eq_none_iff.mp last) (Text.ne_nil_of_identifier named)
    | some p =>
      refine ⟨p, ?_, Text.isOperatorChar_eq_false_of_mem_identifier named
        (List.mem_of_getLast? last)⟩
      simp only [Item.text, Operand.text, Atom.text, List.getLast?_append, last, Option.some_or]
  | .held s n _, _ => exact ⟨'|', getLast?_append_placeholderText _ n, rfl⟩

/-- The sign after an item is no exponent sign: a literal ends with a digit or a point, a
placeholder with a bar, and after a name the test sees the name's first letter. -/
theorem isExponentSign_after_item {front back : List Char} {o : Char}
    (boundary : OperatorBefore front) {x : Item} (named : x.Named) :
    Literal.isExponentSign (front ++ x.text ++ o :: back) (front.length + x.text.length) =
      false := by
  have before : ∀ {p}, x.text.getLast? = some p →
      (front ++ x.text ++ o :: back)[front.length + x.text.length - 1]? = some p := by
    intro p last
    have whole : (front ++ x.text).getLast? = some p := by
      rw [List.getLast?_append, last, Option.some_or]
    rw [List.append_assoc, ← List.append_assoc, ← List.length_append]
    exact getElem?_length_sub_one whole
  match x, named with
  | .operand ⟨s, .name n⟩, named =>
    have afterName : Literal.isExponentSign ((front ++ signText s) ++ n.toList ++ o :: back)
        ((front ++ signText s).length + n.toList.length) = false :=
      isExponentSign_after_name (boundary.append (OperatorBefore.signText s)) named
    simpa [Item.text, Operand.text, Atom.text, Nat.add_assoc] using afterName
  | .operand ⟨s, .literal lit unsigned⟩, _ =>
    obtain ⟨p, last, digitOrPoint⟩ := getLast?_signed_literal s unsigned
    have notMarker : p ≠ 'e' ∧ p ≠ 'E' := by
      rcases digitOrPoint with digit | rfl
      · constructor <;> (rintro rfl; cases digit)
      · decide
    exact isExponentSign_after_nonmarker (before last) notMarker.1 notMarker.2
  | .held s n _, _ =>
    exact isExponentSign_after_nonmarker (before (getLast?_append_placeholderText _ n)) (by decide) (by decide)

/-- The sign between two items splits a sum. -/
theorem isAdditiveSplit_after_item {front back : List Char} {o : Char}
    (boundary : OperatorBefore front) {x : Item} (named : x.Named) (sign : isSignChar o = true) :
    isAdditiveSplit (front ++ x.text ++ o :: back) (front.length + x.text.length) = true := by
  obtain ⟨p, last, notOperator⟩ := x.getLast?_text named
  have whole : (front ++ x.text).getLast? = some p := by
    rw [List.getLast?_append, last, Option.some_or]
  have at_sign : (front ++ x.text ++ o :: back)[front.length + x.text.length]? = some o := by
    rw [← List.length_append, List.getElem?_append_right (Nat.le_refl _), Nat.sub_self]
    rfl
  have before : (front ++ x.text ++ o :: back)[front.length + x.text.length - 1]? = some p := by
    rw [← List.length_append]
    exact getElem?_length_sub_one whole
  exact isAdditiveSplit_eq_true at_sign sign before notOperator
    (isExponentSign_after_item boundary named)

/-! ## Chains in general -/

section Grouping

variable {α β : Type} (split : BinaryOp → Bool)

theorem Chain.pieces_cons (x y : α) (op : BinaryOp) (rest : List (BinaryOp × α)) :
    (Chain.mk x ((op, y) :: rest)).pieces = x :: (Chain.mk y rest).pieces := rfl

theorem Chain.pieces_snoc (x y : α) (op : BinaryOp) (rest : List (BinaryOp × α)) :
    (Chain.mk x (rest ++ [(op, y)])).pieces = (Chain.mk x rest).pieces ++ [y] := by
  simp [Chain.pieces]

/-- The last piece of a chain. -/
def Chain.last (c : Chain α) : α := (c.rest.getLast?.map (·.2)).getD c.first

theorem Chain.last_mem (c : Chain α) : c.last ∈ c.pieces := by
  obtain ⟨x, rest⟩ := c
  rcases List.eq_nil_or_concat rest with rfl | ⟨rest', ⟨op, y⟩, rfl⟩
  · simp [Chain.last, Chain.pieces]
  · simp [Chain.last, Chain.pieces]

/-- A chain's text is its last piece after a text that is empty or ends with an operator. -/
theorem Chain.text_last (piece : α → List Char) (c : Chain α) :
    ∃ P, Chain.text piece c = P ++ piece c.last ∧ OperatorBefore P := by
  obtain ⟨x, rest⟩ := c
  rcases List.eq_nil_or_concat rest with rfl | ⟨rest', ⟨op, y⟩, rfl⟩
  · exact ⟨[], by simp [Chain.text, Chain.last], OperatorBefore.nil⟩
  · refine ⟨Chain.text piece ⟨x, rest'⟩ ++ [op.symbol], ?_,
      OperatorBefore.concat _ op.isOperatorChar_symbol⟩
    rw [List.concat_eq_append, Chain.text_snoc]
    simp [Chain.last]

/-- Grouping keeps the text. -/
theorem Chain.text_groupFrom (piece : α → List Char) (x : α) (rest : List (BinaryOp × α)) :
    Chain.text (Chain.text piece) (Chain.groupFrom split x rest) = Chain.text piece ⟨x, rest⟩ := by
  induction rest generalizing x with
  | nil => simp [Chain.groupFrom, Chain.text]
  | cons entry rest inductionHypothesis =>
    obtain ⟨op, y⟩ := entry
    have later := inductionHypothesis y
    rw [Chain.groupFrom, Chain.text_cons, ← later]
    cases split op <;> simp [Chain.text]

theorem Chain.text_group (piece : α → List Char) (c : Chain α) :
    Chain.text (Chain.text piece) (c.group split) = Chain.text piece c :=
  Chain.text_groupFrom split piece c.first c.rest

/-- Grouping commutes with mapping the pieces. -/
theorem Chain.groupFrom_map (f : α → β) (x : α) (rest : List (BinaryOp × α)) :
    Chain.groupFrom split (f x) (rest.map fun entry => (entry.1, f entry.2)) =
      (Chain.groupFrom split x rest).map (Chain.map f) := by
  induction rest generalizing x with
  | nil => rfl
  | cons entry rest inductionHypothesis =>
    obtain ⟨op, y⟩ := entry
    simp only [List.map_cons, Chain.groupFrom, inductionHypothesis y]
    cases split op <;> simp [Chain.map]

theorem Chain.group_map (f : α → β) (c : Chain α) :
    (c.map f).group split = (c.group split).map (Chain.map f) :=
  Chain.groupFrom_map split f c.first c.rest

/-- The operators between groups are those that split. -/
theorem Chain.groupFrom_outer (x : α) (rest : List (BinaryOp × α)) :
    ∀ e ∈ (Chain.groupFrom split x rest).rest, split e.1 = true := by
  induction rest generalizing x with
  | nil => simp [Chain.groupFrom]
  | cons entry rest inductionHypothesis =>
    obtain ⟨op, y⟩ := entry
    cases splits : split op with
    | true =>
      simp only [Chain.groupFrom, splits, ↓reduceIte, List.mem_cons]
      rintro e (rfl | later)
      · exact splits
      · exact inductionHypothesis y e later
    | false =>
      simp only [Chain.groupFrom, splits, Bool.false_eq_true, ↓reduceIte]
      exact inductionHypothesis y

/-- The operators within a group are those that do not split, and each is one of the
chain's. -/
theorem Chain.groupFrom_inner {P : BinaryOp → Prop} (x : α) (rest : List (BinaryOp × α))
    (all : ∀ e ∈ rest, P e.1) :
    ∀ g ∈ (Chain.groupFrom split x rest).pieces, ∀ e ∈ g.rest, split e.1 = false ∧ P e.1 := by
  induction rest generalizing x with
  | nil => simp [Chain.groupFrom, Chain.pieces]
  | cons entry rest inductionHypothesis =>
    obtain ⟨op, y⟩ := entry
    have later := inductionHypothesis y fun e mem => all e (List.mem_cons_of_mem _ mem)
    have here : P op := all (op, y) List.mem_cons_self
    cases splits : split op with
    | true =>
      simp only [Chain.groupFrom, splits, ↓reduceIte, Chain.pieces, List.map_cons,
        List.mem_cons]
      rintro g (rfl | rfl | inRest) e inGroup
      · cases inGroup
      · exact later _ (by simp [Chain.pieces]) e inGroup
      · exact later g (by simp [Chain.pieces, inRest]) e inGroup
    | false =>
      simp only [Chain.groupFrom, splits, Bool.false_eq_true, ↓reduceIte, Chain.pieces,
        List.mem_cons]
      rintro g (rfl | inRest) e inGroup
      · rcases List.mem_cons.mp inGroup with rfl | inFirst
        · exact ⟨splits, here⟩
        · exact later _ (by simp [Chain.pieces]) e inFirst
      · exact later g (by simp [Chain.pieces, inRest]) e inGroup

/-- The groups hold the pieces of the chain, in order. -/
theorem Chain.pieces_groupFrom (x : α) (rest : List (BinaryOp × α)) :
    (Chain.groupFrom split x rest).pieces.flatMap Chain.pieces = (Chain.mk x rest).pieces := by
  induction rest generalizing x with
  | nil => rfl
  | cons entry rest inductionHypothesis =>
    obtain ⟨op, y⟩ := entry
    have later := inductionHypothesis y
    cases splits : split op with
    | true =>
      simp only [Chain.groupFrom, splits, ↓reduceIte]
      simpa [Chain.pieces] using later
    | false =>
      simp only [Chain.groupFrom, splits, Bool.false_eq_true, ↓reduceIte]
      simpa [Chain.pieces] using later

end Grouping

theorem Chain.map_cons {α β : Type} (f : α → β) (x y : α) (op : BinaryOp)
    (rest : List (BinaryOp × α)) :
    (Chain.mk x ((op, y) :: rest)).map f =
      ⟨f x, (op, f y) :: ((Chain.mk y rest).map f).rest⟩ := rfl

theorem Chain.map_snoc {α β : Type} (f : α → β) (x y : α) (op : BinaryOp)
    (rest : List (BinaryOp × α)) :
    (Chain.mk x (rest ++ [(op, y)])).map f = ⟨f x, ((Chain.mk x rest).map f).rest ++ [(op, f y)]⟩ := by
  simp [Chain.map]

theorem Chain.rightTree_cons (t u : Tree) (op : BinaryOp) (rest : List (BinaryOp × Tree)) :
    (Chain.mk t ((op, u) :: rest)).rightTree = .binary op t (Chain.mk u rest).rightTree := rfl

theorem Chain.leftTree_snoc (t u : Tree) (op : BinaryOp) (rest : List (BinaryOp × Tree)) :
    (Chain.mk t (rest ++ [(op, u)])).leftTree = .binary op (Chain.mk t rest).leftTree u := by
  simp [Chain.leftTree, List.foldl_append]

/-! ## Placeholders consumed from the left -/

/-- The pending placeholders, in order and with their trees up to leaf numbers, are the given
entries, and their texts are distinct placeholders. -/
structure Workspace.Holds (w : Workspace) (entries : List (List Char × Tree)) : Prop where
  keys : w.Placeholders
  distinct : (w.pending.map (·.1)).Nodup
  held : w.pending.map (fun entry => (entry.1, entry.2.eraseLeaves)) = entries

theorem Workspace.Holds.of_pending {w w' : Workspace} {entries : List (List Char × Tree)}
    (holds : w.Holds entries) (same : w'.pending = w.pending) : w'.Holds entries where
  keys := by
    unfold Workspace.Placeholders
    rw [same]
    exact holds.keys
  distinct := same ▸ holds.distinct
  held := same ▸ holds.held

/-- An item resolves to its tree, up to leaf numbers; a placeholder it holds is the first
pending one, and is consumed. -/
theorem resolveLeaf_item {scope : Scope} (wf : scope.WellFormed) {w : Workspace} {x : Item}
    (known : x.Known scope) {later : List (List Char × Tree)}
    (holds : w.Holds (x.entries ++ later)) :
    ∃ t w', resolveLeaf scope x.text w = .ok (t, w') ∧ t.eraseLeaves = x.tree scope ∧
      w'.Holds later := by
  cases x with
  | operand a =>
    obtain ⟨t, w', resolved, tree, pending, -⟩ := resolveLeaf_operand wf holds.keys a known
    exact ⟨t, w', resolved, tree, holds.of_pending pending⟩
  | held sign n t =>
    have listed : w.pending.map (fun entry => (entry.1, entry.2.eraseLeaves)) =
        (placeholderText n, t) :: later := holds.held
    obtain ⟨⟨key, stored⟩, rest, same, first, restHeld⟩ := List.map_eq_cons_iff.mp listed
    obtain ⟨rfl, erased⟩ := Prod.mk.inj first
    have distinct := holds.distinct
    rw [same, List.map_cons, List.nodup_cons] at distinct
    have holding : w.pending.find? (·.1 == placeholderText n) = some (placeholderText n, stored) := by
      rw [same, List.find?_cons]
      simp
    have remaining : w.pending.filter (·.1 != placeholderText n) = rest := by
      rw [same, List.filter_cons]
      simp only [bne_self_eq_false, Bool.false_eq_true, ↓reduceIte, List.filter_eq_self,
        bne_iff_ne, ne_eq]
      intro entry inRest isKey
      exact distinct.1 (List.mem_map.mpr ⟨entry, inRest, isKey⟩)
    refine ⟨signTree sign stored, _, resolveLeaf_held holds.keys sign holding, ?_, ?_⟩
    · simp [Tree.eraseLeaves_signTree, erased, Item.tree]
    · refine ⟨fun entry inRest => holds.keys entry ?_, ?_, ?_⟩
      · rw [remaining] at inRest
        rw [same]
        exact List.mem_cons_of_mem _ inRest
      · simpa [remaining] using distinct.2
      · simpa [remaining] using restHeld

/-! ## Products -/

theorem resolveProduct_of_none {scope : Scope} {text : List Char}
    (noneFound : text.findIdx? (fun c => c == '*' || c == '/') = none) :
    resolveProduct scope text = resolveLeaf scope text := by
  rw [resolveProduct]
  split
  · next found =>
    rw [noneFound] at found
    cases found
  · rfl

theorem resolveProduct_of_some {scope : Scope} {text : List Char} {idx : Nat}
    (found : text.findIdx? (fun c => c == '*' || c == '/') = some idx) :
    resolveProduct scope text = (do
      let left ← resolveLeaf scope (text.take idx)
      let right ← resolveProduct scope (text.drop (idx + 1))
      pure (.binary (splitOperator text idx) left right)) := by
  rw [resolveProduct]
  split
  · next idx' found' =>
    rw [found] at found'
    cases found'
    rfl
  · next found' =>
    rw [found] at found'
    cases found'

/-- A character that a text lacks is not found in it. -/
theorem findIdx?_beq_eq_none {c : Char} {text : List Char} (absent : c ∉ text) :
    text.findIdx? (· == c) = none := by
  rw [List.findIdx?_eq_none_iff]
  intro d mem
  simp only [beq_eq_false_iff_ne, ne_eq]
  rintro rfl
  exact absent mem

/-- A character is found where it first stands. -/
theorem findIdx?_beq_append_cons {c : Char} {front : List Char} (absent : c ∉ front)
    (rest : List Char) : (front ++ c :: rest).findIdx? (· == c) = some front.length := by
  rw [List.findIdx?_append, findIdx?_beq_eq_none absent, List.findIdx?_cons]
  simp

/-- No item holds `*` or `/`. -/
theorem findIdx?_item {x : Item} (named : x.Named) :
    x.text.findIdx? (fun c => c == '*' || c == '/') = none := by
  have notStar : '*' ∉ x.text := Item.not_mem_text named (Or.inl rfl)
  have notSlash : '/' ∉ x.text := Item.not_mem_text named (Or.inr (Or.inl rfl))
  rw [List.findIdx?_eq_none_iff]
  intro c mem
  simp only [Bool.or_eq_false_iff, beq_eq_false_iff_ne, ne_eq]
  exact ⟨fun star => notStar (star ▸ mem), fun slash => notSlash (slash ▸ mem)⟩

/-- A product splits at the operator after its first item. -/
theorem findIdx?_product {x : Item} (named : x.Named) {op : BinaryOp}
    (multiplicative : op = .mul ∨ op = .div) (rest : List Char) :
    (x.text ++ op.symbol :: rest).findIdx? (fun c => c == '*' || c == '/') =
      some x.text.length := by
  rw [List.findIdx?_append, findIdx?_item named, List.findIdx?_cons]
  rcases multiplicative with rfl | rfl <;> simp [BinaryOp.symbol]

/-- The operator read at a split is the one written there. -/
theorem splitOperator_symbol (front rest : List Char) {op : BinaryOp} (notPow : op ≠ .pow) :
    splitOperator (front ++ op.symbol :: rest) front.length = op := by
  have at_op : (front ++ op.symbol :: rest)[front.length]? = some op.symbol := by simp
  unfold splitOperator
  rw [at_op]
  cases op with
  | pow => exact absurd rfl notPow
  | add | sub | mul | div => rfl

/-- A product of items joined by `*` and `/` resolves to its pieces grouped to the right,
consuming their placeholders in order. -/
theorem resolveProduct_chain {scope : Scope} (wf : scope.WellFormed) (p : Chain Item)
    (multiplicative : ∀ e ∈ p.rest, e.1 = .mul ∨ e.1 = .div)
    (known : ∀ x ∈ p.pieces, x.Known scope) {w : Workspace} {later : List (List Char × Tree)}
    (holds : w.Holds (p.pieces.flatMap Item.entries ++ later)) :
    ∃ t w', resolveProduct scope (Chain.text Item.text p) w = .ok (t, w') ∧
      t.eraseLeaves = (p.map (Item.tree scope)).rightTree ∧ w'.Holds later := by
  obtain ⟨x, rest⟩ := p
  induction rest generalizing x w with
  | nil =>
    have knownX := known x List.mem_cons_self
    have single : Chain.text Item.text ⟨x, []⟩ = x.text := by simp [Chain.text]
    rw [single, resolveProduct_of_none (findIdx?_item (Item.named_of_known wf knownX))]
    exact resolveLeaf_item wf knownX (by simpa [Chain.pieces] using holds)
  | cons entry rest inductionHypothesis =>
    obtain ⟨op, y⟩ := entry
    have opMultiplicative := multiplicative (op, y) List.mem_cons_self
    have knownX := known x List.mem_cons_self
    have notPow : op ≠ .pow := by rcases opMultiplicative with rfl | rfl <;> decide
    rw [Chain.pieces_cons, List.flatMap_cons, List.append_assoc] at holds
    obtain ⟨left, w₁, leftResolved, leftTree, holds₁⟩ := resolveLeaf_item wf knownX holds
    obtain ⟨right, w₂, rightResolved, rightTree, holds₂⟩ :=
      inductionHypothesis y (fun e mem => multiplicative e (List.mem_cons_of_mem _ mem))
        (fun z mem => known z (List.mem_cons_of_mem _ mem)) holds₁
    have taken : (x.text ++ op.symbol :: Chain.text Item.text ⟨y, rest⟩).take x.text.length =
        x.text := List.take_left
    have dropped : (x.text ++ op.symbol :: Chain.text Item.text ⟨y, rest⟩).drop
        (x.text.length + 1) = Chain.text Item.text ⟨y, rest⟩ := by simp
    refine ⟨.binary op left right, w₂, ?_, ?_, holds₂⟩
    · rw [Chain.text_cons, resolveProduct_of_some (findIdx?_product
          (Item.named_of_known wf knownX) opMultiplicative _), taken, dropped,
        splitOperator_symbol _ _ notPow, Resolve.bind_of_ok leftResolved,
        Resolve.bind_of_ok rightResolved]
      rfl
    · rw [Chain.map_cons, Chain.rightTree_cons]
      simp only [Tree.eraseLeaves, leftTree, rightTree]
      rfl

/-- No position inside a product of items splits a sum. -/
theorem isAdditiveSplit_inside_product {front back : List Char} (boundary : OperatorBefore front)
    (p : Chain Item) (multiplicative : ∀ e ∈ p.rest, e.1 = .mul ∨ e.1 = .div)
    (named : ∀ x ∈ p.pieces, x.Named) {k : Nat} (inside : k < (Chain.text Item.text p).length) :
    isAdditiveSplit (front ++ Chain.text Item.text p ++ back) (front.length + k) = false := by
  obtain ⟨x, rest⟩ := p
  induction rest generalizing x front k with
  | nil =>
    have single : Chain.text Item.text ⟨x, []⟩ = x.text := by simp [Chain.text]
    rw [single] at inside ⊢
    exact isAdditiveSplit_inside_item boundary (named x List.mem_cons_self) inside
  | cons entry rest inductionHypothesis =>
    obtain ⟨op, y⟩ := entry
    have opMultiplicative := multiplicative (op, y) List.mem_cons_self
    have namedX := named x List.mem_cons_self
    rw [Chain.text_cons] at inside ⊢
    simp only [List.length_append, List.length_cons] at inside
    -- the position is in the first item, at the operator after it, or in the rest
    rcases Nat.lt_or_ge k x.text.length with inX | afterX
    · rw [show front ++ (x.text ++ op.symbol :: Chain.text Item.text ⟨y, rest⟩) ++ back =
          front ++ x.text ++ (op.symbol :: Chain.text Item.text ⟨y, rest⟩ ++ back) by simp]
      exact isAdditiveSplit_inside_item boundary namedX inX
    · rcases Nat.eq_or_lt_of_le afterX with rfl | beyond
      · have at_op : (front ++ (x.text ++ op.symbol :: Chain.text Item.text ⟨y, rest⟩) ++
            back)[front.length + x.text.length]? = some op.symbol := by
          rw [show front ++ (x.text ++ op.symbol :: Chain.text Item.text ⟨y, rest⟩) ++ back =
              (front ++ x.text) ++ op.symbol :: (Chain.text Item.text ⟨y, rest⟩ ++ back) by simp,
            ← List.length_append, List.getElem?_append_right (Nat.le_refl _), Nat.sub_self]
          rfl
        refine isAdditiveSplit_of_not_sign at_op ?_
        rcases opMultiplicative with rfl | rfl <;> rfl
      · have inRest : k - x.text.length - 1 < (Chain.text Item.text ⟨y, rest⟩).length := by
          omega
        have later := inductionHypothesis
          (OperatorBefore.concat (front ++ x.text) op.isOperatorChar_symbol) y
          (fun e mem => multiplicative e (List.mem_cons_of_mem _ mem))
          (fun z mem => named z (List.mem_cons_of_mem _ mem)) inRest
        rw [show front ++ x.text ++ [op.symbol] ++ Chain.text Item.text ⟨y, rest⟩ ++ back =
            front ++ (x.text ++ op.symbol :: Chain.text Item.text ⟨y, rest⟩) ++ back by simp,
          show (front ++ x.text ++ [op.symbol]).length + (k - x.text.length - 1) =
            front.length + k by simp only [List.length_append, List.length_singleton]; omega]
          at later
        exact later

/-! ## Sums -/

theorem resolveSum_of_none {scope : Scope} {text : List Char}
    (noneFound : additiveSplit? text = none) :
    resolveSum scope text = resolveProduct scope text := by
  rw [resolveSum]
  split
  · next found =>
    rw [noneFound] at found
    cases found
  · rfl

theorem resolveSum_of_some {scope : Scope} {text : List Char} {idx : Nat}
    (found : additiveSplit? text = some idx) :
    resolveSum scope text = (do
      let left ← resolveSum scope (text.take idx)
      let right ← resolveProduct scope (text.drop (idx + 1))
      pure (.binary (splitOperator text idx) left right)) := by
  rw [resolveSum]
  split
  · next idx' found' =>
    rw [found] at found'
    cases found'
    rfl
  · next found' =>
    rw [found] at found'
    cases found'

/-- A product of items is no sum. -/
theorem additiveSplit?_product (p : Chain Item)
    (multiplicative : ∀ e ∈ p.rest, e.1 = .mul ∨ e.1 = .div) (named : ∀ x ∈ p.pieces, x.Named) :
    additiveSplit? (Chain.text Item.text p) = none := by
  apply additiveSplit?_eq_none
  intro j _ fits
  have inside : isAdditiveSplit ([] ++ Chain.text Item.text p ++ []) ([].length + j) = false :=
    isAdditiveSplit_inside_product OperatorBefore.nil p multiplicative named (by omega)
  simpa using inside

theorem Item.text_ne_nil {x : Item} (named : x.Named) : x.text ≠ [] := by
  obtain ⟨p, last, -⟩ := x.getLast?_text named
  intro empty
  rw [empty] at last
  cases last

/-- A sign between an item, after an operator boundary, and a product of items is where a sum
splits: no later sign splits, those of the product following an operator or belonging to the
exponent of a literal. -/
theorem additiveSplit?_before_product {front : List Char} (boundary : OperatorBefore front)
    {x : Item} (named : x.Named) {op : BinaryOp} (sign : isSignChar op.symbol = true)
    (p : Chain Item) (multiplicative : ∀ e ∈ p.rest, e.1 = .mul ∨ e.1 = .div)
    (namedP : ∀ y ∈ p.pieces, y.Named) :
    additiveSplit? (front ++ x.text ++ op.symbol :: Chain.text Item.text p) =
      some (front ++ x.text).length := by
  generalize leftText : front ++ x.text = L
  generalize rightText : Chain.text Item.text p = R
  obtain ⟨Q, pLast, -⟩ := Chain.text_last Item.text p
  have rightNonempty : R ≠ [] := by
    rw [← rightText, pLast]
    exact List.append_ne_nil_of_right_ne_nil _ (Item.text_ne_nil (namedP _ (Chain.last_mem p)))
  have leftLength : 1 ≤ L.length := by
    rw [← leftText, List.length_append]
    have := List.length_pos_iff.mpr (Item.text_ne_nil named)
    omega
  have rightLength := List.length_pos_iff.mpr rightNonempty
  have splitsHere : isAdditiveSplit (L ++ op.symbol :: R) L.length = true := by
    rw [← leftText, List.length_append]
    exact isAdditiveSplit_after_item boundary named sign
  have noLater : ∀ j, L.length < j → j + 2 ≤ (L ++ op.symbol :: R).length →
      isAdditiveSplit (L ++ op.symbol :: R) j = false := by
    intro j above fits
    simp only [List.length_append, List.length_cons] at fits
    have inRight : j - L.length - 1 < (Chain.text Item.text p).length := by
      rw [rightText]
      omega
    have inside : isAdditiveSplit (L ++ [op.symbol] ++ Chain.text Item.text p ++ [])
        ((L ++ [op.symbol]).length + (j - L.length - 1)) = false :=
      isAdditiveSplit_inside_product (OperatorBefore.concat L op.isOperatorChar_symbol) p
        multiplicative namedP inRight
    rw [rightText, show (L ++ [op.symbol]).length + (j - L.length - 1) = j by
      simp only [List.length_append, List.length_singleton]; omega] at inside
    simpa using inside
  exact (additiveSplit?_eq_some_iff _ _).mpr ⟨leftLength, by simp; omega, splitsHere, noLater⟩

/-- A sum of products of items, the products joined by `+` and `-` and the items of a product
by `*` and `/`, resolves to its terms grouped to the left, each a product grouped to the
right; the placeholders are consumed in order. -/
theorem resolveSum_chain {scope : Scope} (wf : scope.WellFormed) (terms : Chain (Chain Item))
    (additive : ∀ e ∈ terms.rest, e.1.isAdditive = true)
    (multiplicative : ∀ p ∈ terms.pieces, ∀ e ∈ p.rest, e.1 = .mul ∨ e.1 = .div)
    (known : ∀ p ∈ terms.pieces, ∀ x ∈ p.pieces, x.Known scope) {w : Workspace}
    {later : List (List Char × Tree)}
    (holds : w.Holds ((terms.pieces.flatMap fun p => p.pieces.flatMap Item.entries) ++ later)) :
    ∃ t w', resolveSum scope (Chain.text (Chain.text Item.text) terms) w = .ok (t, w') ∧
      t.eraseLeaves = ((terms.map (Chain.map (Item.tree scope))).map Chain.rightTree).leftTree ∧
      w'.Holds later := by
  obtain ⟨p₀, rest⟩ := terms
  -- the last `+` or `-` splits: induction on the terms from the right
  obtain ⟨reversed, rfl⟩ : ∃ reversed, rest = reversed.reverse := ⟨rest.reverse, by simp⟩
  induction reversed generalizing w later with
  | nil =>
    have single : Chain.text (Chain.text Item.text) ⟨p₀, []⟩ = Chain.text Item.text p₀ := by
      simp [Chain.text]
    have productOnly := multiplicative p₀ List.mem_cons_self
    have knownP := known p₀ List.mem_cons_self
    rw [List.reverse_nil, single, resolveSum_of_none (additiveSplit?_product p₀ productOnly
      fun x mem => Item.named_of_known wf (knownP x mem))]
    exact resolveProduct_chain wf p₀ productOnly knownP (by simpa [Chain.pieces] using holds)
  | cons last reversed inductionHypothesis =>
    obtain ⟨op, p⟩ := last
    rw [List.reverse_cons] at additive multiplicative known holds ⊢
    rw [Chain.pieces_snoc] at multiplicative known
    rw [Chain.pieces_snoc, List.flatMap_append, List.flatMap_cons, List.flatMap_nil,
      List.append_nil, List.append_assoc] at holds
    have opAdditive : op.isAdditive = true := additive (op, p) (by simp)
    have notPow : op ≠ .pow := by
      rintro rfl
      cases opAdditive
    have sign : isSignChar op.symbol = true := by
      cases op with
      | add | sub => rfl
      | mul | div | pow => cases opAdditive
    have productOnly := multiplicative p (by simp)
    have knownP := known p (by simp)
    -- the text before the last term ends with an item after an operator boundary
    generalize leftText : Chain.text (Chain.text Item.text) ⟨p₀, reversed.reverse⟩ = L
    generalize rightText : Chain.text Item.text p = R
    obtain ⟨P, lastTerm, boundaryP⟩ :=
      Chain.text_last (Chain.text Item.text) ⟨p₀, reversed.reverse⟩
    obtain ⟨P', lastItem, boundaryP'⟩ :=
      Chain.text_last Item.text (Chain.mk p₀ reversed.reverse).last
    have namedLast : (Chain.mk p₀ reversed.reverse).last.last.Named :=
      Item.named_of_known wf (known _ (List.mem_append_left _ (Chain.last_mem _)) _
        (Chain.last_mem _))
    have leftShape : L = (P ++ P') ++ (Chain.mk p₀ reversed.reverse).last.last.text := by
      rw [← leftText, lastTerm, lastItem, List.append_assoc]
    have found : additiveSplit? (L ++ op.symbol :: R) = some L.length := by
      rw [leftShape, ← rightText]
      exact additiveSplit?_before_product (boundaryP.append boundaryP') namedLast sign p
        productOnly fun x mem => Item.named_of_known wf (knownP x mem)
    obtain ⟨left, w₁, leftResolved, leftTree, holds₁⟩ := inductionHypothesis
      (fun e mem => additive e (List.mem_append_left _ mem))
      (fun q mem => multiplicative q (List.mem_append_left _ mem))
      (fun q mem => known q (List.mem_append_left _ mem)) holds
    obtain ⟨right, w₂, rightResolved, rightTree, holds₂⟩ :=
      resolveProduct_chain wf p productOnly knownP holds₁
    rw [leftText] at leftResolved
    rw [rightText] at rightResolved
    refine ⟨.binary op left right, w₂, ?_, ?_, holds₂⟩
    · rw [Chain.text_snoc, leftText, rightText, resolveSum_of_some found, List.take_left,
        show (L ++ op.symbol :: R).drop (L.length + 1) = R by simp,
        splitOperator_symbol _ _ notPow, Resolve.bind_of_ok leftResolved,
        Resolve.bind_of_ok rightResolved]
      rfl
    · rw [Chain.map_snoc, Chain.map_snoc, Chain.leftTree_snoc]
      simp only [Tree.eraseLeaves, leftTree, rightTree]
      rfl

end ComplexFormula
