import Mathlib
import ComplexFormula.Proofs.Powers
import ComplexFormula.Compile

/-!
# Operator precedence

The main result of the resolvers' theory: compiling the text of a formula whose names are all
known, without folding, gives the tree of the precedence grammar (`Formula.reference`), up to
leaf numbers (`compile_follows_precedence`). Runs of powers fold to the left with the sign of
their base outside, products group to the right, sums to the left.

The one exception is `Misread`: a name ending in a mantissa and an exponent marker, `+` or
`-`, and a run of powers whose base is digits alone, as in `x1e-5^2`. The additive splitter
knows that the digits and the `e` of `x1e` are the tail of a name (`isExponentSign` tests the
character before the digits), but the power scanner does not: it reads `1e-5` as the base.
The theorem holds of every formula in which no run is misread (`Formula.Readable`).

The text of a formula is already in normal form, with the standard bracket glyphs: it holds no
white space and no bracket (`normalize_formula`).
-/

namespace ComplexFormula

/-! ## The characters of a formula -/

/-- The characters formulas are written with: operators, and the characters of literals and
names. -/
def FormulaChar (c : Char) : Prop :=
  isOperatorChar c = true ∨ Decimal.isDigit c = true ∨ c = '.' ∨ c = 'e' ∨ c = 'E' ∨
    Text.isWordChar c = true

/-- The characters of an operand: signs, and the characters of literals and names. -/
theorem Operand.mem_text {scope : Scope} (wf : scope.WellFormed) {a : Operand}
    (known : a.atom.Known scope) {c : Char} (mem : c ∈ a.text) : FormulaChar c := by
  obtain ⟨sign, atom⟩ := a
  rcases List.mem_append.mp mem with inSign | inAtom
  · left
    rcases signText_shape sign with same | same | same <;> rw [same] at inSign <;>
      simp at inSign <;> rw [inSign] <;> rfl
  · cases atom with
    | literal lit unsigned =>
      rcases unsigned.mem inAtom with digit | rfl | rfl | rfl | rfl | rfl
      · exact Or.inr (Or.inl digit)
      · exact Or.inr (Or.inr (Or.inl rfl))
      · exact Or.inr (Or.inr (Or.inr (Or.inl rfl)))
      · exact Or.inr (Or.inr (Or.inr (Or.inr (Or.inl rfl))))
      · exact Or.inl rfl
      · exact Or.inl rfl
    | name n =>
      exact Or.inr (Or.inr (Or.inr (Or.inr (Or.inr
        (Text.isWordChar_of_mem_identifier (identifier_of_knows wf known) inAtom)))))

theorem Formula.known_of_mem {scope : Scope} {f : Formula} (known : f.Known scope) {a : Operand}
    (mem : a ∈ f.pieces) : a.atom.Known scope := by
  rcases List.mem_cons.mp mem with rfl | later
  · exact known.1
  · obtain ⟨entry, listed, rfl⟩ := List.mem_map.mp later
    exact known.2 entry listed

/-- The characters of a formula: operators, and the characters of literals and names. -/
theorem Formula.mem_text {scope : Scope} (wf : scope.WellFormed) {f : Formula}
    (known : f.Known scope) {c : Char} (mem : c ∈ f.text) : FormulaChar c := by
  rcases List.mem_append.mp mem with inFirst | inRest
  · exact Operand.mem_text wf known.1 inFirst
  · obtain ⟨entry, listed, inEntry⟩ := List.mem_flatMap.mp inRest
    rcases List.mem_cons.mp inEntry with rfl | inOperand
    · exact Or.inl entry.1.isOperatorChar_symbol
    · exact Operand.mem_text wf (known.2 entry listed) inOperand

/-- A character that is no operator, no character of a literal and no word character is no
character of a formula. -/
theorem not_formulaChar {d : Char} (notOperator : isOperatorChar d = false)
    (notDigit : Decimal.isDigit d = false) (notPoint : d ≠ '.') (notSmall : d ≠ 'e')
    (notCapital : d ≠ 'E') (notWord : Text.isWordChar d = false) : ¬FormulaChar d := by
  rintro (operator | digit | point | small | capital | word)
  · rw [notOperator] at operator
    cases operator
  · rw [notDigit] at digit
    cases digit
  · exact notPoint point
  · exact notSmall small
  · exact notCapital capital
  · rw [notWord] at word
    cases word

/-- Punctuation other than operators and the point is no character of a formula. -/
theorem not_formulaChar_of_punctuation {d : Char} (punctuation : d ∈ Text.punctuation)
    (notOperator : isOperatorChar d = false) (notPoint : d ≠ '.') : ¬FormulaChar d := by
  have notDigit : ∀ c ∈ Text.punctuation, Decimal.isDigit c = false ∧ c ≠ 'e' ∧ c ≠ 'E' := by
    have checked : Text.punctuation.all (fun c => !Decimal.isDigit c && c != 'e' && c != 'E') =
        true := by decide
    simpa [and_assoc] using checked
  obtain ⟨digit, small, capital⟩ := notDigit d punctuation
  exact not_formulaChar notOperator digit notPoint small capital
    (Text.isWordChar_punctuation d punctuation)

/-- No white space lies between `!` and `~`. -/
theorem Text.isWhiteSpace_eq_false_of_printable {c : Char} (low : 0x21 ≤ c.toNat)
    (high : c.toNat ≤ 0x7E) : Text.isWhiteSpace c = false := by
  have outside : ∀ r ∈ Text.whiteSpace, r.2 < 0x21 ∨ 0x7E < r.1 := by decide +kernel
  cases space : Text.isWhiteSpace c with
  | false => rfl
  | true =>
    obtain ⟨r, inTable, lowR, highR⟩ := (Text.CodeRanges.contains_iff Text.whiteSpace c).mp space
    rcases outside r inTable with below | above <;> omega

/-- No character of a formula is white space. -/
theorem FormulaChar.isWhiteSpace_eq_false {c : Char} (char : FormulaChar c) :
    Text.isWhiteSpace c = false := by
  rcases char with operator | digit | rfl | rfl | rfl | word
  · simp only [isOperatorChar, Bool.or_eq_true, beq_iff_eq] at operator
    rcases operator with (((rfl | rfl) | rfl) | rfl) | rfl <;> decide
  · have := Text.toNat_of_isDigit digit
    exact Text.isWhiteSpace_eq_false_of_printable (by omega) (by omega)
  · decide
  · decide
  · decide
  · cases space : Text.isWhiteSpace c with
    | false => rfl
    | true =>
      rw [Text.isWordChar_eq_false_of_isWhiteSpace space] at word
      cases word

/-! ## The normal form of a formula -/

/-- Replacing a pattern whose first character the text lacks changes nothing. -/
theorem replaceAll_of_not_mem {p : Char} {ps : List Char} (replacement : List Char)
    {text : List Char} (absent : p ∉ text) : replaceAll (p :: ps) replacement text = text := by
  rw [replaceAll]
  induction text with
  | nil => rw [replaceAll.go]
  | cons c rest inductionHypothesis =>
    have other : p ≠ c := fun same => absent (same ▸ List.mem_cons_self)
    rw [replaceAll.go, if_neg (by simp [List.isPrefixOf, other]),
      inductionHypothesis (fun mem => absent (List.mem_cons_of_mem c mem))]

/-- A nonempty text without white space and without the standard bracket glyphs is in normal
form. -/
theorem normalize_of_settled {text : List Char} (nonempty : text ≠ [])
    (plain : ∀ c ∈ text, Text.isWhiteSpace c = false)
    (noGlyph : ∀ d ∈ ['[', '\x7b', ']', '\x7d'], d ∉ text) :
    normalize BracketGlyphs.standard (String.ofList text) = .ok (String.ofList text) := by
  obtain ⟨c, r, rfl⟩ := List.exists_cons_of_ne_nil nonempty
  have notBlank : Text.isBlank (String.ofList (c :: r)) = false := by
    rw [Text.isBlank, String.toList_ofList, List.all_cons, plain c List.mem_cons_self]
    rfl
  have stripped : (Text.stripWhiteSpace (String.ofList (c :: r))).toList = c :: r := by
    rw [Text.stripWhiteSpace, String.toList_ofList, String.toList_ofList, List.filter_eq_self]
    intro c mem
    simp [plain c mem]
  have square : "[".toList = ['['] := by decide
  have curly : "\x7b".toList = ['\x7b'] := by decide
  have squareClosing : "]".toList = [']'] := by decide
  have curlyClosing : "\x7d".toList = ['\x7d'] := by decide
  unfold normalize
  rw [notBlank, if_neg Bool.false_ne_true, stripped]
  simp only [BracketGlyphs.standard, List.foldl_cons, List.foldl_nil, square, curly,
    squareClosing, curlyClosing]
  rw [replaceAll_of_not_mem _ (noGlyph '[' (by simp)),
    replaceAll_of_not_mem _ (noGlyph '\x7b' (by simp)),
    replaceAll_of_not_mem _ (noGlyph ']' (by simp)),
    replaceAll_of_not_mem _ (noGlyph '\x7d' (by simp))]

/-- A nonempty text written with the characters of formulas is in normal form: it holds no
white space and none of the standard bracket glyphs. -/
theorem normalize_of_formulaChars {text : List Char} (nonempty : text ≠ [])
    (chars : ∀ c ∈ text, FormulaChar c) :
    normalize BracketGlyphs.standard (String.ofList text) = .ok (String.ofList text) := by
  refine normalize_of_settled nonempty (fun c mem => (chars c mem).isWhiteSpace_eq_false) ?_
  intro d glyph mem
  simp only [List.mem_cons, List.not_mem_nil, or_false] at glyph
  refine not_formulaChar_of_punctuation ?_ ?_ ?_ (chars d mem) <;>
    rcases glyph with rfl | rfl | rfl | rfl <;> decide

theorem Formula.text_ne_nil {scope : Scope} (wf : scope.WellFormed) {f : Formula}
    (known : f.Known scope) : f.text ≠ [] := by
  have named : (Item.operand f.first).Named := Item.named_of_known wf known.1
  intro empty
  simp only [Formula.text, Chain.text, List.append_eq_nil_iff] at empty
  exact Item.text_ne_nil named empty.1

/-- The text of a formula is in normal form. -/
theorem normalize_formula {scope : Scope} (wf : scope.WellFormed) {f : Formula}
    (known : f.Known scope) :
    normalize BracketGlyphs.standard (String.ofList f.text) = .ok (String.ofList f.text) :=
  normalize_of_formulaChars (Formula.text_ne_nil wf known) fun _ mem => Formula.mem_text wf known mem

/-! ## Resolving the text of a formula -/

theorem resolveExpression_of_plain {scope : Scope} {text : List Char} (noOpening : '(' ∉ text)
    (noClosing : ')' ∉ text) :
    resolveExpression scope text =
      if text.any isOperatorChar then resolveOperators scope text else resolveLeaf scope text := by
  have noneFound : text.findIdx? (· == '(') = none := findIdx?_beq_eq_none noOpening
  have unclosed : text.contains ')' = false := by simpa using noClosing
  rw [resolveExpression]
  split
  · next found =>
    rw [noneFound] at found
    cases found
  · rw [unclosed]
    rfl

theorem resolveOperators_of_last {scope : Scope} {text : List Char} {c : Char}
    (last : text.getLast? = some c) (notOperator : isOperatorChar c = false) :
    resolveOperators scope text = (do
      let flat ← resolvePowers scope text
      resolveSum scope flat) := by
  rw [resolveOperators]
  simp only [last, notOperator, Bool.false_eq_true, ↓reduceIte]

/-- No run of powers of the formula is misread (see `Misread`). -/
def Formula.Readable (f : Formula) : Prop :=
  ∀ before op after, (f.group (· != .pow)).Adjacent before op after → ¬Misread before op after

theorem Workspace.holds_initial : Workspace.initial.Holds [] :=
  ⟨fun _ mem => (by cases mem), List.nodup_nil, rfl⟩

theorem Workspace.fresh_initial : Workspace.initial.Fresh := fun _ mem => by cases mem

/-- A chain of items joined by operators other than `^` holds no `^`. -/
theorem caret_not_mem_items {items : Chain Item} (named : ∀ x ∈ items.pieces, x.Named)
    (notPow : ∀ e ∈ items.rest, e.1 ≠ .pow) : '^' ∉ Chain.text Item.text items := by
  intro mem
  rcases List.mem_append.mp mem with inFirst | inRest
  · exact Item.not_mem_text (named _ List.mem_cons_self) (Or.inr (Or.inr (Or.inl rfl))) inFirst
  · obtain ⟨entry, listed, inEntry⟩ := List.mem_flatMap.mp inRest
    rcases List.mem_cons.mp inEntry with isSymbol | inItem
    · have other := notPow entry listed
      cases same : entry.1 with
      | pow => exact other same
      | add | sub | mul | div => rw [same] at isSymbol; exact absurd isSymbol (by decide)
    · exact Item.not_mem_text (named entry.2 (List.mem_cons_of_mem _ (List.mem_map_of_mem listed)))
        (Or.inr (Or.inr (Or.inl rfl))) inItem

/-- The power pass over a formula: each run of powers becomes one item, the items are joined
by the formula's other operators, and the text it leaves holds no `^`. -/
theorem resolvePowers_formula {scope : Scope} (wf : scope.WellFormed) (f : Formula)
    (known : f.Known scope) (readable : f.Readable) :
    ∃ (items : Chain Item) (w : Workspace),
      resolvePowers scope f.text Workspace.initial = .ok (Chain.text Item.text items, w) ∧
      items.map (Item.tree scope) = (f.group (· != .pow)).map (runTree scope) ∧
      (∀ x ∈ items.pieces, x.Known scope) ∧
      w.Holds (items.pieces.flatMap Item.entries) ∧
      ∀ e ∈ items.rest, e.1 ≠ .pow := by
  have powers : ∀ r ∈ (f.group (· != .pow)).pieces, ∀ e ∈ r.rest, e.1 = .pow := by
    intro r mem e inner
    have notSplit := (@Chain.groupFrom_inner Operand (· != .pow) (fun _ => True) f.first f.rest
      (fun _ _ => trivial) r mem e inner).1
    simpa using notSplit
  have separated : ∀ e ∈ (f.group (· != .pow)).rest, e.1 ≠ .pow := by
    intro e mem
    simpa using Chain.groupFrom_outer (· != .pow) f.first f.rest e mem
  have knownRuns : ∀ r ∈ (f.group (· != .pow)).pieces, ∀ a ∈ r.pieces, a.atom.Known scope := by
    intro r mem a inRun
    apply Formula.known_of_mem known
    rw [← Chain.pieces_groupFrom (· != .pow) f.first f.rest]
    exact List.mem_flatMap.mpr ⟨r, mem, inRun⟩
  obtain ⟨items, w, powered, trees, knownItems, holds⟩ := resolvePowers_runs wf
    (f.group (· != .pow)).rest (f.group (· != .pow)).first powers separated knownRuns readable
    OperatorBefore.nil (by simp) (safeBefore_nil _) Workspace.holds_initial
    Workspace.fresh_initial
  -- the items keep the operators between the runs, none of them `^`
  have itemsNotPow : ∀ e ∈ items.rest, e.1 ≠ .pow := by
    intro e mem
    have ops : items.rest.map (·.1) = (f.group (· != .pow)).rest.map (·.1) := by
      have same := congrArg (fun c => c.rest.map (·.1)) trees
      simpa [Chain.map, List.map_map, Function.comp_def] using same
    have listed : e.1 ∈ items.rest.map (·.1) := List.mem_map_of_mem mem
    rw [ops] at listed
    obtain ⟨e', mem', same⟩ := List.mem_map.mp listed
    rw [← same]
    exact separated e' mem'
  have noCaret : (Chain.text Item.text items).findIdx? (· == '^') = none :=
    findIdx?_beq_eq_none (caret_not_mem_items (fun x mem =>
      Item.named_of_known wf (knownItems x mem)) itemsNotPow)
  refine ⟨items, w, ?_, trees, knownItems, by simpa using holds, itemsNotPow⟩
  rw [Formula.text, ← Chain.text_group (· != .pow) Operand.text f,
    show Chain.text (Chain.text Operand.text) (f.group (· != .pow)) =
      [] ++ Chain.text (Chain.text Operand.text)
        ⟨(f.group (· != .pow)).first, (f.group (· != .pow)).rest⟩ from rfl,
    powered, List.nil_append, resolvePowers_of_none noCaret]
  rfl

/-- The text of a formula with an operator resolves to the reference tree: the power pass
turns its runs into items, and the sum pass gives the items' chain its tree. -/
theorem resolveOperators_formula {scope : Scope} (wf : scope.WellFormed) (f : Formula)
    (known : f.Known scope) (readable : f.Readable) :
    ∃ raw w, resolveOperators scope f.text Workspace.initial = .ok (raw, w) ∧
      raw.eraseLeaves = f.reference scope := by
  -- the text ends with its last operand, which ends with no operator
  obtain ⟨P, ending, -⟩ := Chain.text_last Operand.text f
  have namedLast : (Item.operand f.last).Named :=
    Item.named_of_known wf (Formula.known_of_mem known (Chain.last_mem f))
  obtain ⟨c, lastOperand, notOperator⟩ := Item.getLast?_text namedLast
  have last : f.text.getLast? = some c := by
    rw [Formula.text, ending, List.getLast?_append]
    rw [show (Item.operand f.last).text = f.last.text from rfl] at lastOperand
    rw [lastOperand, Option.some_or]
  obtain ⟨items, w₁, flat, trees, knownItems, holds₁, itemsNotPow⟩ :=
    resolvePowers_formula wf f known readable
  -- the sum pass on the items, grouped at `+` and `-`
  have multiplicative : ∀ p ∈ (items.group BinaryOp.isAdditive).pieces, ∀ e ∈ p.rest,
      e.1 = .mul ∨ e.1 = .div := by
    intro p mem e inner
    obtain ⟨notAdditive, notPow⟩ := @Chain.groupFrom_inner Item BinaryOp.isAdditive (· ≠ .pow)
      items.first items.rest itemsNotPow p mem e inner
    cases same : e.1 with
    | mul => exact Or.inl rfl
    | div => exact Or.inr rfl
    | pow => exact absurd same notPow
    | add | sub => rw [same] at notAdditive; cases notAdditive
  have itemsOfTerms : (items.group BinaryOp.isAdditive).pieces.flatMap Chain.pieces =
      items.pieces := Chain.pieces_groupFrom BinaryOp.isAdditive items.first items.rest
  have holdsTerms : w₁.Holds (((items.group BinaryOp.isAdditive).pieces.flatMap
      fun p => p.pieces.flatMap Item.entries) ++ []) := by
    rw [← List.flatMap_assoc, itemsOfTerms]
    simpa using holds₁
  obtain ⟨raw, w₂, summed, tree, -⟩ := resolveSum_chain wf (items.group BinaryOp.isAdditive)
    (Chain.groupFrom_outer BinaryOp.isAdditive items.first items.rest) multiplicative
    (fun p mem x inTerm => knownItems x (itemsOfTerms ▸ List.mem_flatMap.mpr ⟨p, mem, inTerm⟩))
    holdsTerms
  refine ⟨raw, w₂, ?_, ?_⟩
  · rw [resolveOperators_of_last last notOperator, Resolve.bind_of_ok flat,
      ← Chain.text_group BinaryOp.isAdditive Item.text items]
    exact summed
  · rw [tree, ← Chain.group_map, trees]
    rfl

/-- A formula holds no round bracket. -/
theorem Formula.round_not_mem {scope : Scope} (wf : scope.WellFormed) {f : Formula}
    (known : f.Known scope) : '(' ∉ f.text ∧ ')' ∉ f.text := by
  constructor <;>
    exact fun mem => not_formulaChar_of_punctuation (by decide) (by decide) (by decide)
      (Formula.mem_text wf known mem)

/-- The text of a formula resolves to its reference tree: with an operator in it, through the
operator passes; without one, the formula is a single operand and resolves as a leaf. -/
theorem resolveExpression_formula {scope : Scope} (wf : scope.WellFormed) (f : Formula)
    (known : f.Known scope) (readable : f.Readable) :
    ∃ raw w, resolveExpression scope f.text Workspace.initial = .ok (raw, w) ∧
      raw.eraseLeaves = f.reference scope := by
  rw [resolveExpression_of_plain (Formula.round_not_mem wf known).1
    (Formula.round_not_mem wf known).2]
  cases operators : f.text.any isOperatorChar with
  | true => exact resolveOperators_formula wf f known readable
  | false =>
    obtain ⟨a, rest⟩ := f
    cases rest with
    | cons entry later =>
      -- the operator in front of the second operand is in the text
      have inText : entry.1.symbol ∈ Formula.text ⟨a, entry :: later⟩ := by
        simp [Formula.text, Chain.text]
      exact absurd entry.1.isOperatorChar_symbol (List.any_eq_false.mp operators _ inText)
    | nil =>
      have knownItem : (Item.operand a).Known scope := known.1
      have holds : Workspace.initial.Holds ((Item.operand a).entries ++ []) :=
        Workspace.holds_initial
      obtain ⟨t, w, resolved, tree, -⟩ := resolveLeaf_item wf knownItem holds
      have single : Formula.text ⟨a, []⟩ = (Item.operand a).text := by
        simp [Formula.text, Chain.text, Item.text]
      rw [single]
      exact ⟨t, w, resolved, tree⟩

/-! ## Compiling a formula -/

/-- Compiling a text in normal form, once the constants and the declared names pass their
checks, is resolving it, then folding the tree if asked. -/
theorem compile_eq_resolveExpression {table : ConstantTable} {names declared : List String}
    (folding : Bool) (constantsChecked : Compiler.checkConstants table = .ok ())
    (variablesChecked : Compiler.declareVariables table names = .ok declared) {text : List Char}
    (normal : normalize BracketGlyphs.standard (String.ofList text) = .ok (String.ofList text)) :
    Compiler.compile ⟨table, BracketGlyphs.standard, folding⟩ (String.ofList text) names =
      (resolveExpression ⟨table, declared⟩ text Workspace.initial).map fun r =>
        ⟨if folding then r.1.fold else r.1, declared,
          r.2.occurrences.retainPresent ((if folding then r.1.fold else r.1).leaves.map (·.1))⟩ := by
  simp only [Compiler.compile, normal, constantsChecked, variablesChecked, bind, Except.bind,
    StateT.run, String.toList_ofList]
  cases resolveExpression ⟨table, declared⟩ text Workspace.initial <;> rfl

/-- Compiling a text in normal form without folding keeps the tree its resolution gives, with
the declared names and the occurrences of the leaves in it. -/
theorem compile_of_resolved {table : ConstantTable} {names declared : List String}
    (constantsChecked : Compiler.checkConstants table = .ok ())
    (variablesChecked : Compiler.declareVariables table names = .ok declared) {text : List Char}
    (normal : normalize BracketGlyphs.standard (String.ofList text) = .ok (String.ofList text))
    {raw : Tree} {w : Workspace}
    (resolved : resolveExpression ⟨table, declared⟩ text Workspace.initial = .ok (raw, w)) :
    Compiler.compile ⟨table, BracketGlyphs.standard, false⟩ (String.ofList text) names =
      .ok ⟨raw, declared, w.occurrences.retainPresent (raw.leaves.map (·.1))⟩ := by
  rw [compile_eq_resolveExpression false constantsChecked variablesChecked normal, resolved]
  rfl

/-- Compiling a formula without folding succeeds and gives, up to leaf numbers, the tree the
precedence grammar gives it, when its names are registered constants or declared variables
and no run of powers is misread. -/
theorem compile_follows_precedence {table : ConstantTable} {names declared : List String}
    (constantsChecked : Compiler.checkConstants table = .ok ())
    (variablesChecked : Compiler.declareVariables table names = .ok declared) (f : Formula)
    (known : f.Known ⟨table, declared⟩) (readable : f.Readable) :
    ∃ e, Compiler.compile ⟨table, BracketGlyphs.standard, false⟩ (String.ofList f.text) names =
      .ok e ∧ e.root.eraseLeaves = f.reference ⟨table, declared⟩ := by
  have wf := Compiler.wellFormed_of_checks constantsChecked variablesChecked
  obtain ⟨raw, w, resolved, tree⟩ := resolveExpression_formula wf f known readable
  exact ⟨_, compile_of_resolved constantsChecked variablesChecked (normalize_formula wf known)
    resolved, tree⟩

/-- The formula `2^-x^2`: the sign in front of `x` belongs to the exponent alone, and the run
folds to `(2 ^ (-1 * x)) ^ 2`. -/
def signedExponent : Formula :=
  let two : Atom := .literal ['2'] ⟨['2'], [], rfl,
    .whole (List.cons_ne_nil _ _) (fun c mem => by rw [List.mem_singleton.mp mem]; rfl), .none⟩
  ⟨⟨none, two⟩, [(.pow, ⟨some .minus, .name "x"⟩), (.pow, ⟨none, two⟩)]⟩

theorem compile_signedExponent :
    ∃ e, Compiler.compile ⟨ConstantTable.builtin, BracketGlyphs.standard, false⟩
      (String.ofList signedExponent.text) ["x"] = .ok e ∧
      e.root.eraseLeaves = signedExponent.reference ⟨ConstantTable.builtin, ["x"]⟩ :=
  compile_follows_precedence rfl rfl signedExponent
    ⟨trivial, by simp [signedExponent, Atom.Known, Scope.Knows]⟩
    (fun before op after ⟨i, _, adjacent⟩ => by
      simp [signedExponent, Chain.group, Chain.groupFrom] at adjacent)

/-- A misread run: `x1e-5^2` with the variable `x1e` is no power of `5`. The power scanner
takes `1e-5` for the base, and what is left of the name, `x`, is no known name. -/
theorem compile_misread_run_fails :
    Compiler.compile ⟨ConstantTable.builtin, BracketGlyphs.standard, false⟩ "x1e-5^2" ["x1e"] =
      .error (.unparseableToken "x") := by
  have outcome : (Compiler.compile ⟨ConstantTable.builtin, BracketGlyphs.standard, false⟩
      "x1e-5^2" ["x1e"]).map (fun _ => ()) = .error (.unparseableToken "x") := by
    decide +kernel
  revert outcome
  cases Compiler.compile ⟨ConstantTable.builtin, BracketGlyphs.standard, false⟩ "x1e-5^2"
    ["x1e"] with
  | error err =>
    intro outcome
    cases outcome
    rfl
  | ok e => intro outcome; cases outcome

end ComplexFormula
