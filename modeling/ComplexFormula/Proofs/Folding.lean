import ComplexFormula.Proofs.Indexing
import ComplexFormula.Proofs.Groups

/-!
# What folding keeps and what it reaches

Folding drops an operand only when it is a constant: a neutral `0` or `1`, or the two operands
of an operator folded into their value. So it keeps every variable leaf, in order, and never
makes a tree larger (`Tree.leaves_fold`, `Tree.nodeCount_fold_le`). Compiling with folding is
compiling without it and folding the tree; the occurrence index is then the whole index the
resolver built (`Compiler.compile_folding`, `Compiler.compile_folded_index`).

A folded tree is in folded form (`Tree.isFolded`): no function of a constant, no operator
between two constants, and no operator with an operand that folding drops as neutral. Folding
leaves a tree in that form as it is, so folding twice is folding once (`Tree.fold_fold`).
-/

namespace ComplexFormula

namespace Tree

/-! ## The folded form -/

/-- Whether a tree is a constant. -/
def isConst (t : Tree) : Bool := t.isConstWith fun _ => true

/-- Whether an operator has an operand that folding drops as neutral: a zero added on either
side or subtracted, a one multiplied on either side, or a one divided by or raised to. -/
def hasNeutralOperand : BinaryOp → Tree → Tree → Bool
  | .add, left, right =>
    right.isConstWith ComplexFloat.isZero || left.isConstWith ComplexFloat.isZero
  | .sub, _, right => right.isConstWith ComplexFloat.isZero
  | .mul, left, right =>
    right.isConstWith ComplexFloat.isOne || left.isConstWith ComplexFloat.isOne
  | .div, _, right => right.isConstWith ComplexFloat.isOne
  | .pow, _, right => right.isConstWith ComplexFloat.isOne

/-- A tree in folded form: no function of a constant, no operator between two constants, and
no operator with a neutral operand. -/
def isFolded : Tree → Bool
  | const _ => true
  | var _ _ => true
  | unary _ arg => !arg.isConst && arg.isFolded
  | binary op left right =>
    !(left.isConst && right.isConst) && !hasNeutralOperand op left right && left.isFolded &&
      right.isFolded

theorem isConst_eq_true_iff {t : Tree} : t.isConst = true ↔ ∃ z, t = const z := by
  cases t <;> simp [isConst, isConstWith]

theorem isFolded_unary {f : UnaryFn} {arg : Tree} :
    (unary f arg).isFolded ↔ arg.isConst = false ∧ arg.isFolded := by
  simp only [isFolded, Bool.and_eq_true, Bool.not_eq_true']

theorem isFolded_binary {op : BinaryOp} {left right : Tree} :
    (binary op left right).isFolded ↔ (left.isConst && right.isConst) = false ∧
      hasNeutralOperand op left right = false ∧ left.isFolded ∧ right.isFolded := by
  simp only [isFolded, Bool.and_eq_true, Bool.not_eq_true', and_assoc]

theorem isConst_of_isConstWith {p : ComplexFloat → Bool} {t : Tree}
    (isConst : t.isConstWith p = true) : t.isConst = true := by
  cases t <;> simp_all [Tree.isConst, isConstWith]

/-! ## Joining two folded operands -/

/-- What joining two operands can do: evaluate two constants, keep one operand when the other,
a constant, is neutral, or build the node when no rule applies. -/
theorem foldBinary_cases (op : BinaryOp) (left right : Tree) :
    (∃ l r, left = const l ∧ right = const r ∧ foldBinary op left right = const (op.apply l r)) ∨
      (right.isConst ∧ foldBinary op left right = left) ∨
      (left.isConst ∧ foldBinary op left right = right) ∨
      ((left.isConst && right.isConst) = false ∧ hasNeutralOperand op left right = false ∧
        foldBinary op left right = binary op left right) := by
  unfold foldBinary
  split
  · exact Or.inl ⟨_, _, rfl, rfl, rfl⟩
  · next notConsts =>
    have notBoth : (left.isConst && right.isConst) = false := by
      cases leftConst : left.isConst <;> cases rightConst : right.isConst <;> try rfl
      obtain ⟨l, rfl⟩ := isConst_eq_true_iff.mp leftConst
      obtain ⟨r, rfl⟩ := isConst_eq_true_iff.mp rightConst
      exact (notConsts l r rfl rfl).elim
    cases op with
    | add =>
      dsimp only
      split_ifs with rightZero leftZero
      · exact Or.inr (Or.inl ⟨isConst_of_isConstWith rightZero, rfl⟩)
      · exact Or.inr (Or.inr (Or.inl ⟨isConst_of_isConstWith leftZero, rfl⟩))
      · exact Or.inr (Or.inr (Or.inr ⟨notBoth, by simp [hasNeutralOperand, rightZero, leftZero], rfl⟩))
    | sub =>
      dsimp only
      split_ifs with rightZero
      · exact Or.inr (Or.inl ⟨isConst_of_isConstWith rightZero, rfl⟩)
      · exact Or.inr (Or.inr (Or.inr ⟨notBoth, by simp [hasNeutralOperand, rightZero], rfl⟩))
    | mul =>
      dsimp only
      split_ifs with rightOne leftOne
      · exact Or.inr (Or.inl ⟨isConst_of_isConstWith rightOne, rfl⟩)
      · exact Or.inr (Or.inr (Or.inl ⟨isConst_of_isConstWith leftOne, rfl⟩))
      · exact Or.inr (Or.inr (Or.inr ⟨notBoth, by simp [hasNeutralOperand, rightOne, leftOne], rfl⟩))
    | div =>
      dsimp only
      split_ifs with rightOne
      · exact Or.inr (Or.inl ⟨isConst_of_isConstWith rightOne, rfl⟩)
      · exact Or.inr (Or.inr (Or.inr ⟨notBoth, by simp [hasNeutralOperand, rightOne], rfl⟩))
    | pow =>
      dsimp only
      split_ifs with rightOne
      · exact Or.inr (Or.inl ⟨isConst_of_isConstWith rightOne, rfl⟩)
      · exact Or.inr (Or.inr (Or.inr ⟨notBoth, by simp [hasNeutralOperand, rightOne], rfl⟩))

/-- Two operands that are not both constants and none of them neutral are joined as they are. -/
theorem foldBinary_eq_binary {op : BinaryOp} {left right : Tree}
    (notBoth : (left.isConst && right.isConst) = false)
    (kept : hasNeutralOperand op left right = false) :
    foldBinary op left right = binary op left right := by
  unfold foldBinary
  split
  · simp [isConst, isConstWith] at notBoth
  · cases op <;> simp_all [hasNeutralOperand]

/-- Joining two operands in folded form gives a tree in folded form. -/
theorem isFolded_foldBinary (op : BinaryOp) {left right : Tree} (leftFolded : left.isFolded)
    (rightFolded : right.isFolded) : (foldBinary op left right).isFolded := by
  rcases foldBinary_cases op left right with
    ⟨l, r, -, -, joined⟩ | ⟨-, joined⟩ | ⟨-, joined⟩ | ⟨notBoth, kept, joined⟩
  · rw [joined]
    rfl
  · rw [joined]
    exact leftFolded
  · rw [joined]
    exact rightFolded
  · rw [joined]
    exact isFolded_binary.mpr ⟨notBoth, kept, leftFolded, rightFolded⟩

/-- Joining two operands keeps at most their nodes and one more. -/
theorem nodeCount_foldBinary_le (op : BinaryOp) (left right : Tree) :
    (foldBinary op left right).nodeCount ≤ 1 + left.nodeCount + right.nodeCount := by
  rcases foldBinary_cases op left right with
    ⟨l, r, -, -, joined⟩ | ⟨-, joined⟩ | ⟨-, joined⟩ | ⟨-, -, joined⟩
  · rw [joined, nodeCount]
    omega
  · rw [joined]
    omega
  · rw [joined]
    omega
  · rw [joined, nodeCount]

/-! ## Folding a tree -/

/-- Folding never makes a tree larger. -/
theorem nodeCount_fold_le (t : Tree) : t.fold.nodeCount ≤ t.nodeCount := by
  induction t with
  | const z => exact Nat.le_refl _
  | var leaf slot => exact Nat.le_refl _
  | unary f arg inductionHypothesis =>
    rw [fold]
    split
    · simp only [nodeCount]
      omega
    · next folded _ =>
      simp only [nodeCount]
      omega
  | binary op left right leftHypothesis rightHypothesis =>
    rw [fold, nodeCount]
    have joined := nodeCount_foldBinary_le op left.fold right.fold
    omega

/-- A folded tree is in folded form. -/
theorem isFolded_fold (t : Tree) : t.fold.isFolded := by
  induction t with
  | const z => rfl
  | var leaf slot => rfl
  | unary f arg inductionHypothesis =>
    rw [fold]
    split
    · rfl
    · next folded notConst =>
      -- a folded argument that is no constant stays under the function
      have kept : arg.fold.isConst = false := by
        cases isConstant : arg.fold.isConst
        · rfl
        · obtain ⟨z, isZ⟩ := isConst_eq_true_iff.mp isConstant
          exact (notConst z isZ).elim
      exact isFolded_unary.mpr ⟨kept, inductionHypothesis⟩
  | binary op left right leftHypothesis rightHypothesis =>
    rw [fold]
    exact isFolded_foldBinary op leftHypothesis rightHypothesis

/-- Folding leaves a tree in folded form as it is. -/
theorem fold_of_isFolded {t : Tree} (folded : t.isFolded) : t.fold = t := by
  induction t with
  | const z => rfl
  | var leaf slot => rfl
  | unary f arg inductionHypothesis =>
    obtain ⟨notConst, argFolded⟩ := isFolded_unary.mp folded
    rw [fold, inductionHypothesis argFolded]
    split
    · -- the argument is no constant
      simp [isConst, isConstWith] at notConst
    · rfl
  | binary op left right leftHypothesis rightHypothesis =>
    obtain ⟨notBoth, kept, leftFolded, rightFolded⟩ := isFolded_binary.mp folded
    rw [fold, leftHypothesis leftFolded, rightHypothesis rightFolded,
      foldBinary_eq_binary notBoth kept]

/-- Folding twice is folding once. -/
theorem fold_fold (t : Tree) : t.fold.fold = t.fold :=
  fold_of_isFolded (isFolded_fold t)

/-- Folding reaches the folded form and stops there. A folded tree has no function of a
constant, no operator between two constants and none with a neutral operand; folding leaves a
tree in that form as it is, constants bit for bit; so folding twice is folding once. -/
theorem fold_reaches_folded_form :
    (∀ t : Tree, t.fold.isFolded) ∧ (∀ t : Tree, t.isFolded → t.fold = t) ∧
      ∀ t : Tree, t.fold.fold = t.fold :=
  ⟨isFolded_fold, fun _ folded => fold_of_isFolded folded, fold_fold⟩

/-- The tree of `x*1+0*y` folds to `x+0*y`: the factor one goes, the zero factor stays, and the
result is in folded form, so folding it again leaves it as it is. -/
theorem fold_keeps_zero_factor :
    (binary .add (binary .mul (var 0 0) (const ⟨1, 0⟩))
        (binary .mul (const ⟨0, 0⟩) (var 1 1))).fold =
      binary .add (var 0 0) (binary .mul (const ⟨0, 0⟩) (var 1 1)) ∧
    (binary .add (var 0 0) (binary .mul (const ⟨0, 0⟩) (var 1 1))).isFolded ∧
    (binary .add (var 0 0) (binary .mul (const ⟨0, 0⟩) (var 1 1))).fold =
      binary .add (var 0 0) (binary .mul (const ⟨0, 0⟩) (var 1 1)) := by
  have folded : (binary .add (var 0 0) (binary .mul (const ⟨0, 0⟩) (var 1 1))).isFolded := by
    decide +kernel
  exact ⟨by decide +kernel, folded, fold_reaches_folded_form.2.1 _ folded⟩

end Tree

/-! ## Compiling with folding -/

/-- Compiling with folding is compiling without it and folding the tree: the names, the errors
and the occurrence index are the same. -/
theorem Compiler.compile_folding (constants : ConstantTable) (glyphs : BracketGlyphs)
    (expression : String) (names : List String) :
    Compiler.compile ⟨constants, glyphs, true⟩ expression names =
      (Compiler.compile ⟨constants, glyphs, false⟩ expression names).map
        fun e => { e with root := e.root.fold } := by
  simp only [Compiler.compile]
  cases normalize glyphs expression with
  | error e => rfl
  | ok text =>
    cases Compiler.checkConstants constants with
    | error e => rfl
    | ok u =>
      cases Compiler.declareVariables constants names with
      | error e => rfl
      | ok declared =>
        simp only [bind, Except.bind, StateT.run]
        cases resolveExpression ⟨constants, declared⟩ text.toList Workspace.initial with
        | error e => rfl
        | ok r =>
          -- folding keeps the leaves, so the same leaves are kept in the index
          simp only [pure, Except.pure, Except.map, if_true, Bool.false_eq_true, if_false,
            Tree.leaves_fold]

/-- After folding, keeping the leaves present in the tree keeps the whole index the run built. -/
theorem Compiler.compile_folded_index {constants : ConstantTable} {glyphs : BracketGlyphs}
    {expression : String} {names : List String} {e : Compiled}
    (compiled : Compiler.compile ⟨constants, glyphs, true⟩ expression names = .ok e) :
    ∃ text declared raw w, normalize glyphs expression = .ok text ∧
      resolveExpression ⟨constants, declared⟩ text.toList Workspace.initial = .ok (raw, w) ∧
      e.root = raw.fold ∧ e.occurrences = w.occurrences := by
  obtain ⟨text, declared, raw, w, normalized, -, resolved, books, rfl⟩ :=
    Compiler.compile_resolved compiled
  exact ⟨text, declared, raw, w, normalized, resolved, rfl, books.retainPresent_eq true⟩

/-- Folding never loses, duplicates or reorders a variable leaf, and never makes a tree larger.
So compiling with folding and without it succeeds or fails alike, with the same leaves, index
and names, and after folding, keeping the leaves present removes nothing from the index the
run built. -/
theorem compile_folding_keeps_leaves :
    (∀ t : Tree, t.fold.leaves = t.leaves ∧ t.fold.nodeCount ≤ t.nodeCount) ∧
    ∀ (constants : ConstantTable) (glyphs : BracketGlyphs) (expression : String)
      (names : List String),
      Compiler.compile ⟨constants, glyphs, true⟩ expression names =
          (Compiler.compile ⟨constants, glyphs, false⟩ expression names).map
            (fun e => { e with root := e.root.fold }) ∧
        (∀ e e', Compiler.compile ⟨constants, glyphs, true⟩ expression names = .ok e →
          Compiler.compile ⟨constants, glyphs, false⟩ expression names = .ok e' →
          e.leaves = e'.leaves ∧ e.occurrences = e'.occurrences ∧
            e.variableNames = e'.variableNames) ∧
        ∀ e, Compiler.compile ⟨constants, glyphs, true⟩ expression names = .ok e →
          ∃ text declared raw w, normalize glyphs expression = .ok text ∧
            resolveExpression ⟨constants, declared⟩ text.toList Workspace.initial =
              .ok (raw, w) ∧
            e.root = raw.fold ∧ e.occurrences = w.occurrences := by
  refine ⟨fun t => ⟨t.leaves_fold, t.nodeCount_fold_le⟩,
    fun constants glyphs expression names => ⟨Compiler.compile_folding _ _ _ _, ?_,
      fun _ compiled => Compiler.compile_folded_index compiled⟩⟩
  intro e e' folded plain
  rw [Compiler.compile_folding, plain] at folded
  obtain rfl := Except.ok.inj folded
  exact ⟨e'.root.leaves_fold, rfl, rfl⟩

set_option maxRecDepth 4000 in
/-- `x*1+0*y` compiles with folding to `x+0*y` and without it to the whole product, with the
same leaves and index. -/
theorem compile_folding_drops_factor_one :
    ∃ e e', Compiler.compile ⟨ConstantTable.builtin, BracketGlyphs.standard, true⟩ "x*1+0*y"
        ["x", "y"] = .ok e ∧
      Compiler.compile ⟨ConstantTable.builtin, BracketGlyphs.standard, false⟩ "x*1+0*y"
        ["x", "y"] = .ok e' ∧
      e.root = .binary .add (.var 0 0) (.binary .mul (.const ⟨0, 0⟩) (.var 1 1)) ∧
      e'.root = .binary .add (.binary .mul (.var 0 0) (.const ⟨1, 0⟩))
        (.binary .mul (.const ⟨0, 0⟩) (.var 1 1)) ∧
      e.leaves = e'.leaves ∧ e.occurrences = e'.occurrences := by
  have folded : Compiler.compile ⟨ConstantTable.builtin, BracketGlyphs.standard, true⟩
      "x*1+0*y" ["x", "y"] =
        .ok ⟨.binary .add (.var 0 0) (.binary .mul (.const ⟨0, 0⟩) (.var 1 1)), ["x", "y"],
          ⟨[("x", [0]), ("y", [1])]⟩⟩ := by
    decide +kernel
  have plain : Compiler.compile ⟨ConstantTable.builtin, BracketGlyphs.standard, false⟩
      "x*1+0*y" ["x", "y"] =
        .ok ⟨.binary .add (.binary .mul (.var 0 0) (.const ⟨1, 0⟩))
          (.binary .mul (.const ⟨0, 0⟩) (.var 1 1)), ["x", "y"], ⟨[("x", [0]), ("y", [1])]⟩⟩ := by
    decide +kernel
  obtain ⟨sameLeaves, sameIndex, -⟩ :=
    (compile_folding_keeps_leaves.2 _ _ _ _).2.1 _ _ folded plain
  exact ⟨_, _, folded, plain, rfl, rfl, sameLeaves, sameIndex⟩

end ComplexFormula
