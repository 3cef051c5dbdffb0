import ComplexFormula.Proofs.NeutralOperands
import ComplexFormula.Proofs.Folding

/-!
# What folding does to values

Folding evaluates the parts of a tree without variables with the very functions evaluation
uses, so a tree without variables folds to the constant of its value, bit for bit
(`Tree.fold_of_leaves_eq_nil`). The neutral-operand rules are another matter: they replace
`x * 1` by `x`, but the product computes `x.re * 1 - x.im * 0`, which is NaN when `x.im` is
infinite, and `x + 0` by `x`, but `-0.0 + 0.0` is `0.0`. A dropped operand is always a
constant beside an operand that reads a variable (`Tree.foldBinary_neutral_cases`), and on a
plain value every rule is exact (`BinaryOp.apply_neutralRight`,
`BinaryOp.apply_neutralLeft`). So folding keeps the value of a tree, bit for bit, at every slot
vector under which each part of the tree that reads a variable takes a plain value
(`Tree.fold_keeps_values_of_plain_parts`).
-/

namespace ComplexFormula

namespace BinaryOp

/-- Whether folding drops a constant right operand of the operator: a zero added or
subtracted, or a one multiplied by, divided by or raised to. -/
def neutralRight : BinaryOp → ComplexFloat → Bool
  | add, c | sub, c => c.isZero
  | mul, c | div, c | pow, c => c.isOne

/-- Whether folding drops a constant left operand of the operator: a zero added to or a one
multiplied by. -/
def neutralLeft : BinaryOp → ComplexFloat → Bool
  | add, c => c.isZero
  | mul, c => c.isOne
  | _, _ => false

/-- A neutral right operand leaves a plain number as it is. -/
theorem apply_neutralRight {op : BinaryOp} {z c : ComplexFloat} (plain : z.isPlain = true)
    (neutral : op.neutralRight c = true) : op.apply z c = z := by
  cases op with
  | add => exact ComplexFloat.add_zero_of_isPlain plain neutral
  | sub => exact ComplexFloat.sub_zero_of_isPlain plain neutral
  | mul => exact ComplexFloat.mul_one_of_isPlain plain neutral
  | div => exact ComplexFloat.div_one_of_isPlain plain neutral
  | pow => exact power_of_isOne z neutral

/-- A neutral left operand leaves a plain number as it is. -/
theorem apply_neutralLeft {op : BinaryOp} {z c : ComplexFloat} (plain : z.isPlain = true)
    (neutral : op.neutralLeft c = true) : op.apply c z = z := by
  cases op with
  | add => exact ComplexFloat.zero_add_of_isPlain plain neutral
  | mul => exact ComplexFloat.one_mul_of_isPlain plain neutral
  | sub | div | pow => cases neutral

end BinaryOp

namespace Tree

/-- Every subtree of a tree: the tree itself, then the subtrees of its operands from left to
right. -/
def subtrees : Tree → List Tree
  | const z => [const z]
  | var leaf slot => [var leaf slot]
  | unary f arg => unary f arg :: arg.subtrees
  | binary op left right => binary op left right :: (left.subtrees ++ right.subtrees)

theorem mem_subtrees_self (t : Tree) : t ∈ t.subtrees := by
  cases t <;> simp [subtrees]

theorem isConstWith_eq_true_iff {p : ComplexFloat → Bool} {t : Tree} :
    t.isConstWith p = true ↔ ∃ c, t = const c ∧ p c = true := by
  cases t <;> simp [isConstWith]

/-! ## Joining two operands -/

/-- Joining two operands that are not both constants, said once for every operator: a neutral
right operand goes, then a neutral left one, and otherwise the node is built. -/
theorem foldBinary_of_not_consts {op : BinaryOp} {left right : Tree}
    (notConsts : ∀ l r, left = const l → right = const r → False) :
    foldBinary op left right =
      if right.isConstWith op.neutralRight then left
      else if left.isConstWith op.neutralLeft then right
      else binary op left right := by
  have noLeft : ∀ p : ComplexFloat → Bool, (∀ c, p c = false) → ¬left.isConstWith p = true := by
    intro p never
    cases left <;> simp [isConstWith, never]
  unfold foldBinary
  split
  · next l r => exact (notConsts l r rfl rfl).elim
  · -- only addition and multiplication have a neutral left operand
    cases op with
    | add | mul => rfl
    | sub =>
      rw [if_neg (noLeft (BinaryOp.neutralLeft .sub) fun _ => rfl)]
      rfl
    | div =>
      rw [if_neg (noLeft (BinaryOp.neutralLeft .div) fun _ => rfl)]
      rfl
    | pow =>
      rw [if_neg (noLeft (BinaryOp.neutralLeft .pow) fun _ => rfl)]
      rfl

/-- What joining two operands does, with the reason an operand is dropped: two constants are
evaluated, a neutral constant beside an operand that is no constant goes, and otherwise the
node is built. -/
theorem foldBinary_neutral_cases (op : BinaryOp) (left right : Tree) :
    (∃ l r, left = const l ∧ right = const r ∧ foldBinary op left right = const (op.apply l r)) ∨
      (∃ c, right = const c ∧ op.neutralRight c = true ∧ left.isConst = false ∧
        foldBinary op left right = left) ∨
      (∃ c, left = const c ∧ op.neutralLeft c = true ∧ right.isConst = false ∧
        foldBinary op left right = right) ∨
      foldBinary op left right = binary op left right := by
  by_cases consts : ∃ l r, left = const l ∧ right = const r
  · obtain ⟨l, r, rfl, rfl⟩ := consts
    exact Or.inl ⟨l, r, rfl, rfl, rfl⟩
  · have notConsts : ∀ l r, left = const l → right = const r → False :=
      fun l r isL isR => consts ⟨l, r, isL, isR⟩
    -- beside a constant, the other operand is no constant
    have leftNot : ∀ c, right = const c → left.isConst = false := by
      rintro c rfl
      cases left <;> simp_all [isConst, isConstWith]
    have rightNot : ∀ c, left = const c → right.isConst = false := by
      rintro c rfl
      cases right <;> simp_all [isConst, isConstWith]
    rw [foldBinary_of_not_consts notConsts]
    split_ifs with rightNeutral leftNeutral
    · obtain ⟨c, isC, neutral⟩ := isConstWith_eq_true_iff.mp rightNeutral
      exact Or.inr (Or.inl ⟨c, isC, neutral, leftNot c isC, rfl⟩)
    · obtain ⟨c, isC, neutral⟩ := isConstWith_eq_true_iff.mp leftNeutral
      exact Or.inr (Or.inr (Or.inl ⟨c, isC, neutral, rightNot c isC, rfl⟩))
    · exact Or.inr (Or.inr (Or.inr rfl))

/-! ## Folding and values -/

/-- A tree without variables folds to the constant of its value. -/
theorem fold_of_leaves_eq_nil {t : Tree} (closed : t.leaves = []) (values : List ComplexFloat) :
    t.fold = const (t.evaluate values) := by
  induction t with
  | const z => rfl
  | var leaf slot => simp [leaves] at closed
  | unary f arg inductionHypothesis =>
    rw [fold, inductionHypothesis closed]
    rfl
  | binary op left right leftHypothesis rightHypothesis =>
    rw [leaves, List.append_eq_nil_iff] at closed
    rw [fold, leftHypothesis closed.1, rightHypothesis closed.2]
    rfl

/-- A folded tree that is no constant comes from a tree that reads a variable. -/
theorem leaves_ne_nil_of_fold {t : Tree} (notConst : t.fold.isConst = false) :
    t.leaves ≠ [] := by
  intro closed
  rw [fold_of_leaves_eq_nil closed []] at notConst
  cases notConst

theorem evaluate_fold_unary (values : List ComplexFloat) (f : UnaryFn) (arg : Tree) :
    (unary f arg).fold.evaluate values = f.apply (arg.fold.evaluate values) := by
  rw [fold]
  split
  · next z folded =>
    rw [folded]
    rfl
  · rfl

/-- Folding keeps the value of a tree, bit for bit, at every slot vector under which each part
of the tree that reads a variable takes a plain value, both parts finite and neither `-0.0`. A
tree without variables meets this at every slot vector. Outside it, dropping a neutral operand
can change the value. -/
theorem fold_keeps_values_of_plain_parts (t : Tree) (values : List ComplexFloat)
    (plain : ∀ s ∈ t.subtrees, s.leaves ≠ [] → (s.evaluate values).isPlain = true) :
    t.fold.evaluate values = t.evaluate values := by
  induction t with
  | const z => rfl
  | var leaf slot => rfl
  | unary f arg inductionHypothesis =>
    rw [evaluate_fold_unary,
      inductionHypothesis fun s mem => plain s (List.mem_cons_of_mem _ mem)]
    rfl
  | binary op left right leftHypothesis rightHypothesis =>
    have leftSame := leftHypothesis fun s mem => plain s (by simp [subtrees, mem])
    have rightSame := rightHypothesis fun s mem => plain s (by simp [subtrees, mem])
    rw [fold]
    rcases foldBinary_neutral_cases op left.fold right.fold with
      ⟨l, r, isL, isR, joined⟩ | ⟨c, isC, neutral, notConst, joined⟩ |
        ⟨c, isC, neutral, notConst, joined⟩ | joined
    · rw [joined]
      show op.apply l r = op.apply (left.evaluate values) (right.evaluate values)
      rw [← leftSame, ← rightSame, isL, isR]
      rfl
    · -- the kept left operand reads a variable, so its value is plain
      have leftPlain :=
        plain left (by simp [subtrees, mem_subtrees_self]) (leaves_ne_nil_of_fold notConst)
      have rightValue : right.evaluate values = c := by
        rw [← rightSame, isC]
        rfl
      simp only [joined, leftSame, evaluate, rightValue,
        BinaryOp.apply_neutralRight leftPlain neutral]
    · have rightPlain :=
        plain right (by simp [subtrees, mem_subtrees_self]) (leaves_ne_nil_of_fold notConst)
      have leftValue : left.evaluate values = c := by
        rw [← leftSame, isC]
        rfl
      simp only [joined, rightSame, evaluate, leftValue,
        BinaryOp.apply_neutralLeft rightPlain neutral]
    · simp only [joined, evaluate, leftSame, rightSame]

/-- `x * (3 - 2)` folds to `x`: the difference to the constant one, then the product by it; at
`x = 2 + 3i` the value stays. -/
theorem fold_keeps_value_at_two_three :
    (binary .mul (var 0 0) (binary .sub (const ⟨3, 0⟩) (const ⟨2, 0⟩))).fold = var 0 0 ∧
      (binary .mul (var 0 0) (binary .sub (const ⟨3, 0⟩) (const ⟨2, 0⟩))).fold.evaluate
          [⟨2, 3⟩] =
        (binary .mul (var 0 0) (binary .sub (const ⟨3, 0⟩) (const ⟨2, 0⟩))).evaluate [⟨2, 3⟩] := by
  have checked : ((binary .mul (var 0 0) (binary .sub (const ⟨3, 0⟩) (const ⟨2, 0⟩))).subtrees.all
      fun s => s.leaves.isEmpty || (s.evaluate [⟨2, 3⟩]).isPlain) = true := by
    decide +kernel
  refine ⟨by decide +kernel, fold_keeps_values_of_plain_parts _ _ fun s mem reads => ?_⟩
  have plain := List.all_eq_true.mp checked s mem
  simpa [List.isEmpty_iff, reads] using plain

/-- Folding `x * 1` drops the one, but at `x = 1 + ∞i` the product has a NaN real part,
`1 * 1 - ∞ * 0`, where the folded tree reads `1`. -/
theorem fold_drops_one_beside_infinity :
    (binary .mul (var 0 0) (const ⟨1, 0⟩)).fold = var 0 0 ∧
      ((binary .mul (var 0 0) (const ⟨1, 0⟩)).evaluate [⟨1, Binary64.Word.infinity⟩]).re.isNaN =
        true ∧
      ((var 0 0).evaluate [⟨1, Binary64.Word.infinity⟩]).re.isNaN = false := by
  decide +kernel

end Tree

end ComplexFormula
