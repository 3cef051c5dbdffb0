import ComplexFormula.Tree

/-!
# Constant folding

Folding works bottom-up: a function of a constant and an operator between two constants
are replaced by their value, and an operator with a neutral operand is replaced by the
other operand: `x + 0`, `0 + x`, `x - 0`, `x * 1`, `1 * x`, `x / 1` and `x ^ 1` become `x`.
A zero is any number equal to `0 + 0i` (so `-0.0` parts count), a one any number equal to
`1 + 0i`. A zero factor is kept (`0 * x` stays), since `x` may be infinite. No variable leaf
is ever removed.
-/

namespace ComplexFormula

namespace Tree

/-- Whether a tree is a constant satisfying `p`. -/
def isConstWith (p : ComplexFloat → Bool) : Tree → Bool
  | const z => p z
  | _ => false

/-- Joins two folded operands under an operator: evaluates when both are constants, drops a
neutral operand, and otherwise builds the node. The first matching rule wins. -/
def foldBinary (op : BinaryOp) (left right : Tree) : Tree :=
  match left, right with
  | const l, const r => const (op.apply l r)
  | left, right =>
    match op with
    | .add =>
      if right.isConstWith ComplexFloat.isZero then left
      else if left.isConstWith ComplexFloat.isZero then right
      else binary op left right
    | .sub => if right.isConstWith ComplexFloat.isZero then left else binary op left right
    | .mul =>
      if right.isConstWith ComplexFloat.isOne then left
      else if left.isConstWith ComplexFloat.isOne then right
      else binary op left right
    | .div => if right.isConstWith ComplexFloat.isOne then left else binary op left right
    | .pow => if right.isConstWith ComplexFloat.isOne then left else binary op left right

/-- Folds a tree bottom-up. -/
def fold : Tree → Tree
  | const z => const z
  | var leaf slot => var leaf slot
  | unary f arg =>
    match arg.fold with
    | const z => const (f.apply z)
    | folded => unary f folded
  | binary op left right => foldBinary op left.fold right.fold

end Tree

end ComplexFormula
