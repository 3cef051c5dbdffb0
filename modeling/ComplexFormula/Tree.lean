import ComplexFormula.UnaryFn
import ComplexFormula.BinaryOp

/-!
# Expression trees

A compiled expression is a tree whose leaves are complex constants and variable
occurrences. Every textual occurrence of a variable is its own leaf, identified by a leaf
number unique within one compilation; the leaf reads its value from the slot of the
variable, the variable's position among the declared names. A tree holds no values for its
variables, so evaluating it is a function of the tree and a slot vector.
-/

namespace ComplexFormula

/-- An expression tree. -/
inductive Tree where
  /-- A constant value. -/
  | const (value : ComplexFloat)
  /-- One occurrence of a declared variable: its leaf number and its slot. -/
  | var (leaf : Nat) (slot : Nat)
  /-- A built-in function applied to an argument. -/
  | unary (f : UnaryFn) (arg : Tree)
  /-- A binary operator applied to two operands. -/
  | binary (op : BinaryOp) (left right : Tree)

namespace Tree

/-- The number of nodes. -/
def nodeCount : Tree → Nat
  | const _ => 1
  | var _ _ => 1
  | unary _ arg => 1 + arg.nodeCount
  | binary _ left right => 1 + left.nodeCount + right.nodeCount

/-- The variable leaves as pairs of leaf number and slot, from left to right. -/
def leaves : Tree → List (Nat × Nat)
  | const _ => []
  | var leaf slot => [(leaf, slot)]
  | unary _ arg => arg.leaves
  | binary _ left right => left.leaves ++ right.leaves

/-- The value of the tree when slot `s` holds `values[s]`. A slot beyond the vector reads
zero; compiled expressions only evaluate with a value for every slot. -/
def evaluate (values : List ComplexFloat) : Tree → ComplexFloat
  | const z => z
  | var _ slot => values.getD slot ⟨0, 0⟩
  | unary f arg => f.apply (arg.evaluate values)
  | binary op left right => op.apply (left.evaluate values) (right.evaluate values)

theorem nodeCount_pos (t : Tree) : 0 < t.nodeCount := by
  cases t <;> unfold nodeCount <;> omega

end Tree

end ComplexFormula
