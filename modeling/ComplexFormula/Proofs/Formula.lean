import ComplexFormula.Proofs.Numerals
import ComplexFormula.Resolve.Leaf

/-!
# Formulas and the trees precedence gives them

A formula is a sequence `a₁ o₁ a₂ … aₙ` of operands and the operators `+ - * / ^` between
them, each operand an optional sign in front of an unsigned numeric literal or a name. This
module defines formulas, their text, and the tree the usual precedence grammar gives them:

1. every maximal run `u₀ ^ s₁ ^ … ^ sₖ` is folded to the left, `((u₀ ^ s₁) ^ s₂) …`; a sign
   in front of `u₀` applies to the whole run, a sign in front of an exponent to the exponent
   alone;
2. `*` and `/` group to the right among themselves: `a / b / c` is `a / (b / c)`;
3. `+` and `-` group to the left and bind loosest.

An operand standing alone is a constant when it is a signed literal, and the name's tree
times plus or minus one when it is a signed name.

Trees are compared with their leaf numbers erased (`Tree.eraseLeaves`): the reference trees
number every leaf zero.
-/

namespace ComplexFormula

/-! ## Operands -/

/-- A sign written in front of an operand. -/
inductive Sign where
  | plus
  | minus
deriving DecidableEq, Repr

namespace Sign

/-- The character a sign is written with. -/
def char : Sign → Char
  | plus => '+'
  | minus => '-'

/-- The factor a lone sign stands for. -/
def factor : Sign → ComplexFloat
  | plus => ⟨1, 0⟩
  | minus => ⟨-1, 0⟩

end Sign

/-- The text of an optional sign. -/
def signText : Option Sign → List Char
  | none => []
  | some s => [s.char]

theorem signText_shape (sign : Option Sign) :
    signText sign = [] ∨ signText sign = ['+'] ∨ signText sign = ['-'] := by
  rcases sign with _ | _ | _ <;> simp [signText, Sign.char]

/-- A tree with an optional sign applied to it as a factor. -/
def signTree : Option Sign → Tree → Tree
  | none, t => t
  | some s, t => .binary .mul (.const s.factor) t

/-- The unsigned part of an operand: a numeric literal of the grammar, or a name. -/
inductive Atom where
  | literal (text : List Char) (unsigned : Literal.Unsigned text)
  | name (name : String)

/-- The text of an atom. -/
def Atom.text : Atom → List Char
  | literal text _ => text
  | name n => n.toList

/-- A name the scope knows: a constant or a declared variable. -/
def Scope.Knows (scope : Scope) (name : String) : Prop :=
  name ∈ scope.constants.names ∨ name ∈ scope.variableNames

/-- An atom the scope can resolve: every literal, and the names it knows. -/
def Atom.Known (scope : Scope) : Atom → Prop
  | literal _ _ => True
  | name n => scope.Knows n

/-- An operand: an optional sign and an atom. -/
structure Operand where
  sign : Option Sign
  atom : Atom

/-- The text of an operand. -/
def Operand.text (a : Operand) : List Char := signText a.sign ++ a.atom.text

/-- The tree a name stands for: the value of a constant, else a leaf of the variable's
slot. -/
def nameTree (scope : Scope) (name : String) : Tree :=
  match scope.constants.find? name with
  | some value => .const value
  | none => .var 0 (scope.variableNames.idxOf name)

theorem readWord?_isSome (sign : Option Sign) {text : List Char}
    (unsigned : Literal.Unsigned text) : (Decimal.readWord? (signText sign ++ text)).isSome := by
  obtain ⟨w, read, -⟩ := Literal.value?_eq_some (signText_shape sign) unsigned
  simp [read]

/-- The value of a literal with an optional sign in front, as the reader reads it. -/
def literalValue (sign : Option Sign) (text : List Char) (unsigned : Literal.Unsigned text) :
    Binary64.Word :=
  (Decimal.readWord? (signText sign ++ text)).get (readWord?_isSome sign unsigned)

/-- The tree of an operand on its own: a signed literal is one constant, a signed name is
the name's tree times plus or minus one. -/
def Operand.tree (scope : Scope) : Operand → Tree
  | ⟨sign, .literal text unsigned⟩ => .const (ComplexFloat.ofReal (literalValue sign text unsigned))
  | ⟨sign, .name n⟩ => signTree sign (nameTree scope n)

/-- The tree of an atom on its own. -/
def Atom.tree (scope : Scope) (a : Atom) : Tree := (Operand.mk none a).tree scope

/-! ## Chains -/

/-- A chain `x₀ o₁ x₁ … oₙ xₙ`: a first piece and the pieces after it, each with the operator
in front of it. -/
structure Chain (α : Type) where
  first : α
  rest : List (BinaryOp × α)

namespace Chain

variable {α β : Type}

/-- The text of a chain, from the texts of its pieces. -/
def text (piece : α → List Char) (c : Chain α) : List Char :=
  piece c.first ++ c.rest.flatMap fun entry => entry.1.symbol :: piece entry.2

/-- Applies a function to every piece. -/
def map (f : α → β) (c : Chain α) : Chain β :=
  ⟨f c.first, c.rest.map fun entry => (entry.1, f entry.2)⟩

/-- Splits `x₀ o₁ x₁ …` at the operators that `split` selects; within a group the pieces are
joined by the other operators. -/
def groupFrom (split : BinaryOp → Bool) : α → List (BinaryOp × α) → Chain (Chain α)
  | x, [] => ⟨⟨x, []⟩, []⟩
  | x, (op, y) :: rest =>
    let later := groupFrom split y rest
    if split op then ⟨⟨x, []⟩, (op, later.first) :: later.rest⟩
    else ⟨⟨x, (op, later.first.first) :: later.first.rest⟩, later.rest⟩

/-- The groups of a chain between the operators that `split` selects. -/
def group (split : BinaryOp → Bool) (c : Chain α) : Chain (Chain α) :=
  groupFrom split c.first c.rest

/-- Folds the pieces to the left: `((x₀ o₁ x₁) o₂ x₂) …`. -/
def leftTree (c : Chain Tree) : Tree :=
  c.rest.foldl (fun acc entry => .binary entry.1 acc entry.2) c.first

/-- Folds pieces to the right: `x₀ o₁ (x₁ o₂ (x₂ …))`. -/
def rightTreeFrom : Tree → List (BinaryOp × Tree) → Tree
  | t, [] => t
  | t, (op, u) :: rest => .binary op t (rightTreeFrom u rest)

/-- Folds the pieces to the right. -/
def rightTree (c : Chain Tree) : Tree := rightTreeFrom c.first c.rest

end Chain

/-! ## Formulas and their reference trees -/

/-- A formula `a₁ o₁ a₂ … aₙ`. -/
abbrev Formula := Chain Operand

namespace Formula

/-- The text of a formula. -/
def text (f : Formula) : List Char := Chain.text Operand.text f

/-- Every name of the formula is known to the scope. -/
def Known (scope : Scope) (f : Formula) : Prop :=
  f.first.atom.Known scope ∧ ∀ entry ∈ f.rest, entry.2.atom.Known scope

end Formula

/-- Whether an operator is `+` or `-`. -/
def BinaryOp.isAdditive : BinaryOp → Bool
  | .add | .sub => true
  | _ => false

/-- The tree of a run of powers `u₀ ^ s₁ ^ … ^ sₖ`: a lone operand is its own tree; otherwise
the unsigned base is raised to each exponent in turn, and the base's sign applies to the
whole. -/
def runTree (scope : Scope) (run : Chain Operand) : Tree :=
  match run.rest with
  | [] => run.first.tree scope
  | _ :: _ => signTree run.first.sign (run.rest.foldl
      (fun acc entry => .binary .pow acc (entry.2.tree scope)) (run.first.atom.tree scope))

/-- The tree the precedence grammar gives a formula: runs of powers first, then products
grouped to the right, then sums and differences grouped to the left. -/
def Formula.reference (scope : Scope) (f : Formula) : Tree :=
  let runs := (f.group (· != .pow)).map (runTree scope)
  ((runs.group BinaryOp.isAdditive).map Chain.rightTree).leftTree

/-- A tree with every leaf number set to zero. -/
def Tree.eraseLeaves : Tree → Tree
  | .const z => .const z
  | .var _ slot => .var 0 slot
  | .unary f arg => .unary f arg.eraseLeaves
  | .binary op left right => .binary op left.eraseLeaves right.eraseLeaves

end ComplexFormula
