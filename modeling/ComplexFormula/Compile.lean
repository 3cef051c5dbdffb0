import ComplexFormula.Resolve.Expression
import ComplexFormula.Normalize
import ComplexFormula.Tree.Fold
import ComplexFormula.Tree.Render

/-!
# Compiling an expression

A `Compiler` is a configuration: the constant table, the alternative bracket glyphs and
whether trees are folded. Compiling checks, in this order, that the expression is not blank,
that every constant name is a name (reporting the least offending one in code point order),
and that every declared variable name, once its white space is removed, is a name and no
constant's (in declaration order, the first fault reported). Repeated variable names are
merged, keeping the first position; a variable's slot is its position in that list. Then
the normalized text is resolved into a tree, the tree is folded if so configured, and the
occurrence index keeps only the leaves left in the tree.
-/

namespace ComplexFormula

/-- The configuration of compilation. -/
structure Compiler where
  constants : ConstantTable
  glyphs : BracketGlyphs
  /-- Whether constant subtrees and neutral operands are folded. -/
  folding : Bool

/-- A compiled expression: its tree, its declared variables (a variable's slot is its
position here), and the leaves of each variable that occurs in the tree. -/
structure Compiled where
  root : Tree
  variableNames : List String
  occurrences : OccurrenceIndex

namespace Compiler

/-- The built-in constants, square and curly brackets as alternatives, and folding. -/
def standard : Compiler := ⟨ConstantTable.builtin, BracketGlyphs.standard, true⟩

/-- The least of some names in code point order. -/
def leastName? (names : List String) : Option String :=
  names.foldl (fun least name =>
    match least with
    | some l => if name < l then some name else some l
    | none => some name) none

/-- Refuses a constant table with a name that is no name. -/
def checkConstants (table : ConstantTable) : Except CompileError Unit :=
  match leastName? (table.names.filter fun name => !Text.isIdentifier name) with
  | some name => .error (.invalidConstantName name)
  | none => .ok ()

/-- Cleans and checks declared names one by one, merging repetitions. -/
def declareVariables (table : ConstantTable) (names : List String) :
    Except CompileError (List String) :=
  names.foldlM (fun declared raw =>
    let name := Text.stripWhiteSpace raw
    if !Text.isIdentifier name then .error (.invalidVariableName name)
    else if table.contains name then .error (.reservedVariableName name)
    else if declared.contains name then .ok declared
    else .ok (declared ++ [name])) []

/-- Compiles an expression with the given declared variable names. -/
def compile (c : Compiler) (expression : String) (names : List String) :
    Except CompileError Compiled := do
  let text ← normalize c.glyphs expression
  checkConstants c.constants
  let variableNames ← declareVariables c.constants names
  let scope : Scope := ⟨c.constants, variableNames⟩
  let (raw, w) ← (resolveExpression scope text.toList).run Workspace.initial
  let root := if c.folding then raw.fold else raw
  pure ⟨root, variableNames, w.occurrences.retainPresent (root.leaves.map (·.1))⟩

end Compiler

namespace Compiled

/-- The text of the tree, fully bracketed, with variables by name. -/
def display (e : Compiled) : String := e.root.render e.variableNames

/-- The number of nodes of the tree. -/
def nodeCount (e : Compiled) : Nat := e.root.nodeCount

/-- The variable leaves of the tree, as leaf number and slot, from left to right. -/
def leaves (e : Compiled) : List (Nat × Nat) := e.root.leaves

end Compiled

end ComplexFormula
