import ComplexFormula.Resolve.Leaf
import ComplexFormula.UnaryFn

/-!
# Resolving an expression

Normalized text becomes a tree in four rewriting passes, each on the text left by the one
before:

1. Bracket groups, the first `(` first, the inside of a group before the group: the inside
   is resolved as an expression of its own, a function name right before the `(` (the
   longest one) applies to it, and the whole is replaced by a placeholder. A `)` left over
   afterwards is unbalanced.
2. Powers, the first `^` first: its base is the literal or name the text before it ends with,
   its exponent the optionally signed literal or name the text after it starts with, and the
   three are replaced by a placeholder. So `2^3^2` is `(2^3)^2`, and a sign before a base
   applies to the whole power: `-2^2` is `-1 * 2^2`.
3. Sums: the text is split at its last `+` or `-` that stands between two operands, is not
   the first or last character, does not follow another operator and is not the exponent
   sign of a literal; the left part is again a sum, so `a-b-c` is `(a-b)-c`.
4. Products: the text is split at its first `*` or `/`, and the right part is again a
   product, so `a/b/c` is `a/(b/c)`.

What remains between operators is resolved by `resolveLeaf`.

Each pass ends: the bracket pass removes at least one `(` per step, the power pass one `^`,
although a placeholder may make the text longer; sums and products recurse on shorter text.
-/

namespace ComplexFormula

/-- The position of the `)` that closes the `(` at the head of a text, counting nesting depth
from zero. -/
def closingOffset : List Char → Nat → Nat → Option Nat
  | [], _, _ => none
  | c :: rest, depth, pos =>
    if c == '(' then closingOffset rest (depth + 1) (pos + 1)
    else if c == ')' then
      if depth - 1 = 0 then some pos else closingOffset rest (depth - 1) (pos + 1)
    else closingOffset rest depth (pos + 1)

theorem closingOffset_opening (rest : List Char) (depth pos : Nat) :
    closingOffset ('(' :: rest) depth pos = closingOffset rest (depth + 1) (pos + 1) := by
  rw [closingOffset, if_pos (beq_self_eq_true _)]

theorem closingOffset_closing (rest : List Char) (depth pos : Nat) :
    closingOffset (')' :: rest) (depth + 1 + 1) pos = closingOffset rest (depth + 1) (pos + 1) := by
  rw [closingOffset, if_neg (by decide), if_pos (beq_self_eq_true _), if_neg (by omega)]
  rfl

/-- A `)` read with at most one bracket open is the one the search looks for. -/
theorem closingOffset_closing_last {depth : Nat} (shallow : depth ≤ 1) (rest : List Char)
    (pos : Nat) : closingOffset (')' :: rest) depth pos = some pos := by
  rw [closingOffset, if_neg (by decide), if_pos (beq_self_eq_true _), if_pos (by omega)]

theorem closingOffset_other {c : Char} (notOpening : c ≠ '(') (notClosing : c ≠ ')')
    (rest : List Char) (depth pos : Nat) :
    closingOffset (c :: rest) depth pos = closingOffset rest depth (pos + 1) := by
  rw [closingOffset, if_neg (by simpa using notOpening), if_neg (by simpa using notClosing)]

/-- Whether the character at position `idx` is an additive sign that splits the text: a `+`
or `-` after a character that is no operator, and not the exponent sign of a literal. -/
def isAdditiveSplit (text : List Char) (idx : Nat) : Bool :=
  (text[idx]?.map isSignChar).getD false &&
    !((text[idx - 1]?.map isOperatorChar).getD false) &&
    !Literal.isExponentSign text idx

/-- The last position, neither the first nor the last of the text, where the text splits
into a sum or difference. -/
def additiveSplit? (text : List Char) : Option Nat :=
  ((List.range (text.length - 2)).reverse.map (· + 1)).find? (isAdditiveSplit text)

theorem additiveSplit?_lt {text : List Char} {idx : Nat} (h : additiveSplit? text = some idx) :
    idx < text.length := by
  unfold additiveSplit? at h
  have mem := List.mem_of_find?_eq_some h
  simp only [List.mem_map, List.mem_reverse, List.mem_range] at mem
  omega

/-- The operator written at a position of a split: `+`, `-`, `*` or `/`. -/
def splitOperator (text : List Char) (idx : Nat) : BinaryOp :=
  match text[idx]? with
  | some '+' => .add
  | some '-' => .sub
  | some '*' => .mul
  | _ => .div

/-- Resolves a product: splits at the first `*` or `/`, the right part again a product. -/
def resolveProduct (scope : Scope) (text : List Char) : Resolve Tree :=
  match h : text.findIdx? (fun c => c == '*' || c == '/') with
  | some idx => do
    let left ← resolveLeaf scope (text.take idx)
    let right ← resolveProduct scope (text.drop (idx + 1))
    pure (.binary (splitOperator text idx) left right)
  | none => resolveLeaf scope text
termination_by text.length
decreasing_by
  have := (List.findIdx?_eq_some_iff_getElem.mp h).1
  simp only [List.length_drop]
  omega

/-- Resolves a sum: splits at the last additive sign that separates operands, the left part
again a sum, the right part a product. -/
def resolveSum (scope : Scope) (text : List Char) : Resolve Tree :=
  match h : additiveSplit? text with
  | some idx => do
    let left ← resolveSum scope (text.take idx)
    let right ← resolveProduct scope (text.drop (idx + 1))
    pure (.binary (splitOperator text idx) left right)
  | none => resolveProduct scope text
termination_by text.length
decreasing_by
  have := additiveSplit?_lt h
  simp only [List.length_take]
  omega

set_option linter.unusedVariables false in
/-- Replaces the power at the first `^` by a placeholder, until no `^` is left. The position
found is used only by the termination proof. -/
def resolvePowers (scope : Scope) (text : List Char) : Resolve (List Char) :=
  match found : text.findIdx? (· == '^') with
  | none => pure text
  | some pos => do
    let head := text.take pos
    let tail := text.drop (pos + 1)
    let w ← get
    match trailingAtomLength scope w head, leadingAtomLength scope w tail with
    | none, _ => unparseable text
    | some _, none => unparseable text
    | some baseLength, some exponentLength =>
      let baseStart := pos - baseLength
      let base ← resolveLeaf scope (head.drop baseStart)
      let exponent ← resolveLeaf scope (tail.take exponentLength)
      let n ← mint (.binary .pow base exponent)
      resolvePowers scope
        (Text.splice text baseStart (pos + 1 + exponentLength) (placeholderText n))
termination_by text.count '^'
decreasing_by
  obtain ⟨bound, isCaret, _⟩ := List.findIdx?_eq_some_iff_getElem.mp found
  apply Text.count_splice_lt (k := pos) (by omega) (by omega)
  · rw [List.getElem?_eq_getElem bound]
    simpa using isCaret
  · exact count_placeholderText n (by decide)

/-- Resolves bracket-free text with operators: refuses a trailing operator, folds the powers,
then splits the rest into sums and products. -/
def resolveOperators (scope : Scope) (text : List Char) : Resolve Tree := do
  match text.getLast? with
  | some last =>
    if isOperatorChar last then unparseable text
    else
      let flat ← resolvePowers scope text
      resolveSum scope flat
  | none => unparseable text

set_option linter.unusedVariables false in
/-- Resolves normalized text into a tree: bracket groups first, then operators or a single
leaf. The position found is used only by the termination proof. -/
def resolveExpression (scope : Scope) (text : List Char) : Resolve Tree :=
  match found : text.findIdx? (· == '(') with
  | some opening =>
    match closingOffset (text.drop opening) 0 0 with
    | none => throw (.unbalancedBrackets (String.ofList (text.drop opening)))
    | some offset => do
      let closing := opening + offset
      let function := UnaryFn.suffixOf? (text.take opening)
      let spanStart := opening - (function.map (·.name.length)).getD 0
      let inner ← resolveExpression scope ((text.drop (opening + 1)).take (closing - opening - 1))
      let node := match function with
        | some f => Tree.unary f inner
        | none => inner
      let n ← mint node
      resolveExpression scope (Text.splice text spanStart (closing + 1) (placeholderText n))
  | none =>
    if text.contains ')' then throw (.unbalancedBrackets (String.ofList text))
    else if text.any isOperatorChar then resolveOperators scope text
    else resolveLeaf scope text
termination_by text.count '('
decreasing_by
  all_goals
    obtain ⟨bound, isOpening, _⟩ := List.findIdx?_eq_some_iff_getElem.mp found
    have at_opening : text[opening]? = some '(' := by
      rw [List.getElem?_eq_getElem bound]
      simpa using isOpening
  · exact Text.count_take_drop_lt at_opening
  · apply Text.count_splice_lt (k := opening) (by omega) (by omega) at_opening
    exact count_placeholderText n (by decide)

end ComplexFormula
