import Mathlib
import ComplexFormula.Proofs.Writing
import ComplexFormula.Proofs.Indexing

/-!
# Reading a written tree back

A compiled tree is written fully bracketed (`Compiled.display`). Compiling the written form
once more, with the declared names and the constants of the first compilation and without
folding, gives the tree back up to leaf numbers (`Tree.sameUpToLeaves`, which compares
constants as floating point numbers), for every tree whose constants are finite real numbers
written with digits that read back to them (`compile_display_reads_back`), except that a
power must not have as its base a constant whose sign bit is set. Such a base is written with
a minus sign, and `(-2 ^ x)` reads as `-1 * (2 ^ x)`: the sign goes to the whole power
(`display_negative_base_misread`).

The proof follows the text from the left as the resolver does. The bracket of a node is
resolved where it stands, inside first, and the placeholder minted for it then stands in its
place (`Tree.ReadsInPlace`). Once both operands of a binary node stand as items, the inside of
its bracket is two items around the operator, which the operator passes read as the node
(`resolveExpression_pair`).
-/

namespace ComplexFormula

/-! ## Trees up to leaf numbers -/

namespace Tree

/-- Two trees agree up to leaf numbers: the same nodes, functions, operators and slots, and
constants whose parts are equal as floating point numbers (so `0` and `-0` agree). -/
def sameUpToLeaves : Tree → Tree → Bool
  | const z, const z' => z.re == z'.re && z.im == z'.im
  | var _ slot, var _ slot' => slot == slot'
  | unary f arg, unary f' arg' => f == f' && arg.sameUpToLeaves arg'
  | binary op left right, binary op' left' right' =>
    op == op' && left.sameUpToLeaves left' && right.sameUpToLeaves right'
  | _, _ => false

/-- A constant whose real part has its sign bit set: it is written with a minus sign. -/
def isSignedConstant : Tree → Bool
  | const z => !Binary64.isSignPositive z.re.toFloat
  | _ => false

/-- Whether some power of the tree has a signed constant as its base. -/
def hasSignedBase : Tree → Bool
  | const _ => false
  | var _ _ => false
  | unary _ arg => arg.hasSignedBase
  | binary op left right =>
    (op == .pow && left.isSignedConstant) || left.hasSignedBase || right.hasSignedBase

theorem eraseLeaves_eraseLeaves (t : Tree) : t.eraseLeaves.eraseLeaves = t.eraseLeaves := by
  induction t with
  | const z => rfl
  | var leaf slot => rfl
  | unary f arg inductionHypothesis => simp [eraseLeaves, inductionHypothesis]
  | binary op left right leftHypothesis rightHypothesis =>
    simp [eraseLeaves, leftHypothesis, rightHypothesis]

/-- Agreement up to leaf numbers does not see the leaf numbers of the second tree. -/
@[simp] theorem sameUpToLeaves_eraseLeaves (u t : Tree) :
    u.sameUpToLeaves t.eraseLeaves = u.sameUpToLeaves t := by
  induction u generalizing t with
  | const z => cases t <;> rfl
  | var leaf slot => cases t <;> rfl
  | unary f arg inductionHypothesis =>
    cases t <;> simp [sameUpToLeaves, eraseLeaves, inductionHypothesis]
  | binary op left right leftHypothesis rightHypothesis =>
    cases t <;> simp [sameUpToLeaves, eraseLeaves, leftHypothesis, rightHypothesis]

/-- What reading a tree back needs of it: its slots have names, and its constants are finite
real numbers whose written digits read back to them. -/
structure Writable (names : List String) (u : Tree) : Prop where
  slots : ∀ entry ∈ u.leaves, entry.2 < names.length
  real : ∀ z ∈ u.constants, z.re.isFinite = true ∧ (z.im == 0) = true
  readBack : ∀ z ∈ u.constants,
    ∃ r, Decimal.readWord? (writeReal z.re).toList = some r ∧ (z.re == r) = true

namespace Writable

variable {names : List String}

theorem arg {f : UnaryFn} {arg : Tree} (writable : (unary f arg).Writable names) :
    arg.Writable names :=
  ⟨writable.slots, writable.real, writable.readBack⟩

theorem left {op : BinaryOp} {left right : Tree}
    (writable : (binary op left right).Writable names) : left.Writable names where
  slots entry mem := writable.slots entry (List.mem_append_left _ mem)
  real z mem := writable.real z (List.mem_append_left _ mem)
  readBack z mem := writable.readBack z (List.mem_append_left _ mem)

theorem right {op : BinaryOp} {left right : Tree}
    (writable : (binary op left right).Writable names) : right.Writable names where
  slots entry mem := writable.slots entry (List.mem_append_right _ mem)
  real z mem := writable.real z (List.mem_append_right _ mem)
  readBack z mem := writable.readBack z (List.mem_append_right _ mem)

end Writable

end Tree

/-! ## Function names before a bracket -/

namespace UnaryFn

theorem noOperator_name (f : UnaryFn) : NoOperator f.name.toList := by
  have checked : f.name.toList.all (fun c => !isOperatorChar c) = true := by
    cases f <;> decide
  intro c mem
  simpa using List.all_eq_true.mp checked c mem

theorem opening_not_mem_name (f : UnaryFn) : '(' ∉ f.name.toList := by
  have checked : f.name.toList.all (fun c => c != '(') = true := by
    cases f <;> decide
  intro mem
  simpa using List.all_eq_true.mp checked '(' mem

/-- After an operator, or at the start, the text before it is no part of a function name. -/
theorem suffixOf?_append {A : List Char} (boundary : OperatorBefore A) (X : List Char) :
    suffixOf? (A ++ X) = suffixOf? X := by
  have same : ∀ f : UnaryFn,
      f.name.toList.isSuffixOf (A ++ X) = f.name.toList.isSuffixOf X := by
    intro f
    rw [Bool.eq_iff_iff, List.isSuffixOf_iff_suffix, List.isSuffixOf_iff_suffix]
    exact ⟨suffix_of_operatorBefore boundary (noOperator_name f),
      fun suffix => suffix.trans (List.suffix_append A X)⟩
  unfold suffixOf?
  simp only [same]

theorem suffixOf?_name (f : UnaryFn) : suffixOf? f.name.toList = some f := by
  cases f <;> decide

end UnaryFn

/-! ## Brackets where they stand -/

section Brackets

variable {scope : Scope}

/-- The first bracket of a text, around balanced text: its inside is resolved, the node it
makes (the inside, under the function whose name ends the text before the bracket) is minted,
and the placeholder takes the place of the bracket and of the name. -/
theorem resolveExpression_bracket {A B C : List Char} (noOpening : '(' ∉ A)
    (inner : Balanced B) :
    resolveExpression scope (A ++ '(' :: (B ++ ')' :: C)) = (do
      let t ← resolveExpression scope B
      let n ← mint ((UnaryFn.suffixOf? A).elim t (Tree.unary · t))
      resolveExpression scope
        (A.take (A.length - ((UnaryFn.suffixOf? A).map (·.name.length)).getD 0) ++
          placeholderText n ++ C)) := by
  have found : (A ++ '(' :: (B ++ ')' :: C)).findIdx? (· == '(') = some A.length :=
    findIdx?_beq_append_cons noOpening _
  have closes : closingOffset ((A ++ '(' :: (B ++ ')' :: C)).drop A.length) 0 0 =
      some (B.length + 1) := by
    rw [List.drop_left, closingOffset_bracket inner, if_pos rfl, Nat.zero_add]
  have taken : (A ++ '(' :: (B ++ ')' :: C)).take A.length = A := List.take_left
  have inside : ((A ++ '(' :: (B ++ ')' :: C)).drop (A.length + 1)).take
      (A.length + (B.length + 1) - A.length - 1) = B := by
    rw [show A.length + (B.length + 1) - A.length - 1 = B.length by omega]
    simp
  have spliced : ∀ (k : Nat) (piece : List Char),
      Text.splice (A ++ '(' :: (B ++ ')' :: C)) (A.length - k) (A.length + (B.length + 1) + 1)
        piece = A.take (A.length - k) ++ piece ++ C := by
    intro k piece
    rw [Text.splice, List.take_append_of_le_length (Nat.sub_le _ _)]
    congr 1
    rw [show A.length + (B.length + 1) + 1 = (A ++ '(' :: (B ++ [')'])).length by simp; omega,
      show A ++ '(' :: (B ++ ')' :: C) = (A ++ '(' :: (B ++ [')'])) ++ C by simp, List.drop_left]
  rw [resolveExpression_of_group found closes, taken, inside]
  simp only [spliced]

/-- A bracket after no function name holds a node of its own. -/
theorem resolveExpression_group_unnamed {A B C : List Char} (noOpening : '(' ∉ A)
    (noFunction : UnaryFn.suffixOf? A = none) (inner : Balanced B) :
    resolveExpression scope (A ++ '(' :: (B ++ ')' :: C)) = (do
      let t ← resolveExpression scope B
      let n ← mint t
      resolveExpression scope (A ++ placeholderText n ++ C)) := by
  rw [resolveExpression_bracket noOpening inner, noFunction]
  simp

/-- A bracket after an operator, or at the start, holds a node of its own. -/
theorem resolveExpression_group_after {A B C : List Char} (noOpening : '(' ∉ A)
    (boundary : OperatorBefore A) (inner : Balanced B) :
    resolveExpression scope (A ++ '(' :: (B ++ ')' :: C)) = (do
      let t ← resolveExpression scope B
      let n ← mint t
      resolveExpression scope (A ++ placeholderText n ++ C)) := by
  have noFunction : UnaryFn.suffixOf? A = none := by
    rw [← List.append_nil A, UnaryFn.suffixOf?_append boundary]
    rfl
  exact resolveExpression_group_unnamed noOpening noFunction inner

/-- A bracket after a function name applies the function, when the name follows an operator
or starts the text. -/
theorem resolveExpression_application {A B C : List Char} (noOpening : '(' ∉ A)
    (boundary : OperatorBefore A) (f : UnaryFn) (inner : Balanced B) :
    resolveExpression scope (A ++ f.name.toList ++ '(' :: (B ++ ')' :: C)) = (do
      let t ← resolveExpression scope B
      let n ← mint (Tree.unary f t)
      resolveExpression scope (A ++ placeholderText n ++ C)) := by
  have noOpening' : '(' ∉ A ++ f.name.toList := by
    simp only [List.mem_append, not_or]
    exact ⟨noOpening, f.opening_not_mem_name⟩
  have function : UnaryFn.suffixOf? (A ++ f.name.toList) = some f := by
    rw [UnaryFn.suffixOf?_append boundary, UnaryFn.suffixOf?_name]
  rw [resolveExpression_bracket noOpening' inner, function]
  simp [String.length_toList]

end Brackets

/-! ## Items read where they stand -/

section Items

variable {scope : Scope} (wf : scope.WellFormed)

/-- The sign in front of an item. -/
def Item.sign : Item → Option Sign
  | .operand a => a.sign
  | .held sign _ _ => sign

theorem Workspace.Sound.keys {w : Workspace} (sound : w.Sound scope) : w.Placeholders := by
  intro entry held
  obtain ⟨k, -, key⟩ := sound.fresh entry held
  exact ⟨k, key⟩

include wf in
/-- An item resolves to its tree, up to leaf numbers; a placeholder it holds is taken out of
the pending ones wherever it stands among them. -/
theorem resolveLeaf_item_within {w : Workspace} (sound : w.Sound scope) {x : Item}
    (known : x.Known scope) {old later : List (List Char × Tree)}
    (split : w.pending = old ++ x.entries ++ later) :
    ∃ t w', resolveLeaf scope x.text w = .ok (t, w') ∧
      t.eraseLeaves = (x.tree scope).eraseLeaves ∧ w'.pending = old ++ later := by
  cases x with
  | operand a =>
    obtain ⟨t, w', resolved, tree, pending, -⟩ := resolveLeaf_operand wf sound.keys a known
    refine ⟨t, w', resolved, ?_, ?_⟩
    · rw [Item.tree, ← tree, Tree.eraseLeaves_eraseLeaves]
    · rw [pending, split]
      simp [Item.entries]
  | held sign n t =>
    have distinct := sound.distinct
    rw [split] at distinct
    simp only [Item.entries, List.map_append, List.map_cons, List.map_nil, List.nodup_append,
      List.nodup_cons, List.mem_append, List.mem_singleton] at distinct
    have notOld : ∀ entry ∈ old, entry.1 ≠ placeholderText n := fun entry mem same =>
      distinct.1.2.2 entry.1 (List.mem_map_of_mem mem) _ rfl same
    have notLater : ∀ entry ∈ later, entry.1 ≠ placeholderText n := fun entry mem same =>
      distinct.2.2 _ (Or.inr rfl) entry.1 (List.mem_map_of_mem mem) same.symm
    have holding : w.pending.find? (·.1 == placeholderText n) = some (placeholderText n, t) := by
      rw [split, List.find?_append, List.find?_append,
        List.find?_eq_none.mpr (by simpa using notOld)]
      simp [Item.entries]
    have keepOld : old.filter (·.1 != placeholderText n) = old :=
      List.filter_eq_self.mpr (by simpa using notOld)
    have keepLater : later.filter (·.1 != placeholderText n) = later :=
      List.filter_eq_self.mpr (by simpa using notLater)
    have remaining : w.pending.filter (·.1 != placeholderText n) = old ++ later := by
      rw [split, List.filter_append, List.filter_append, keepOld, keepLater]
      simp [Item.entries]
    exact ⟨signTree sign t, _, resolveLeaf_held sound.keys sign holding, by simp [Item.tree],
      remaining⟩

/-- The sum pass reads an item alone as a leaf. -/
theorem resolveSum_item {x : Item} (named : x.Named) :
    resolveSum scope x.text = resolveLeaf scope x.text := by
  have noSum := additiveSplit?_product ⟨x, []⟩ (by simp) (by simp [Chain.pieces, named])
  rw [show Chain.text Item.text ⟨x, []⟩ = x.text by simp [Chain.text]] at noSum
  rw [resolveSum_of_none noSum, resolveProduct_of_none (findIdx?_item named)]

theorem caret_findIdx?_item {x : Item} (named : x.Named) :
    x.text.findIdx? (· == '^') = none :=
  findIdx?_beq_eq_none (Item.not_mem_text named (Or.inr (Or.inr (Or.inl rfl))))

/-- An item alone is read as a leaf. -/
theorem resolveExpression_item {x : Item} (named : x.Named) :
    resolveExpression scope x.text = resolveLeaf scope x.text := by
  rw [resolveExpression_of_plain (Item.not_mem_text named (by simp))
    (Item.not_mem_text named (by simp))]
  split
  · obtain ⟨p, last, notOperator⟩ := x.getLast?_text named
    rw [resolveOperators_of_last last notOperator,
      resolvePowers_of_none (caret_findIdx?_item named), pure_bind, resolveSum_item named]
  · rfl

/-- Two items around an operator end as the second one ends. -/
theorem Item.getLast?_pair (x : Item) {y : Item} (c : Char) {p : Char}
    (last : y.text.getLast? = some p) : (x.text ++ c :: y.text).getLast? = some p := by
  rw [List.getLast?_append, List.getLast?_cons, last]
  rfl

end Items

/-! ## Two items around an operator -/

section Pairs

variable {scope : Scope} (wf : scope.WellFormed)
include wf

/-- An unsigned item at the start of the text is read whole as the base of a power. -/
theorem trailingAtomLength_item {w : Workspace} (keys : w.Placeholders) {x : Item}
    (known : x.Known scope) (unsigned : x.sign = none)
    (pending : ∀ entry ∈ x.entries, entry.1 ∈ w.pending.map (·.1)) :
    trailingAtomLength scope w x.text = some x.text.length := by
  cases x with
  | operand a =>
    obtain ⟨sign, atom⟩ := a
    simp only [Item.sign] at unsigned
    subst unsigned
    cases atom with
    | literal lit literal =>
      -- nothing stands before the literal that could continue it
      have separate : ∀ front, front ≠ [] → front <:+ [] →
          Literal.isLiteral (front ++ lit) false = false :=
        fun front nonempty suffix => absurd (List.suffix_nil.mp suffix) nonempty
      show trailingAtomLength scope w ([] ++ lit) = some ([] ++ lit).length
      exact trailingAtomLength_literal wf keys literal OperatorBefore.nil separate
    | name n =>
      show trailingAtomLength scope w ([] ++ n.toList) = some ([] ++ n.toList).length
      exact trailingAtomLength_name wf keys known OperatorBefore.nil
  | held sign k t =>
    simp only [Item.sign] at unsigned
    subst unsigned
    exact trailingAtomLength_placeholder wf keys (pending _ (List.mem_singleton_self _)) []

/-- A pending placeholder, signed or not, followed by an operator or by nothing, is read whole
as the exponent of a power. -/
theorem leadingAtomLength_held {w : Workspace} (keys : w.Placeholders) (sign : Option Sign)
    {k : Nat} (pending : placeholderText k ∈ w.pending.map (·.1)) {R : List Char}
    (after : OperatorAfter R) :
    leadingAtomLength scope w (signText sign ++ placeholderText k ++ R) =
      some (signText sign ++ placeholderText k).length := by
  have head : (placeholderText k ++ R).head? = some '|' := by simp [placeholderText_eq]
  have noLiteral : Literal.leadingLength (signText sign ++ (placeholderText k ++ R)) true =
      none := by
    rw [placeholderText_eq, List.cons_append]
    exact Literal.leadingLength_eq_none (signText_shape sign) (by decide) (by decide) (by decide)
      (by decide) _
  -- a name the text starts with ends before the operator after the placeholder
  have bound : ∀ l ∈ ((atomNames scope w).filter (·.isPrefixOf (placeholderText k ++ R))).map
      ((signText sign).length + ·.length),
      l ≤ (signText sign).length + (placeholderText k).length := by
    intro l mem
    obtain ⟨m, inFilter, rfl⟩ := List.mem_map.mp mem
    obtain ⟨listed, isPrefix⟩ := List.mem_filter.mp inFilter
    have within := (prefix_of_operatorAfter after (atomNames_noOperator wf keys listed)
      (List.isPrefixOf_iff_prefix.mp isPrefix)).length_le
    omega
  have names : longest (((atomNames scope w).filter (·.isPrefixOf (placeholderText k ++ R))).map
      ((signText sign).length + ·.length)) =
      some ((signText sign).length + (placeholderText k).length) :=
    longest_eq_some (List.mem_map.mpr ⟨placeholderText k, List.mem_filter.mpr
      ⟨mem_atomNames_of_pending pending, List.isPrefixOf_iff_prefix.mpr
        (List.prefix_append _ R)⟩, rfl⟩) bound
  rw [List.append_assoc, leadingAtomLength_signed sign head (by decide), noLiteral, names,
    List.length_append]
  rfl

/-- An item followed by an operator, or by nothing, is read whole as the exponent of a
power. -/
theorem leadingAtomLength_item {w : Workspace} (keys : w.Placeholders) {y : Item}
    (known : y.Known scope) (pending : ∀ entry ∈ y.entries, entry.1 ∈ w.pending.map (·.1))
    {R : List Char} (after : OperatorAfter R) :
    leadingAtomLength scope w (y.text ++ R) = some y.text.length := by
  cases y with
  | operand a => exact leadingAtomLength_operand wf keys a known after
  | held sign k t =>
    exact leadingAtomLength_held wf keys sign (pending _ (List.mem_singleton_self _)) after

/-- Two items around an operator other than `^` are read by the sum pass, which splits at the
sign, or by the product pass, which splits at `*` or `/`; each item is read as a leaf. -/
theorem resolveSum_pair {w : Workspace} (sound : w.Sound scope) {x y : Item}
    (knownX : x.Known scope) (knownY : y.Known scope) {op : BinaryOp} (notPow : op ≠ .pow)
    {old : List (List Char × Tree)} (split : w.pending = old ++ x.entries ++ y.entries) :
    ∃ t w', resolveSum scope (x.text ++ op.symbol :: y.text) w = .ok (t, w') ∧
      t.eraseLeaves = .binary op (x.tree scope).eraseLeaves (y.tree scope).eraseLeaves ∧
      w'.pending = old := by
  have namedX := Item.named_of_known wf knownX
  have namedY := Item.named_of_known wf knownY
  obtain ⟨left, w₁, leftResolved, leftTree, pending₁⟩ :=
    resolveLeaf_item_within wf sound knownX split
  have split₁ : w₁.pending = old ++ y.entries ++ [] := by rw [pending₁, List.append_nil]
  obtain ⟨right, w₂, rightResolved, rightTree, pending₂⟩ := resolveLeaf_item_within wf
    (resolveLeaf_resolved wf x.text sound leftResolved).ran.sound knownY split₁
  have taken : (x.text ++ op.symbol :: y.text).take x.text.length = x.text := List.take_left
  have dropped : (x.text ++ op.symbol :: y.text).drop (x.text.length + 1) = y.text := by simp
  refine ⟨.binary op left right, w₂, ?_, by simp [Tree.eraseLeaves, leftTree, rightTree],
    by simpa using pending₂⟩
  cases additive : op.isAdditive with
  | true =>
    have sign : isSignChar op.symbol = true := by
      cases op with
      | add | sub => rfl
      | mul | div => cases additive
      | pow => exact absurd rfl notPow
    have found : additiveSplit? (x.text ++ op.symbol :: y.text) = some x.text.length := by
      simpa [Chain.text] using additiveSplit?_before_product OperatorBefore.nil namedX sign
        ⟨y, []⟩ (by simp) (by simp [Chain.pieces, namedY])
    rw [resolveSum_of_some found, taken, dropped, splitOperator_symbol _ _ notPow,
      resolveSum_item namedX, Resolve.bind_of_ok leftResolved,
      resolveProduct_of_none (findIdx?_item namedY), Resolve.bind_of_ok rightResolved]
    rfl
  | false =>
    have multiplicative : op = .mul ∨ op = .div := by
      cases op with
      | mul => exact Or.inl rfl
      | div => exact Or.inr rfl
      | add | sub => cases additive
      | pow => exact absurd rfl notPow
    have noSum : additiveSplit? (x.text ++ op.symbol :: y.text) = none := by
      simpa [Chain.text] using additiveSplit?_product ⟨x, [(op, y)]⟩
        (by simpa using multiplicative) (by simp [Chain.pieces, namedX, namedY])
    rw [resolveSum_of_none noSum, resolveProduct_of_some (findIdx?_product namedX multiplicative _),
      taken, dropped, splitOperator_symbol _ _ notPow, Resolve.bind_of_ok leftResolved,
      resolveProduct_of_none (findIdx?_item namedY), Resolve.bind_of_ok rightResolved]
    rfl

/-- An unsigned item, `^` and an item: the power pass reads the two as base and exponent and
mints their power, whose placeholder the sum pass then reads back. -/
theorem resolveOperators_power_pair {w : Workspace} (sound : w.Sound scope) {x y : Item}
    (knownX : x.Known scope) (knownY : y.Known scope) (unsigned : x.sign = none)
    {old : List (List Char × Tree)} (split : w.pending = old ++ x.entries ++ y.entries) :
    ∃ t w', resolveOperators scope (x.text ++ '^' :: y.text) w = .ok (t, w') ∧
      t.eraseLeaves = .binary .pow (x.tree scope).eraseLeaves (y.tree scope).eraseLeaves ∧
      w'.pending = old := by
  have namedX := Item.named_of_known wf knownX
  have namedY := Item.named_of_known wf knownY
  have pendingX : ∀ entry ∈ x.entries, entry.1 ∈ w.pending.map (·.1) := fun entry mem =>
    List.mem_map_of_mem (by rw [split]; simp [mem])
  have pendingY : ∀ entry ∈ y.entries, entry.1 ∈ w.pending.map (·.1) := fun entry mem =>
    List.mem_map_of_mem (by rw [split]; simp [mem])
  obtain ⟨base, w₁, baseResolved, baseTree, pending₁⟩ :=
    resolveLeaf_item_within wf sound knownX split
  have baseBooks := resolveLeaf_resolved wf x.text sound baseResolved
  have split₁ : w₁.pending = old ++ y.entries ++ [] := by rw [pending₁, List.append_nil]
  obtain ⟨exponent, w₂, exponentResolved, exponentTree, pending₂⟩ :=
    resolveLeaf_item_within wf baseBooks.ran.sound knownY split₁
  have books := baseBooks.binary (resolveLeaf_resolved wf y.text baseBooks.ran.sound
    exponentResolved) .pow
  have noCaret : '^' ∉ [] ++ x.text := by
    rw [List.nil_append]
    exact Item.not_mem_text namedX (Or.inr (Or.inr (Or.inl rfl)))
  have trailing : trailingAtomLength scope w ([] ++ x.text) = some x.text.length :=
    trailingAtomLength_item wf sound.keys knownX unsigned pendingX
  have leading : leadingAtomLength scope w (y.text ++ []) = some y.text.length :=
    leadingAtomLength_item wf sound.keys knownY pendingY OperatorAfter.nil
  have power := resolvePowers_step noCaret trailing leading baseResolved exponentResolved
  simp only [List.append_nil, List.nil_append] at power
  -- the power is minted, and its placeholder is all the sum pass sees
  have minted : (Item.held none (w₂.minted + 1) (.binary .pow base exponent)).Named := trivial
  have mintedKnown : (Item.held none (w₂.minted + 1) (.binary .pow base exponent)).Known scope :=
    trivial
  have flat : resolvePowers scope (x.text ++ '^' :: y.text) w =
      .ok ((Item.held none (w₂.minted + 1) (.binary .pow base exponent)).text,
        w₂.withMinted (.binary .pow base exponent)) := by
    rw [power]
    show resolvePowers scope (Item.held none (w₂.minted + 1) (.binary .pow base exponent)).text
      (w₂.withMinted (.binary .pow base exponent)) = _
    rw [resolvePowers_of_none (caret_findIdx?_item minted)]
    rfl
  have split₃ : (w₂.withMinted (.binary .pow base exponent)).pending =
      old ++ (Item.held none (w₂.minted + 1) (.binary .pow base exponent)).entries ++ [] := by
    simp [Workspace.withMinted, pending₂, Item.entries]
  obtain ⟨t, w₃, taken, tree, pending₃⟩ := resolveLeaf_item_within wf
    (books.ran.sound.withMinted books.registered) mintedKnown split₃
  obtain ⟨p, last, notOperator⟩ := y.getLast?_text namedY
  refine ⟨t, w₃, ?_, ?_, by simpa using pending₃⟩
  · rw [resolveOperators_of_last (x.getLast?_pair '^' last) notOperator, Resolve.bind_of_ok flat,
      resolveSum_item minted]
    exact taken
  · rw [tree]
    simp [Item.tree, signTree, Tree.eraseLeaves, baseTree, exponentTree]

/-- Two items around an operator, the first unsigned when the operator is `^`, are read as the
operator applied to the two, and their placeholders are taken. -/
theorem resolveExpression_pair {w : Workspace} (sound : w.Sound scope) {x y : Item}
    (knownX : x.Known scope) (knownY : y.Known scope) {op : BinaryOp}
    (unsignedBase : op = .pow → x.sign = none) {old : List (List Char × Tree)}
    (split : w.pending = old ++ x.entries ++ y.entries) :
    ∃ t w', resolveExpression scope (x.text ++ op.symbol :: y.text) w = .ok (t, w') ∧
      t.eraseLeaves = .binary op (x.tree scope).eraseLeaves (y.tree scope).eraseLeaves ∧
      w'.pending = old := by
  have namedX := Item.named_of_known wf knownX
  have namedY := Item.named_of_known wf knownY
  have pair : Chain.text Item.text ⟨x, [(op, y)]⟩ = x.text ++ op.symbol :: y.text := by
    simp [Chain.text]
  have namedPair : ∀ z ∈ (Chain.mk x [(op, y)]).pieces, z.Named := by
    simp [Chain.pieces, namedX, namedY]
  have round : ∀ c, c = '(' ∨ c = ')' → c ∉ x.text ++ op.symbol :: y.text := by
    intro c isRound
    rw [← pair]
    intro mem
    rcases List.mem_append.mp mem with inX | inRest
    · exact Item.not_mem_text namedX (by rcases isRound with rfl | rfl <;> simp) inX
    · obtain ⟨entry, listed, inEntry⟩ := List.mem_flatMap.mp inRest
      rw [List.mem_singleton.mp listed] at inEntry
      rcases List.mem_cons.mp inEntry with isSymbol | inY
      · rcases isRound with rfl | rfl <;> cases op <;> cases isSymbol
      · exact Item.not_mem_text namedY (by rcases isRound with rfl | rfl <;> simp) inY
  have operator : (x.text ++ op.symbol :: y.text).any isOperatorChar = true :=
    List.any_eq_true.mpr ⟨op.symbol, by simp, op.isOperatorChar_symbol⟩
  rw [resolveExpression_of_plain (round '(' (Or.inl rfl)) (round ')' (Or.inr rfl)),
    if_pos operator]
  by_cases pow : op = .pow
  · subst pow
    exact resolveOperators_power_pair wf sound knownX knownY (unsignedBase rfl) split
  · obtain ⟨p, last, notOperator⟩ := y.getLast?_text namedY
    have noCaret : (x.text ++ op.symbol :: y.text).findIdx? (· == '^') = none := by
      rw [← pair]
      exact findIdx?_beq_eq_none (caret_not_mem_items namedPair (by simpa using pow))
    rw [resolveOperators_of_last (x.getLast?_pair op.symbol last) notOperator,
      resolvePowers_of_none noCaret, pure_bind]
    exact resolveSum_pair wf sound knownX knownY pow split

end Pairs

/-! ## Subtrees read in place -/

/-- A tree's written form is read in place: wherever it stands after a text `A` without
brackets that is empty or ends with an operator, resolving the text comes down to resolving
it with the written form replaced by an item, the written form itself for a leaf and a
placeholder just minted for any other tree. The item stands for a tree that agrees with this
one, and it is signed only if this tree is a signed constant. -/
def Tree.ReadsInPlace (scope : Scope) (u : Tree) : Prop :=
  ∀ (A C : List Char) {w : Workspace}, '(' ∉ A → OperatorBefore A → w.Sound scope →
    ∃ (x : Item) (w' : Workspace),
      resolveExpression scope (A ++ u.compactText scope.variableNames ++ C) w =
        resolveExpression scope (A ++ x.text ++ C) w' ∧
      x.Known scope ∧ u.sameUpToLeaves (x.tree scope) = true ∧
      (u.isSignedConstant = false → x.sign = none) ∧
      w'.pending = w.pending ++ x.entries ∧ w'.Sound scope

section InPlace

variable {scope : Scope} (wf : scope.WellFormed)

include wf in
/-- A tree read in place, alone in the text, resolves to a tree that agrees with it, and the
pending placeholders are as they were. -/
theorem Tree.ReadsInPlace.resolves {u : Tree} (reads : u.ReadsInPlace scope) {w : Workspace}
    (sound : w.Sound scope) :
    ∃ t w', resolveExpression scope (u.compactText scope.variableNames) w = .ok (t, w') ∧
      u.sameUpToLeaves t = true ∧ w'.pending = w.pending := by
  obtain ⟨x, w₁, same, known, agrees, -, pending, sound₁⟩ :=
    reads [] [] List.not_mem_nil OperatorBefore.nil sound
  simp only [List.nil_append, List.append_nil] at same
  rw [resolveExpression_item (Item.named_of_known wf known)] at same
  have split : w₁.pending = w.pending ++ x.entries ++ [] := by rw [pending, List.append_nil]
  obtain ⟨t, w', resolved, tree, pending'⟩ := resolveLeaf_item_within wf sound₁ known split
  refine ⟨t, w', same.trans resolved, ?_, by simpa using pending'⟩
  rw [← Tree.sameUpToLeaves_eraseLeaves, tree, Tree.sameUpToLeaves_eraseLeaves]
  exact agrees

/-- A finite real constant whose digits read back to it is read in place as its literal. -/
theorem Tree.readsInPlace_const {z : ComplexFloat}
    (real : z.re.isFinite = true ∧ (z.im == 0) = true)
    (readBack : ∃ r, Decimal.readWord? (writeReal z.re).toList = some r ∧ (z.re == r) = true) :
    (Tree.const z).ReadsInPlace scope := by
  intro A C w _ _ sound
  obtain ⟨sign, lit, unsigned, written, positive⟩ := writeReal_of_isFinite real.1
  obtain ⟨r, read, same⟩ := readBack
  rw [written] at read
  have value : literalValue sign lit unsigned = r := by simp [literalValue, read]
  refine ⟨.operand ⟨sign, .literal lit unsigned⟩, w, ?_, trivial, ?_, ?_,
    by simp [Item.entries], sound⟩
  · rw [Tree.compactText_const _ real.2 real.1, written]
    rfl
  · simp [Item.tree, Operand.tree, Tree.sameUpToLeaves, value, same, ComplexFloat.ofReal, real.2]
  · intro notSigned
    simp only [Tree.isSignedConstant, Bool.not_eq_false'] at notSigned
    exact positive notSigned

include wf in
/-- A declared variable is read in place as its name. -/
theorem Tree.readsInPlace_var (distinct : scope.variableNames.Nodup) {leaf slot : Nat}
    (bound : slot < scope.variableNames.length) : (Tree.var leaf slot).ReadsInPlace scope := by
  intro A C w _ _ sound
  have declared := List.getElem_mem bound
  refine ⟨.operand ⟨none, .name scope.variableNames[slot]⟩, w, ?_, Or.inr declared, ?_,
    fun _ => rfl, by simp [Item.entries], sound⟩
  · rw [Tree.compactText_var _ (List.getElem?_eq_getElem bound) (wf.variablesNamed _ declared)]
    rfl
  · have notConstant := ConstantTable.find?_eq_none (wf.variablesFree _ declared)
    simp [Item.tree, Operand.tree, signTree, nameTree, notConstant, Tree.sameUpToLeaves,
      distinct.idxOf_getElem]

include wf in
/-- A function application is read in place once its argument is: the bracket after the name
is resolved where it stands, and the application is minted. -/
theorem Tree.ReadsInPlace.unary {arg : Tree} (reads : arg.ReadsInPlace scope)
    (balanced : Balanced (arg.compactText scope.variableNames)) (f : UnaryFn) :
    (Tree.unary f arg).ReadsInPlace scope := by
  intro A C w noOpening boundary sound
  obtain ⟨t, w₁, inner, agrees, pending₁⟩ := reads.resolves wf sound
  have books := resolveExpression_resolved wf _ sound inner
  refine ⟨.held none (w₁.minted + 1) (.unary f t), w₁.withMinted (.unary f t), ?_, trivial,
    ?_, fun _ => rfl, ?_, books.ran.sound.withMinted books.registered⟩
  · rw [Tree.compactText_unary, show A ++ (f.name.toList ++ '(' ::
        (arg.compactText scope.variableNames ++ [')'])) ++ C = A ++ f.name.toList ++ '(' ::
        (arg.compactText scope.variableNames ++ ')' :: C) by simp,
      resolveExpression_application noOpening boundary f balanced, Resolve.bind_of_ok inner,
      Resolve.bind_of_ok (mint_apply _ _)]
    rfl
  · simp [Item.tree, signTree, Tree.sameUpToLeaves, agrees]
  · simp [Workspace.withMinted, pending₁, Item.entries]

include wf in
/-- A binary node is read in place once its operands are: inside its bracket the left operand
is read in place, then the right one after the operator, the two items around the operator
make the node, and the node is minted. A power must not have a signed constant as its base. -/
theorem Tree.ReadsInPlace.binary {op : BinaryOp} {left right : Tree}
    (readsLeft : left.ReadsInPlace scope) (readsRight : right.ReadsInPlace scope)
    (balanced : Balanced (left.compactText scope.variableNames ++
      op.symbol :: right.compactText scope.variableNames))
    (unsignedBase : op = .pow → left.isSignedConstant = false) :
    (Tree.binary op left right).ReadsInPlace scope := by
  intro A C w noOpening boundary sound
  -- the inside of the bracket: the left operand in place, then the right one
  obtain ⟨x, w₁, first, knownX, agreesX, signX, pending₁, sound₁⟩ :=
    readsLeft [] (op.symbol :: right.compactText scope.variableNames) List.not_mem_nil
      OperatorBefore.nil sound
  have namedX := Item.named_of_known wf knownX
  have noOpeningX : '(' ∉ x.text ++ [op.symbol] := by
    rw [List.mem_append, not_or]
    exact ⟨Item.not_mem_text namedX (by simp), by cases op <;> decide⟩
  obtain ⟨y, w₂, second, knownY, agreesY, -, pending₂, sound₂⟩ :=
    readsRight (x.text ++ [op.symbol]) [] noOpeningX
      (OperatorBefore.concat x.text op.isOperatorChar_symbol) sound₁
  have split : w₂.pending = w.pending ++ x.entries ++ y.entries := by rw [pending₂, pending₁]
  obtain ⟨t, w₃, pair, tree, pending₃⟩ := resolveExpression_pair wf sound₂ knownX knownY
    (fun pow => signX (unsignedBase pow)) split
  simp only [List.nil_append, List.append_nil, List.append_assoc, List.singleton_append]
    at first second
  have inner : resolveExpression scope (left.compactText scope.variableNames ++
      op.symbol :: right.compactText scope.variableNames) w = .ok (t, w₃) := by
    rw [first, second]
    exact pair
  have books := resolveExpression_resolved wf _ sound inner
  refine ⟨.held none (w₃.minted + 1) t, w₃.withMinted t, ?_, trivial, ?_, fun _ => rfl, ?_,
    books.ran.sound.withMinted books.registered⟩
  · rw [Tree.compactText_binary, show A ++ '(' :: (left.compactText scope.variableNames ++
        op.symbol :: (right.compactText scope.variableNames ++ [')'])) ++ C =
        A ++ '(' :: ((left.compactText scope.variableNames ++
          op.symbol :: right.compactText scope.variableNames) ++ ')' :: C) by simp,
      resolveExpression_group_after noOpening boundary balanced, Resolve.bind_of_ok inner,
      Resolve.bind_of_ok (mint_apply _ _)]
    rfl
  · rw [Item.tree, signTree, ← Tree.sameUpToLeaves_eraseLeaves, tree]
    simp [Tree.sameUpToLeaves, agreesX, agreesY]
  · simp [Workspace.withMinted, pending₃, Item.entries]

include wf in
/-- Every tree with declared names and readable constants, in which no power has a signed
constant as its base, is read in place: by induction on the tree, a leaf as itself and any
other node through its bracket. -/
theorem Tree.readsInPlace (distinct : scope.variableNames.Nodup) (u : Tree)
    (writable : u.Writable scope.variableNames) (unsignedBases : u.hasSignedBase = false) :
    u.ReadsInPlace scope := by
  have named : ∀ name ∈ scope.variableNames, Text.isIdentifier name = true := wf.variablesNamed
  induction u with
  | const z =>
    exact Tree.readsInPlace_const (writable.real z (List.mem_singleton_self z))
      (writable.readBack z (List.mem_singleton_self z))
  | var leaf slot =>
    exact Tree.readsInPlace_var wf distinct
      (writable.slots (leaf, slot) (List.mem_singleton_self _))
  | unary f arg inductionHypothesis =>
    have balanced := (arg.compactText_shape named writable.arg.slots writable.arg.real).1
    exact (inductionHypothesis writable.arg unsignedBases).unary wf balanced f
  | binary op left right leftHypothesis rightHypothesis =>
    simp only [Tree.hasSignedBase, Bool.or_eq_false_iff] at unsignedBases
    obtain ⟨⟨notSignedPower, leftBases⟩, rightBases⟩ := unsignedBases
    have symbol : Balanced [op.symbol] := by
      apply balanced_of_round_free <;> cases op <;> decide
    have balanced : Balanced (left.compactText scope.variableNames ++
        op.symbol :: right.compactText scope.variableNames) := by
      have joined := ((left.compactText_shape named writable.left.slots writable.left.real).1.append
        symbol).append (right.compactText_shape named writable.right.slots writable.right.real).1
      simpa using joined
    refine (leftHypothesis writable.left leftBases).binary wf
      (rightHypothesis writable.right rightBases) balanced fun pow => ?_
    subst pow
    simpa using notSignedPower

end InPlace

/-! ## Compiling the written form -/

theorem Text.stripWhiteSpace_of_identifier {name : String}
    (identifier : Text.isIdentifier name = true) : Text.stripWhiteSpace name = name := by
  rw [Text.stripWhiteSpace, List.filter_eq_self.mpr, String.ofList_toList]
  intro c mem
  simp [Text.isWhiteSpace_eq_false_of_mem_identifier identifier mem]

/-- The declared names that the check accepts hold no name twice. -/
theorem Compiler.declared_nodup {table : ConstantTable} {names declared : List String}
    (checked : Compiler.declareVariables table names = .ok declared) : declared.Nodup := by
  unfold Compiler.declareVariables at checked
  refine Except.foldlM_invariant List.Nodup List.nodup_nil ?_ checked
  intro accepted raw next distinct stepped
  dsimp only at stepped
  split at stepped
  · cases stepped
  · split at stepped
    · cases stepped
    · split at stepped
      · cases stepped
        exact distinct
      · next fresh =>
        cases stepped
        rw [List.nodup_append]
        refine ⟨distinct, List.nodup_singleton _, ?_⟩
        intro old listed new isNew same
        rw [List.mem_singleton] at isNew
        subst isNew same
        exact fresh (List.contains_iff_mem.mpr listed)

/-- Declaring the names that the check accepted once more accepts them as they are: they are
names, no constant's, and none is repeated. -/
theorem Compiler.declareVariables_declared {table : ConstantTable} {names declared : List String}
    (checked : Compiler.declareVariables table names = .ok declared) :
    Compiler.declareVariables table declared = .ok declared := by
  have accepted := Compiler.declared_of_check checked
  have distinct := Compiler.declared_nodup checked
  clear checked
  unfold Compiler.declareVariables
  -- the names are kept one after the other, by induction from the right
  induction declared using List.reverseRecOn with
  | nil => rfl
  | append_singleton done name inductionHypothesis =>
    rw [List.nodup_append] at distinct
    obtain ⟨identifier, free⟩ := accepted name (by simp)
    have absent : name ∉ done := fun listed => distinct.2.2 name listed name (by simp) rfl
    rw [List.foldlM_append, inductionHypothesis
      (fun other mem => accepted other (List.mem_append_left _ mem)) distinct.1]
    simp [Text.stripWhiteSpace_of_identifier identifier, identifier, free, absent, bind,
      Except.bind, pure, Except.pure]

/-- Compiling the written form of a compiled expression once more, with its declared names and
its constants and without folding, gives its tree back up to leaf numbers, when its constants
are finite real numbers whose written digits read back to them and no power of it has a
signed constant as its base. -/
theorem compile_display_reads_back {c : Compiler} {expression : String} {names : List String}
    {e : Compiled} (compiled : c.compile expression names = .ok e)
    (real : ∀ z ∈ e.root.constants, z.re.isFinite = true ∧ (z.im == 0) = true)
    (readBack : ∀ z ∈ e.root.constants,
      ∃ r, Decimal.readWord? (writeReal z.re).toList = some r ∧ (z.re == r) = true)
    (unsignedBases : e.root.hasSignedBase = false) :
    ∃ e', Compiler.compile ⟨c.constants, BracketGlyphs.standard, false⟩ e.display
        e.variableNames = .ok e' ∧
      e'.variableNames = e.variableNames ∧ e.root.sameUpToLeaves e'.root = true := by
  obtain ⟨-, -, named, -, -⟩ := Compiler.compile_indexed compiled
  obtain ⟨text, declared, raw, w, -, checked, declaredChecked, -, rfl⟩ :=
    Compiler.compile_eq_ok compiled
  have wf := Compiler.wellFormed_of_checks checked declaredChecked
  have writable : Tree.Writable declared (if c.folding then raw.fold else raw) := by
    refine ⟨fun entry held => ?_, real, readBack⟩
    obtain ⟨name, slot⟩ := named entry held
    exact (List.getElem?_eq_some_iff.mp slot).1
  obtain ⟨t, w', resolved, agrees, -⟩ :=
    (Tree.readsInPlace wf (Compiler.declared_nodup declaredChecked) _ writable
      unsignedBases).resolves wf (Workspace.sound_initial _)
  have normal := Tree.normalize_render wf.variablesNamed _ writable.slots writable.real
  refine ⟨⟨t, declared, w'.occurrences.retainPresent (t.leaves.map (·.1))⟩, ?_, rfl,
    agrees⟩
  simp only [Compiled.display, Compiler.compile, normal, checked,
    Compiler.declareVariables_declared declaredChecked, bind, Except.bind, StateT.run,
    String.toList_ofList]
  rw [show resolveExpression ⟨c.constants, declared⟩
      ((if c.folding then raw.fold else raw).compactText declared) Workspace.initial =
      .ok (t, w') from resolved]
  rfl

/-- The written form of `sqrt(x)^(3-1)/x-pi`, compiled with folding, reads back: the folded
constant `2` and the value of `pi` are written with digits that read back to them. -/
theorem compile_display_reads_back_folded :
    ∃ e e', Compiler.compile Compiler.standard "sqrt(x)^(3-1)/x-pi" ["x"] = .ok e ∧
      Compiler.compile ⟨ConstantTable.builtin, BracketGlyphs.standard, false⟩ e.display
        e.variableNames = .ok e' ∧
      e'.variableNames = e.variableNames ∧ e.root.sameUpToLeaves e'.root = true := by
  have checked : (Compiler.compile Compiler.standard "sqrt(x)^(3-1)/x-pi" ["x"]).toOption.map
      (fun e => e.root.constants.all (fun z => z.re.isFinite && z.im == 0 &&
        (Decimal.readWord? (writeReal z.re).toList).any (z.re == ·)) &&
        !e.root.hasSignedBase) = some true := by
    decide +kernel
  obtain ⟨e, compiled, good⟩ : ∃ e, Compiler.compile Compiler.standard "sqrt(x)^(3-1)/x-pi"
      ["x"] = .ok e ∧ (e.root.constants.all (fun z => z.re.isFinite && z.im == 0 &&
        (Decimal.readWord? (writeReal z.re).toList).any (z.re == ·)) &&
        !e.root.hasSignedBase) = true := by
    cases result : Compiler.compile Compiler.standard "sqrt(x)^(3-1)/x-pi" ["x"] with
    | error err => simp [result, Except.toOption] at checked
    | ok e => exact ⟨e, rfl, by simpa [result, Except.toOption] using checked⟩
  simp only [Bool.and_eq_true, List.all_eq_true, Bool.not_eq_true'] at good
  obtain ⟨constants, bases⟩ := good
  obtain ⟨e', recompiled, sameNames, agrees⟩ := compile_display_reads_back compiled
    (fun z mem => (constants z mem).1)
    (fun z mem => (Option.any_eq_true _ _).mp (constants z mem).2) bases
  exact ⟨e, e', compiled, recompiled, sameNames, agrees⟩

/-- The written form of `(-2)^x` has the minus sign of the base outside any bracket, and
reads as `-1 * (2 ^ x)`: the tree that comes back is no power. -/
theorem display_negative_base_misread :
    (do
      let e ← Compiler.compile ⟨ConstantTable.builtin, BracketGlyphs.standard, false⟩ "(-2)^x"
        ["x"]
      let e' ← Compiler.compile ⟨ConstantTable.builtin, BracketGlyphs.standard, false⟩
        e.display e.variableNames
      pure (e.display, e'.display, e.root.sameUpToLeaves e'.root)).toOption =
    some ("(-2 ^ x)", "(-1 * (2 ^ x))", false) := by
  decide +kernel

end ComplexFormula
