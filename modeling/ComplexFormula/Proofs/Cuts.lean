import ComplexFormula.Proofs.Brackets
import ComplexFormula.Proofs.Pieces
import ComplexFormula.Evaluate

/-!
# Where the resolvers cut their text

Each pass of the resolvers finds a position in its working text, cuts the text there and
goes on with the parts. This module shows two things of every such cut.

The cut lies inside the text (`resolvers_cut_within`): a group's closing bracket is in the
text, and the function name before it fits before its `(`, so the start of the span is no
truncated difference; the search for the closing bracket never meets a `)` with no bracket
open; a power's base fits before its `^` and its exponent after it; a split of a sum or a
product falls between the ends of the text; a variable found in a span has a declared name in
its slot. Since a working text is a list of characters, each position is between two
characters. Evaluation reads a slot only below the number of values it is given, by name or by
position (`Tree.evaluate?`, the evaluation that fails at a slot beyond the values).

Each recursion works on less (`resolvers_recurse_on_less`): the bracket pass on fewer `(`,
though the placeholder that replaces a group may be longer than the group (`(1)` becomes
`|_1_|`), the power pass on fewer `^`, and sums, products and spans on shorter text. Every
operand of a power and every entity found in a span is nonempty.
-/

namespace ComplexFormula

/-! ## The operands of a power -/

theorem largerLength_cases {x y : Option Nat} {L : Nat} (larger : largerLength x y = some L) :
    x = some L ∨ y = some L := by
  cases x with
  | none => exact Or.inr larger
  | some a =>
    cases y with
    | none => exact Or.inl larger
    | some b =>
      simp only [largerLength, Option.some.injEq] at larger
      rw [← larger]
      rcases Nat.le_total a b with le | le
      · exact Or.inr (by rw [Nat.max_eq_right le])
      · exact Or.inl (by rw [Nat.max_eq_left le])

theorem Literal.trailingLength_pos {cs : List Char} {n : Nat}
    (found : Literal.trailingLength cs = some n) : 0 < n := by
  induction cs with
  | nil => cases found
  | cons c rest inductionHypothesis =>
    unfold Literal.trailingLength at found
    split at found
    · cases found
      exact Nat.succ_pos _
    · exact inductionHypothesis found

/-- The names a power operand may be are nonempty. -/
theorem ne_nil_of_mem_atomNames {scope : Scope} {w : Workspace} {name : List Char}
    (listed : name ∈ atomNames scope w) : name ≠ [] := by
  unfold atomNames at listed
  simpa using (List.mem_filter.mp listed).2

/-- A base is never empty. -/
theorem trailingAtomLength_pos {scope : Scope} {w : Workspace} {head : List Char} {b : Nat}
    (found : trailingAtomLength scope w head = some b) : 0 < b := by
  rcases largerLength_cases found with literal | named
  · exact Literal.trailingLength_pos literal
  · obtain ⟨l, listed, rfl⟩ := List.mem_map.mp (List.max?_eq_some_iff.mp named).1
    exact List.length_pos_iff.mpr (ne_nil_of_mem_atomNames (List.mem_filter.mp listed).1)

/-- An exponent is never empty. -/
theorem leadingAtomLength_pos {scope : Scope} {w : Workspace} {tail : List Char} {e : Nat}
    (found : leadingAtomLength scope w tail = some e) : 0 < e := by
  unfold leadingAtomLength at found
  rcases largerLength_cases found with literal | named
  · exact Literal.leadingLength_pos _ _ _ literal
  · obtain ⟨l, listed, rfl⟩ := List.mem_map.mp (List.max?_eq_some_iff.mp named).1
    have := List.length_pos_iff.mpr (ne_nil_of_mem_atomNames (List.mem_filter.mp listed).1)
    omega

/-- The power at the first `^` takes a nonempty base that fits before it and a nonempty
exponent that fits after it. -/
theorem power_operands_within {scope : Scope} {w : Workspace} {text : List Char}
    {pos baseLength exponentLength : Nat} (found : text.findIdx? (· == '^') = some pos)
    (base : trailingAtomLength scope w (text.take pos) = some baseLength)
    (exponent : leadingAtomLength scope w (text.drop (pos + 1)) = some exponentLength) :
    0 < baseLength ∧ baseLength ≤ pos ∧ 0 < exponentLength ∧
      pos + 1 + exponentLength ≤ text.length := by
  have inside := (List.findIdx?_eq_some_iff_getElem.mp found).1
  have baseFits := trailingAtomLength_le_length base
  have exponentFits := leadingAtomLength_le_length exponent
  rw [List.length_take] at baseFits
  rw [List.length_drop] at exponentFits
  refine ⟨trailingAtomLength_pos base, by omega, leadingAtomLength_pos exponent, by omega⟩

/-! ## Bracket groups -/

/-- The function name before a group fits before its `(`. -/
theorem functionName_le {text : List Char} (opening : Nat) :
    ((UnaryFn.suffixOf? (text.take opening)).map (·.name.length)).getD 0 ≤ opening := by
  cases function : UnaryFn.suffixOf? (text.take opening) with
  | none => exact Nat.zero_le _
  | some f =>
    have fits := (UnaryFn.suffixOf?_suffix function).length_le
    simp only [String.length_toList, List.length_take] at fits
    simp only [Option.map_some, Option.getD_some]
    omega

/-- A group's closing bracket is in the text. -/
theorem closing_lt_length {text : List Char} {opening offset : Nat}
    (found : text.findIdx? (· == '(') = some opening)
    (closes : closingOffset (text.drop opening) 0 0 = some offset) :
    opening + offset < text.length := by
  have isOpening := getElem?_of_findIdx?_opening found
  exact (List.getElem?_eq_some_iff.mp (closingOffset_group isOpening closes).2).1

/-- When no bracket closes, no prefix closes more brackets than it opens and the ones open
before. -/
theorem closingOffset_eq_none {text : List Char} {depth pos : Nat}
    (unclosed : closingOffset text (depth + 1) pos = none) :
    ∀ k, (text.take k).count ')' ≤ (text.take k).count '(' + depth := by
  induction text generalizing depth pos with
  | nil => simp
  | cons c rest inductionHypothesis =>
    intro k
    cases k with
    | zero => simp
    | succ k =>
      rw [List.take_succ_cons]
      by_cases opening : c = '('
      · subst opening
        rw [closingOffset_opening] at unclosed
        have := inductionHypothesis unclosed k
        simp only [List.count_cons_self, List.count_cons_of_ne (by decide : '(' ≠ ')')]
        omega
      by_cases closing : c = ')'
      · subst closing
        cases depth with
        | zero =>
          rw [closingOffset_closing_last (by omega)] at unclosed
          cases unclosed
        | succ depth =>
          rw [closingOffset_closing] at unclosed
          have := inductionHypothesis unclosed k
          simp only [List.count_cons_self, List.count_cons_of_ne (by decide : ')' ≠ '(')]
          omega
      · rw [closingOffset_other opening closing] at unclosed
        have := inductionHypothesis unclosed k
        simp only [List.count_cons_of_ne opening, List.count_cons_of_ne closing]
        omega

/-- The search for a group's closing bracket starts at its `(` with none open and reads no
`)` with none open: every prefix of what it reads, up to and with the closing bracket left
out, opens more brackets than it closes. -/
theorem closingOffset_stays_open {text : List Char} {opening : Nat}
    (found : text.findIdx? (· == '(') = some opening) (j : Nat) (positive : 0 < j)
    (before : ∀ offset, closingOffset (text.drop opening) 0 0 = some offset → j ≤ offset) :
    ((text.drop opening).take j).count ')' < ((text.drop opening).take j).count '(' := by
  have isOpening := getElem?_of_findIdx?_opening found
  have start : text.drop opening = '(' :: text.drop (opening + 1) :=
    drop_eq_cons_of_getElem? isOpening
  obtain ⟨k, rfl⟩ : ∃ k, j = k + 1 := ⟨j - 1, by omega⟩
  rw [start, List.take_succ_cons, List.count_cons_self,
    List.count_cons_of_ne (by decide : '(' ≠ ')')]
  -- what follows the `(` closes no more than it opens until the closing bracket
  cases closes : closingOffset (text.drop opening) 0 0 with
  | none =>
    rw [start, closingOffset_opening] at closes
    have := closingOffset_eq_none closes k
    omega
  | some offset =>
    have bound := before offset closes
    obtain ⟨inside, rest, group, rfl, balanced⟩ := exists_group isOpening closes
    rw [start, List.cons.injEq] at group
    have prefixesClose := ((openAfter?_eq_some_iff inside 0 0).mp balanced).1 k
    rw [group.2, List.take_append_of_le_length (by omega)]
    omega

/-! ## Splits of sums, products and spans -/

/-- A sum splits strictly between the ends of its text. -/
theorem additiveSplit?_within {text : List Char} {idx : Nat} (found : additiveSplit? text = some idx) :
    1 ≤ idx ∧ idx + 1 < text.length := by
  unfold additiveSplit? at found
  have mem := List.mem_of_find?_eq_some found
  simp only [List.mem_map, List.mem_reverse, List.mem_range] at mem
  omega

/-- The variable found in a span has a declared name in its slot. -/
theorem findEntity_variable_slot {scope : Scope} {w : Workspace} {text : List Char}
    {span : Span text} {slot : Nat} (found : findEntity scope w text = some (span, .variable slot)) :
    slot < scope.variableNames.length := by
  obtain ⟨declared, named, -⟩ := findEntity_names found
  exact (List.getElem?_eq_some_iff.mp named).1

/-! ## Slots read by evaluation -/

namespace Tree

/-- Evaluation that fails at a slot beyond the values, where reading the slot has no value. -/
def evaluate? (values : List ComplexFloat) : Tree → Option ComplexFloat
  | const z => some z
  | var _ slot => values[slot]?
  | unary f arg => (arg.evaluate? values).map f.apply
  | binary op left right =>
    (left.evaluate? values).bind fun l => (right.evaluate? values).map (op.apply l)

/-- A tree whose slots are all below the number of values reads none beyond them. -/
theorem evaluate?_of_slots {values : List ComplexFloat} (t : Tree)
    (slots : ∀ leaf ∈ t.leaves, leaf.2 < values.length) : t.evaluate? values = some (t.evaluate values) := by
  induction t with
  | const z => rfl
  | var leaf slot =>
    have inside := slots (leaf, slot) (by simp [leaves])
    simp only [evaluate?, evaluate, List.getD_eq_getElem?_getD, List.getElem?_eq_getElem inside,
      Option.getD_some]
  | unary f arg argHypothesis =>
    simp only [evaluate?, evaluate, argHypothesis slots, Option.map_some]
  | binary op left right leftHypothesis rightHypothesis =>
    simp only [leaves, List.mem_append] at slots
    simp only [evaluate?, evaluate, leftHypothesis fun leaf held => slots leaf (Or.inl held),
      rightHypothesis fun leaf held => slots leaf (Or.inr held), Option.bind_some, Option.map_some]

end Tree

/-- Every slot of a compiled tree has a declared name. -/
theorem compile_slots {c : Compiler} {expression : String} {names : List String} {e : Compiled}
    (compiled : c.compile expression names = .ok e) :
    ∀ leaf ∈ e.root.leaves, leaf.2 < e.variableNames.length := by
  obtain ⟨-, -, named, -⟩ := Compiler.compile_indexed compiled
  intro leaf held
  obtain ⟨name, isNamed⟩ := named leaf held
  exact (List.getElem?_eq_some_iff.mp isNamed).1

namespace Compiled

variable (e : Compiled)

/-- The values looked up by name are one per declared name. -/
theorem length_of_mapM_slotValue {b : Bindings} {values : List ComplexFloat}
    (looked : e.variableNames.mapM (e.slotValue b) = .ok values) :
    values.length = e.variableNames.length := by
  generalize e.variableNames = declared at looked
  induction declared generalizing values with
  | nil =>
    cases looked
    rfl
  | cons name rest inductionHypothesis =>
    rw [List.mapM_cons] at looked
    cases valued : e.slotValue b name with
    | error err => rw [valued] at looked; cases looked
    | ok value =>
      rw [valued] at looked
      cases others : rest.mapM (e.slotValue b) with
      | error err => rw [others] at looked; cases looked
      | ok more =>
        rw [others] at looked
        cases looked
        simp [inductionHypothesis others]

end Compiled

/-- Whatever evaluation by position returns, it read no slot beyond the values. -/
theorem evaluate?_of_evaluateWith {c : Compiler} {expression : String} {names : List String}
    {e : Compiled} (compiled : c.compile expression names = .ok e) {values : List ComplexFloat}
    {z : ComplexFloat} (evaluated : e.evaluateWith values = .ok z) : e.root.evaluate? values = some z := by
  unfold Compiled.evaluateWith at evaluated
  split at evaluated
  · next sameLength =>
    cases evaluated
    exact e.root.evaluate?_of_slots fun leaf held => sameLength ▸ compile_slots compiled leaf held
  · cases evaluated

/-- Whatever evaluation by name returns, it read no slot beyond the values it looked up. -/
theorem evaluate?_of_evaluate {c : Compiler} {expression : String} {names : List String}
    {e : Compiled} (compiled : c.compile expression names = .ok e) {b : Bindings}
    {z : ComplexFloat} (evaluated : e.evaluate b = .ok z) :
    ∃ values, e.variableNames.mapM (e.slotValue b) = .ok values ∧
      e.root.evaluate? values = some z := by
  unfold Compiled.evaluate at evaluated
  cases looked : e.variableNames.mapM (e.slotValue b) with
  | error err =>
    rw [looked] at evaluated
    cases evaluated
  | ok values =>
    rw [looked] at evaluated
    cases evaluated
    have sameLength := e.length_of_mapM_slotValue looked
    exact ⟨values, rfl,
      e.root.evaluate?_of_slots fun leaf held => sameLength ▸ compile_slots compiled leaf held⟩

/-! ## Each recursion works on less -/

/-- The inside of a group is shorter than the text and holds fewer `(`. -/
theorem interior_lt {text : List Char} {opening : Nat} (found : text.findIdx? (· == '(') = some opening)
    (n : Nat) :
    ((text.drop (opening + 1)).take n).length < text.length ∧
      ((text.drop (opening + 1)).take n).count '(' < text.count '(' := by
  have isOpening := getElem?_of_findIdx?_opening found
  have inside := (List.getElem?_eq_some_iff.mp isOpening).1
  refine ⟨?_, Text.count_take_drop_lt isOpening⟩
  simp only [List.length_take, List.length_drop]
  omega

/-- Trading a group for a placeholder leaves fewer `(`. -/
theorem count_opening_splice_lt {text : List Char} {opening : Nat}
    (found : text.findIdx? (· == '(') = some opening) (offset n : Nat) :
    (Text.splice text
      (opening - ((UnaryFn.suffixOf? (text.take opening)).map (·.name.length)).getD 0)
      (opening + offset + 1) (placeholderText n)).count '(' < text.count '(' := by
  have isOpening := getElem?_of_findIdx?_opening found
  exact Text.count_splice_lt (Nat.sub_le _ _) (by omega) isOpening
    (count_placeholderText n (by decide))

/-- Trading a power for a placeholder leaves fewer `^`. -/
theorem count_caret_splice_lt {text : List Char} {pos : Nat}
    (found : text.findIdx? (· == '^') = some pos) (baseLength exponentLength n : Nat) :
    (Text.splice text (pos - baseLength) (pos + 1 + exponentLength) (placeholderText n)).count '^' <
      text.count '^' := by
  obtain ⟨c, atPos, caret⟩ := findIdx?_found found
  rw [show c = '^' by simpa using caret] at atPos
  exact Text.count_splice_lt (Nat.sub_le _ _) (by omega) atPos (count_placeholderText n (by decide))

/-- The parts of a span around its entity are shorter than the span. -/
theorem around_span_lt {text : List Char} (span : Span text) :
    (text.take span.start).length < text.length ∧
      (text.drop (span.start + span.length)).length < text.length := by
  have nonempty := span.nonempty
  have fits := span.fits
  simp only [List.length_take, List.length_drop]
  omega

/-! ## The cuts of every pass -/

section Passes

variable (scope : Scope)

/-- Every recursion of the resolvers works on less. The bracket pass goes on with the inside of
its first group, which is shorter and has fewer `(`, and then with the text where the group is
traded for a placeholder, which has fewer `(`. The power pass folds a nonempty base and a
nonempty exponent and goes on with fewer `^`. A sum goes on with the shorter parts before and
after its split, a product with the shorter part after its first `*` or `/`, and a span with
the shorter parts around the nonempty entity found in it. -/
theorem resolvers_recurse_on_less :
    (∀ (text : List Char) opening offset n, text.findIdx? (· == '(') = some opening →
      closingOffset (text.drop opening) 0 0 = some offset →
      ((text.drop (opening + 1)).take (opening + offset - opening - 1)).length < text.length ∧
      ((text.drop (opening + 1)).take (opening + offset - opening - 1)).count '(' <
        text.count '(' ∧
      (Text.splice text
        (opening - ((UnaryFn.suffixOf? (text.take opening)).map (·.name.length)).getD 0)
        (opening + offset + 1) (placeholderText n)).count '(' < text.count '(') ∧
    (∀ w (text : List Char) pos baseLength exponentLength n, text.findIdx? (· == '^') = some pos →
      trailingAtomLength scope w (text.take pos) = some baseLength →
      leadingAtomLength scope w (text.drop (pos + 1)) = some exponentLength →
      0 < baseLength ∧ 0 < exponentLength ∧
      (Text.splice text (pos - baseLength) (pos + 1 + exponentLength)
        (placeholderText n)).count '^' < text.count '^') ∧
    (∀ (text : List Char) idx, additiveSplit? text = some idx →
      (text.take idx).length < text.length ∧ (text.drop (idx + 1)).length < text.length) ∧
    (∀ (text : List Char) idx, text.findIdx? (fun c => c == '*' || c == '/') = some idx →
      (text.drop (idx + 1)).length < text.length) ∧
    (∀ w (text : List Char) span entity, findEntity scope w text = some (span, entity) →
      0 < span.length ∧ (text.take span.start).length < text.length ∧
      (text.drop (span.start + span.length)).length < text.length) := by
  refine ⟨fun text opening offset n found _ => ?_, fun w text pos b e n found base exponent => ?_,
    fun text idx split => ?_, fun text idx split => ?_, fun w text span entity _ => ?_⟩
  · have interior := interior_lt found (opening + offset - opening - 1)
    exact ⟨interior.1, interior.2, count_opening_splice_lt found offset n⟩
  · obtain ⟨basePositive, -, exponentPositive, -⟩ := power_operands_within found base exponent
    exact ⟨basePositive, exponentPositive, count_caret_splice_lt found b e n⟩
  · have within := additiveSplit?_within split
    simp only [List.length_take, List.length_drop]
    omega
  · have inside := (List.findIdx?_eq_some_iff_getElem.mp split).1
    simp only [List.length_drop]
    omega
  · exact ⟨span.nonempty, around_span_lt span⟩

/-- The measures on `(1)`, `2^3`, `1+2`, `2*3` and `2pi`: the splice of the group has no `(`
left, the power takes the one-digit base and exponent and leaves no `^`, the sum and the
product recurse on one digit, and the constant `pi` is split out of `2pi` with the `2` before
it. -/
theorem resolvers_recurse_on_samples :
    closingOffset ['(', '1', ')'] 0 0 = some 2 ∧
      (Text.splice ['(', '1', ')'] 0 3 (placeholderText 0)).count '(' < 1 ∧
    trailingAtomLength ⟨ConstantTable.builtin, []⟩ Workspace.initial ['2'] = some 1 ∧
      leadingAtomLength ⟨ConstantTable.builtin, []⟩ Workspace.initial ['3'] = some 1 ∧
      (Text.splice ['2', '^', '3'] 0 3 (placeholderText 0)).count '^' < 1 ∧
    additiveSplit? ['1', '+', '2'] = some 1 ∧ (['1', '+', '2'].drop 2).length < 3 ∧
    (['2', '*', '3'].drop 2).length < 3 ∧
    ∃ span, findEntity ⟨ConstantTable.builtin, []⟩ Workspace.initial ['2', 'p', 'i'] =
        some (span, .constant) ∧ span.start = 1 ∧ span.length = 2 ∧
      (['2', 'p', 'i'].take span.start).length < 3 := by
  obtain ⟨bracket, power, sum, product, entity⟩ :=
    resolvers_recurse_on_less ⟨ConstantTable.builtin, []⟩
  have closing : closingOffset ['(', '1', ')'] 0 0 = some 2 := by decide
  have base : trailingAtomLength ⟨ConstantTable.builtin, []⟩ Workspace.initial ['2'] = some 1 :=
    rfl
  have exponent :
      leadingAtomLength ⟨ConstantTable.builtin, []⟩ Workspace.initial ['3'] = some 1 := rfl
  have split : additiveSplit? ['1', '+', '2'] = some 1 := by decide
  let pi : Span ['2', 'p', 'i'] := ⟨1, 2, by decide, by decide⟩
  have found : findEntity ⟨ConstantTable.builtin, []⟩ Workspace.initial ['2', 'p', 'i'] =
      some (pi, .constant) := rfl
  refine ⟨closing, (bracket ['(', '1', ')'] 0 2 0 (by decide) closing).2.2, base, exponent,
    (power Workspace.initial ['2', '^', '3'] 1 1 1 0 (by decide) base exponent).2.2, split,
    (sum ['1', '+', '2'] 1 split).2, product ['2', '*', '3'] 1 (by decide), pi, found, rfl, rfl,
    (entity Workspace.initial ['2', 'p', 'i'] pi .constant found).2.1⟩

/-- The placeholder that replaces a group can be longer than the group. -/
example : (Text.splice ['(', '1', ')'] 0 3 (placeholderText 1)).length = 5 := by decide

/-- Every cut the resolvers make lies inside their text, and evaluation reads no slot it
lacks. The function name before a group fits before its `(` and the closing bracket is in the
text. The search for the closing bracket starts at the `(` and never reads a `)` with none
open: every prefix it reads before the closing bracket opens more than it closes. A power's
base fits before its `^` and its exponent after it. A sum splits strictly between the ends of
its text and a product inside it. A variable found in a span has a declared name in its slot.
What evaluation returns, by position or by name, it computed reading only slots below the
number of values. -/
theorem resolvers_cut_within :
    (∀ (text : List Char) opening offset, text.findIdx? (· == '(') = some opening →
      closingOffset (text.drop opening) 0 0 = some offset →
      ((UnaryFn.suffixOf? (text.take opening)).map (·.name.length)).getD 0 ≤ opening ∧
      opening + offset < text.length) ∧
    (∀ (text : List Char) opening j, text.findIdx? (· == '(') = some opening → 0 < j →
      (∀ offset, closingOffset (text.drop opening) 0 0 = some offset → j ≤ offset) →
      ((text.drop opening).take j).count ')' < ((text.drop opening).take j).count '(') ∧
    (∀ w (text : List Char) pos baseLength exponentLength, text.findIdx? (· == '^') = some pos →
      trailingAtomLength scope w (text.take pos) = some baseLength →
      leadingAtomLength scope w (text.drop (pos + 1)) = some exponentLength →
      baseLength ≤ pos ∧ pos + 1 + exponentLength ≤ text.length) ∧
    (∀ (text : List Char) idx, additiveSplit? text = some idx → 1 ≤ idx ∧ idx + 1 < text.length) ∧
    (∀ (text : List Char) idx, text.findIdx? (fun c => c == '*' || c == '/') = some idx → idx < text.length) ∧
    (∀ w (text : List Char) span slot, findEntity scope w text = some (span, .variable slot) →
      slot < scope.variableNames.length) ∧
    (∀ (c : Compiler) expression names e, c.compile expression names = .ok e →
      (∀ values z, e.evaluateWith values = .ok z → e.root.evaluate? values = some z) ∧
      (∀ b z, e.evaluate b = .ok z → ∃ values, e.variableNames.mapM (e.slotValue b) = .ok values ∧
        e.root.evaluate? values = some z)) := by
  refine ⟨fun text opening offset found closes => ⟨functionName_le opening,
      closing_lt_length found closes⟩,
    fun text opening j found positive before => closingOffset_stays_open found j positive before,
    fun w text pos b e found base exponent => ?_,
    fun text idx split => additiveSplit?_within split,
    fun text idx split => (List.findIdx?_eq_some_iff_getElem.mp split).1,
    fun w text span slot found => findEntity_variable_slot found,
    fun c expression names e compiled => ⟨fun values z evaluated =>
      evaluate?_of_evaluateWith compiled evaluated, fun b z evaluated =>
      evaluate?_of_evaluate compiled evaluated⟩⟩
  obtain ⟨-, baseFits, -, exponentFits⟩ := power_operands_within found base exponent
  exact ⟨baseFits, exponentFits⟩

end Passes

end ComplexFormula
