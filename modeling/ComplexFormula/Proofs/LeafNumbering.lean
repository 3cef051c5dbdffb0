import ComplexFormula.Proofs.Indexing

/-!
# Leaves are numbered from left to right

A leaf number is the value of a counter when the leaf is made, and the resolvers do not make
leaves in the order of the text: bracket groups and powers are resolved first, and the leaf
resolver makes the leaf of the entity it splits a span around before it resolves the text to
the entity's left. Outside brackets and powers the numbers still follow the text:

* the variable the leaf resolver splits around is the first declared name in its span, so the
  text before it names no variable (`findEntity_variable_before`) and gets no leaf;
* a constant gets no leaf, so the text before it is numbered first anyway;
* sums and products resolve their left operand before their right one.

So a run numbers the leaves of its tree in the order it creates them (`NumberedInOrder`), and
a compilation of a normalized text with no `(` and no `^` numbers the leaves of its tree
0, 1, 2, ... from left to right, folded or not (`compile_numbers_leaves_left_to_right`).
-/

namespace ComplexFormula

/-! ## Texts that name no variable -/

/-- No declared variable name occurs in a text. -/
def Scope.MentionsNoVariable (scope : Scope) (text : List Char) : Prop :=
  ∀ name ∈ scope.variableNames.map String.toList, name ≠ [] → ¬name <:+: text

theorem Scope.MentionsNoVariable.narrow {scope : Scope} {text part : List Char}
    (noName : scope.MentionsNoVariable text) (within : part <:+: text) :
    scope.MentionsNoVariable part :=
  fun name declared nonempty occurs => noName name declared nonempty (occurs.trans within)

/-- A pattern that occurs somewhere is found, no later than there. -/
theorem Text.indexOf?_le_of_occurs {pattern text : List Char} (nonempty : pattern ≠ [])
    {j : Nat} (occurs : pattern <+: text.drop j) :
    ∃ i ≤ j, Text.indexOf? pattern text = some i := by
  classical
  have somewhere : ∃ k, pattern <+: text.drop k := ⟨j, occurs⟩
  exact ⟨Nat.find somewhere, Nat.find_min' somewhere occurs,
    (Text.indexOf?_eq_some_iff nonempty text _).mpr
      ⟨Nat.find_spec somewhere, fun k below => Nat.find_min somewhere below⟩⟩

/-- A slice of a text is part of it. -/
theorem Text.slice_isInfix (text : List Char) (start stop : Nat) :
    Text.slice text start stop <:+: text :=
  (List.take_prefix _ _).isInfix.trans (List.drop_suffix _ _).isInfix

/-! ## The entity of a span -/

/-- With no placeholder pending, what the leaf resolver finds depends on the text alone. -/
theorem findEntity_of_pending_nil (scope : Scope) {w : Workspace} (clear : w.pending = [])
    (text : List Char) : findEntity scope w text = findEntity scope Workspace.initial text := by
  unfold findEntity
  rw [clear]
  rfl

/-- In a text that names no variable, the entity found is no variable. -/
theorem findEntity_ne_variable {scope : Scope} {w : Workspace} {text : List Char}
    (noName : scope.MentionsNoVariable text) {span : Span text} {slot : Nat}
    (found : findEntity scope w text = some (span, .variable slot)) : False := by
  obtain ⟨declared, isDeclared, same⟩ := findEntity_names found
  have nonempty : Text.slice text span.start (span.start + span.length) ≠ [] := by
    have := span.nonempty
    have := span.fits
    rw [← List.length_pos_iff, Text.slice, List.length_take, List.length_drop]
    omega
  rw [same] at nonempty
  apply noName declared.toList (List.mem_map.mpr ⟨declared, List.mem_of_getElem? isDeclared, rfl⟩)
    nonempty
  rw [← same]
  exact Text.slice_isInfix _ _ _

/-- The variable the leaf resolver splits a span around starts no later than any occurrence of
a declared name in the span, so the text before it names no variable. -/
theorem findEntity_variable_before {scope : Scope} {w : Workspace} {text : List Char}
    {span : Span text} {slot : Nat} (found : findEntity scope w text = some (span, .variable slot)) :
    scope.MentionsNoVariable (text.take span.start) := by
  unfold findEntity at found
  split at found
  · simp only [Option.bind_some, Option.map_eq_some_iff, Prod.mk.injEq] at found
    obtain ⟨-, -, -, isPlaceholder⟩ := found
    cases isPlaceholder
  split at found
  · simp only [Option.bind_some, Option.map_eq_some_iff, Prod.mk.injEq] at found
    obtain ⟨-, -, -, isConstant⟩ := found
    cases isConstant
  simp only [Option.bind_eq_some_iff, Option.map_eq_some_iff, Prod.mk.injEq] at found
  obtain ⟨best, earliest, span', made, rfl, -⟩ := found
  have startsAt := (Span.of?_start made).1
  intro name declared nonempty occurs
  obtain ⟨front, back, split⟩ := occurs
  -- the name occurs at the length of `front`, inside the text before the variable
  have within : front.length + name.length ≤ span'.start := by
    have lengths := congrArg List.length split
    simp only [List.length_append, List.length_take] at lengths
    omega
  have atFront : name <+: text.drop front.length := by
    have window : (text.drop front.length).take (span'.start - front.length) = name ++ back := by
      rw [← List.drop_take, ← split, List.append_assoc, List.drop_left]
    exact (List.prefix_append name back).trans (window ▸ List.take_prefix _ _)
  -- so its first occurrence is a candidate that the variable found must beat
  obtain ⟨first, early, indexed⟩ := Text.indexOf?_le_of_occurs nonempty atFront
  have listed : (first, name.length, name) ∈
      firstOccurrences (scope.variableNames.map String.toList) text := by
    unfold firstOccurrences
    refine List.mem_filterMap.mpr ⟨name, List.mem_filter.mpr ⟨declared, ?_⟩, ?_⟩
    · simpa using nonempty
    · rw [indexed]
      rfl
  obtain ⟨chosen, -, chosenFound, beatsAll⟩ := earliestLongest_spec (List.ne_nil_of_mem listed)
  rw [earliest, Option.some.injEq] at chosenFound
  have beats := beatsAll _ listed
  rw [← chosenFound] at beats
  have positive : 0 < name.length := List.length_pos_iff.mpr nonempty
  unfold Beats at beats
  dsimp only at beats
  omega

/-! ## Runs that number in order -/

/-- A run from `w` to `w'` that numbered the leaves of its tree in order: left to right, they
are the leaves the run created, in the order of creation, and it left no placeholder
pending. -/
structure NumberedInOrder (w : Workspace) (t : Tree) (w' : Workspace) : Prop where
  clear : w'.pending = []
  grows : w.nextLeaf ≤ w'.nextLeaf
  numbers : t.leaves.map (·.1) = w.createdLeaves w'

namespace NumberedInOrder

variable {w w₁ w₂ : Workspace} {t₁ t₂ : Tree}

/-- A tree without leaves, made without a step. -/
theorem leafless (clear : w.pending = []) {t : Tree} (noLeaves : t.leaves = []) :
    NumberedInOrder w t w :=
  ⟨clear, Nat.le_refl _, by simp [noLeaves, Workspace.createdLeaves]⟩

/-- Two runs one after the other, their trees joined by an operator in that order. -/
theorem binary (first : NumberedInOrder w t₁ w₁) (second : NumberedInOrder w₁ t₂ w₂)
    (op : BinaryOp) : NumberedInOrder w (.binary op t₁ t₂) w₂ where
  clear := second.clear
  grows := Nat.le_trans first.grows second.grows
  numbers := by
    have := first.grows
    have := second.grows
    rw [Tree.leaves, List.map_append, first.numbers, second.numbers]
    unfold Workspace.createdLeaves
    rw [show w₂.nextLeaf - w.nextLeaf = (w₁.nextLeaf - w.nextLeaf) + (w₂.nextLeaf - w₁.nextLeaf)
      by omega, ← List.range'_append, show w.nextLeaf + 1 * (w₁.nextLeaf - w.nextLeaf) =
        w₁.nextLeaf by omega]

/-- A run that created no leaf gave a tree without leaves. -/
theorem leaves_eq_nil (run : NumberedInOrder w t₁ w₁) (none : w₁.nextLeaf = w.nextLeaf) :
    t₁.leaves = [] := by
  have numbers := run.numbers
  rw [Workspace.createdLeaves, none, Nat.sub_self, List.range'_zero, List.map_eq_nil_iff] at numbers
  exact numbers

/-- A left operand made after the right one keeps the order when its run created no leaf. -/
theorem before_leafless (matched : NumberedInOrder w t₂ w₁) (left : NumberedInOrder w₁ t₁ w₂)
    (none : w₂.nextLeaf = w₁.nextLeaf) (op : BinaryOp) :
    NumberedInOrder w (.binary op t₁ t₂) w₂ where
  clear := left.clear
  grows := none ▸ matched.grows
  numbers := by
    rw [Tree.leaves, left.leaves_eq_nil none, List.nil_append, matched.numbers]
    unfold Workspace.createdLeaves
    rw [none]

end NumberedInOrder

/-! ## The resolvers number in order -/

/-- The subtree of a constant or variable entity: a constant makes no step, a variable the next
leaf. -/
theorem entityNode_numbered {scope : Scope} {w w₁ : Workspace} (clear : w.pending = [])
    {name : List Char} {entity : Entity} (notHeld : entity ≠ .placeholder) {matched : Tree}
    (made : entityNode scope name entity w = .ok (matched, w₁)) :
    NumberedInOrder w matched w₁ ∧
      ((matched.leaves = [] ∧ w₁ = w) ∨ ∃ slot, entity = .variable slot) := by
  -- the constructors are the placeholder, a constant and a variable
  rcases entity with _ | _ | slot
  · exact absurd rfl notHeld
  · cases valued : scope.constants.find? (String.ofList name) with
    | some value =>
      simp only [entityNode, valued] at made
      obtain ⟨rfl, rfl⟩ := Prod.mk.inj (Resolve.pure_eq_ok made)
      exact ⟨.leafless clear rfl, Or.inl ⟨rfl, rfl⟩⟩
    | none =>
      simp only [entityNode, valued] at made
      exact absurd made Resolve.unparseable_ne_ok
  · obtain ⟨rfl, rfl⟩ := Prod.mk.inj (Except.ok.inj made).symm
    refine ⟨⟨clear, Nat.le_succ _, ?_⟩, Or.inr ⟨slot, rfl⟩⟩
    simp [Tree.leaves, Workspace.createdLeaves]

/-- The leaf resolver, with no placeholder pending, numbers the leaves of its tree in order,
and makes none for a text that names no variable. -/
theorem resolveLeaf_numbers_in_order (scope : Scope) (text : List Char) :
    ∀ {w w' : Workspace} {t : Tree}, w.pending = [] → resolveLeaf scope text w = .ok (t, w') →
      NumberedInOrder w t w' ∧ (scope.MentionsNoVariable text → w'.nextLeaf = w.nextLeaf) := by
  induction text using resolveLeaf.induct with
  | case1 =>
    intro w w' t clear ran
    rw [resolveLeaf, if_pos rfl] at ran
    obtain ⟨rfl, rfl⟩ := Prod.mk.inj (Resolve.pure_eq_ok ran)
    exact ⟨.leafless clear rfl, fun _ => rfl⟩
  | case2 =>
    intro w w' t clear ran
    rw [resolveLeaf, if_neg (by decide), if_pos rfl] at ran
    obtain ⟨rfl, rfl⟩ := Prod.mk.inj (Resolve.pure_eq_ok ran)
    exact ⟨.leafless clear rfl, fun _ => rfl⟩
  | case3 text notMinus notPlus value valued =>
    intro w w' t clear ran
    rw [resolveLeaf, if_neg notMinus, if_neg notPlus] at ran
    simp only [valued] at ran
    obtain ⟨rfl, rfl⟩ := Prod.mk.inj (Resolve.pure_eq_ok ran)
    exact ⟨.leafless clear rfl, fun _ => rfl⟩
  | case4 text notMinus notPlus notValued afterHypothesis beforeHypothesis =>
    intro w w' t clear ran
    obtain ⟨span, entity, matched, withBefore, w₁, w₂, found, made, before, after⟩ :=
      resolveLeaf_around_entity notMinus notPlus notValued ran
    have notHeld : entity ≠ .placeholder := findEntity_initial_ne_placeholder
      ((findEntity_of_pending_nil scope clear text) ▸ found)
    obtain ⟨matchedRun, kind⟩ := entityNode_numbered clear notHeld made
    -- the text before the entity is resolved next, when there is some
    have beforeRun : NumberedInOrder w withBefore w₂ ∧
        (scope.MentionsNoVariable text → w₂.nextLeaf = w.nextLeaf) := by
      rcases before with ⟨-, rfl, rfl⟩ | ⟨left, -, leftRun, rfl⟩
      · refine ⟨matchedRun, fun noName => ?_⟩
        rcases kind with ⟨-, rfl⟩ | ⟨slot, rfl⟩
        · rfl
        · exact (findEntity_ne_variable noName found).elim
      · obtain ⟨leftNumbered, leftNone⟩ := beforeHypothesis span matchedRun.clear leftRun
        refine ⟨?_, fun noName => ?_⟩
        · -- a constant comes with no leaf; a variable is the first name, none is before it
          rcases kind with ⟨noLeaves, rfl⟩ | ⟨slot, rfl⟩
          · exact leftNumbered.binary (.leafless leftNumbered.clear noLeaves) .mul
          · exact matchedRun.before_leafless leftNumbered
              (leftNone (findEntity_variable_before found)) .mul
        · rcases kind with ⟨-, rfl⟩ | ⟨slot, rfl⟩
          · exact leftNone (noName.narrow (List.take_prefix _ _).isInfix)
          · exact (findEntity_ne_variable noName found).elim
    obtain ⟨beforeNumbered, beforeNone⟩ := beforeRun
    -- then the text after it
    rcases after with ⟨-, rfl, rfl⟩ | ⟨right, -, rightRun, rfl⟩
    · exact ⟨beforeNumbered, beforeNone⟩
    · obtain ⟨rightNumbered, rightNone⟩ := afterHypothesis span beforeNumbered.clear rightRun
      refine ⟨beforeNumbered.binary rightNumbered .mul, fun noName => ?_⟩
      rw [rightNone (noName.narrow (List.drop_suffix _ _).isInfix), beforeNone noName]

theorem resolveProduct_numbers_in_order (scope : Scope) (text : List Char) :
    ∀ {w w' : Workspace} {t : Tree}, w.pending = [] →
      resolveProduct scope text w = .ok (t, w') → NumberedInOrder w t w' := by
  induction text using resolveProduct.induct with
  | case1 text idx found inductionHypothesis =>
    intro w w' t clear ran
    rw [resolveProduct_of_some found] at ran
    obtain ⟨left, w₁, right, leftRun, rightRun, rfl⟩ := Resolve.bind_bind_pure_eq_ok ran
    have leftNumbered := (resolveLeaf_numbers_in_order scope _ clear leftRun).1
    exact leftNumbered.binary (inductionHypothesis leftNumbered.clear rightRun) _
  | case2 text noneFound =>
    intro w w' t clear ran
    rw [resolveProduct_of_none noneFound] at ran
    exact (resolveLeaf_numbers_in_order scope text clear ran).1

theorem resolveSum_numbers_in_order (scope : Scope) (text : List Char) :
    ∀ {w w' : Workspace} {t : Tree}, w.pending = [] →
      resolveSum scope text w = .ok (t, w') → NumberedInOrder w t w' := by
  induction text using resolveSum.induct with
  | case1 text idx found inductionHypothesis =>
    intro w w' t clear ran
    rw [resolveSum_of_some found] at ran
    obtain ⟨left, w₁, right, leftRun, rightRun, rfl⟩ := Resolve.bind_bind_pure_eq_ok ran
    have leftNumbered := inductionHypothesis clear leftRun
    exact leftNumbered.binary (resolveProduct_numbers_in_order scope _ leftNumbered.clear rightRun) _
  | case2 text noneFound =>
    intro w w' t clear ran
    rw [resolveSum_of_none noneFound] at ran
    exact resolveProduct_numbers_in_order scope text clear ran

/-- A text without brackets and powers is resolved as a sum or a single span, and so numbered
in order. -/
theorem resolveExpression_numbers_in_order (scope : Scope) {text : List Char}
    (noBracket : '(' ∉ text) (noPower : '^' ∉ text) {w w' : Workspace} {t : Tree}
    (clear : w.pending = []) (ran : resolveExpression scope text w = .ok (t, w')) :
    NumberedInOrder w t w' := by
  rw [resolveExpression_of_none (findIdx?_beq_eq_none noBracket)] at ran
  split_ifs at ran with closing operators
  · cases ran
  · cases last : text.getLast? with
    | none =>
      simp only [resolveOperators, last] at ran
      exact absurd ran Resolve.unparseable_ne_ok
    | some c =>
      cases operator : isOperatorChar c with
      | true =>
        simp only [resolveOperators, last, operator, if_true] at ran
        exact absurd ran Resolve.unparseable_ne_ok
      | false =>
        rw [resolveOperators_of_last last operator,
          resolvePowers_of_none (findIdx?_beq_eq_none noPower),
          Resolve.bind_of_ok (Resolve.pure_apply _ _)] at ran
        exact resolveSum_numbers_in_order scope text clear ran
  · exact (resolveLeaf_numbers_in_order scope text clear ran).1

/-! ## Compilation -/

/-- Outside brackets and powers, leaves are numbered from left to right. For every compiler
(folding or not), every expression whose normalized text holds no `(` and no `^`, and every
declared names, a successful compilation gives a tree whose leaf numbers, left to right, are
0, 1, ..., k - 1. -/
theorem compile_numbers_leaves_left_to_right {c : Compiler} {expression : String}
    {names : List String} {text : String} {e : Compiled}
    (normalized : normalize c.glyphs expression = .ok text) (noBracket : '(' ∉ text.toList)
    (noPower : '^' ∉ text.toList) (compiled : c.compile expression names = .ok e) :
    e.leaves.map (·.1) = List.range e.leaves.length := by
  obtain ⟨text', declared, raw, w, normalized', -, -, resolved, rfl⟩ :=
    Compiler.compile_eq_ok compiled
  rw [normalized, Except.ok.injEq] at normalized'
  subst normalized'
  have numbered := resolveExpression_numbers_in_order _ noBracket noPower rfl resolved
  have rawNumbers : raw.leaves.map (·.1) = List.range w.nextLeaf := by
    rw [numbered.numbers]
    simp [Workspace.createdLeaves, Workspace.initial, List.range_eq_range']
  have rawLength : raw.leaves.length = w.nextLeaf := by
    rw [← List.length_map (f := (·.1)), rawNumbers, List.length_range]
  -- folding keeps the leaves
  have sameLeaves : (if c.folding then raw.fold else raw).leaves = raw.leaves := by
    split
    · exact Tree.leaves_fold raw
    · rfl
  show (if c.folding then raw.fold else raw).leaves.map (·.1) =
    List.range (if c.folding then raw.fold else raw).leaves.length
  rw [sameLeaves, rawNumbers, rawLength]

/-- In `yex-x*y` the constant `e` is found first and `y` before it gets the first leaf; the
leaves are numbered 0 to 3 from the left, whatever their slots. -/
theorem compile_numbers_yex_from_left :
    ∃ e, Compiler.standard.compile "yex - x*y" ["x", "y"] = .ok e ∧
      e.leaves = [(0, 1), (1, 0), (2, 0), (3, 1)] ∧
      e.leaves.map (·.1) = List.range e.leaves.length := by
  have checked : (Compiler.standard.compile "yex - x*y" ["x", "y"]).toOption.map Compiled.leaves =
      some [(0, 1), (1, 0), (2, 0), (3, 1)] := by
    decide +kernel
  obtain ⟨e, compiled, leaves⟩ : ∃ e, Compiler.standard.compile "yex - x*y" ["x", "y"] = .ok e ∧
      e.leaves = [(0, 1), (1, 0), (2, 0), (3, 1)] := by
    cases result : Compiler.standard.compile "yex - x*y" ["x", "y"] with
    | error err => simp [result, Except.toOption] at checked
    | ok e => exact ⟨e, rfl, by simpa [result, Except.toOption] using checked⟩
  have normalized : normalize Compiler.standard.glyphs "yex - x*y" = .ok "yex-x*y" := by
    decide +kernel
  exact ⟨e, compiled, leaves, compile_numbers_leaves_left_to_right normalized (by decide)
    (by decide) compiled⟩

end ComplexFormula
