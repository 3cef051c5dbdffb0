import ComplexFormula.Proofs.Cuts
import ComplexFormula.Proofs.Groups
import ComplexFormula.Proofs.LeafNumbering

/-!
# Declaring a name that the text does not mention

Declared variable names take part in every search for a name: the operands of a power, the
variable occurrences that keep a constant inside a longer name from being read as that
constant, and the variable a span is split around. A name that the normalized text does not
contain is found by none of these searches. Every text searched is a part of the normalized
text with placeholders spliced in, and a name is not found across or inside a placeholder: it
holds no bar, and it starts with a letter, which a placeholder lacks
(`not_infix_splice_placeholder`).

So each resolver runs the same with such a name declared last as without it
(`resolveExpression_declare`), and so does compilation: declaring one more name, which is no
constant, was not declared before and is not in the text, changes only the list of declared
names (`compile_ignores_unmentioned_name`). Declared names are compared once their white space
is removed, so a name declared before with white space around it counts as declared.
-/

namespace ComplexFormula

/-- The scope with one more variable name, declared last. -/
def Scope.declare (scope : Scope) (name : String) : Scope :=
  ⟨scope.constants, scope.variableNames ++ [name]⟩

/-! ## Where a name cannot be found -/

theorem not_infix_take {name text : List Char} (unmentioned : ¬name <:+: text) (k : Nat) :
    ¬name <:+: text.take k :=
  fun occurs => unmentioned (occurs.trans (List.take_prefix k text).isInfix)

theorem not_infix_drop {name text : List Char} (unmentioned : ¬name <:+: text) (k : Nat) :
    ¬name <:+: text.drop k :=
  fun occurs => unmentioned (occurs.trans (List.drop_suffix k text).isInfix)

/-- A text without a bar, found in a text with a bar, lies on one side of the bar. -/
theorem infix_of_infix_append_bar {name Y : List Char} (noBar : '|' ∉ name) (X : List Char)
    (occurs : name <:+: X ++ '|' :: Y) : name <:+: X ∨ name <:+: Y := by
  induction X with
  | nil =>
    rcases List.infix_cons_iff.mp occurs with leading | inRest
    · cases name with
      | nil => exact Or.inl List.nil_infix
      | cons c rest =>
        have isBar : c = '|' := (List.cons_prefix_cons.mp leading).1
        exact absurd (isBar ▸ List.mem_cons_self) noBar
    · exact Or.inr inRest
  | cons x X inductionHypothesis =>
    rcases List.infix_cons_iff.mp occurs with leading | inRest
    · -- an occurrence from the start ends before the bar
      have leading : name <+: (x :: X) ++ '|' :: Y := leading
      have before := (Piece.prefix_append_iff_of_bar noBar fun _ first => by
        rw [List.head?_cons, Option.some.injEq] at first
        exact first.symm).mp leading
      exact Or.inl before.isInfix
    · exact (inductionHypothesis inRest).imp_left fun inX =>
        inX.trans (List.suffix_cons x X).isInfix

/-- No character of a placeholder is a letter. -/
theorem isAlphabetic_eq_false_of_mem_placeholderText {c : Char} {n : Nat}
    (mem : c ∈ placeholderText n) : Text.isAlphabetic c = false := by
  rcases mem_placeholderText mem with rfl | rfl | digit
  · decide +kernel
  · decide +kernel
  · apply Text.isAlphabetic_eq_false_of_lt
    simp only [Char.isDigit, Bool.and_eq_true, decide_eq_true_eq] at digit
    have high : c.val ≤ 0x39 := digit.2
    exact Nat.lt_of_le_of_lt (UInt32.le_iff_toNat_le.mp high) (by decide)

/-- A name absent from a text is absent from it once a placeholder replaces a span of it. -/
theorem not_infix_splice_placeholder {name : String} (identifier : Text.isIdentifier name = true)
    {text : List Char} (unmentioned : ¬name.toList <:+: text) (start stop n : Nat) :
    ¬name.toList <:+: Text.splice text start stop (placeholderText n) := by
  have named := String.toList_identifier identifier
  have noBar : '|' ∉ name.toList := Text.not_mem_identifier named (by simp [Text.punctuation])
  obtain ⟨c, r, spelled, letter, -⟩ := (Text.isIdentifierChars_iff _).mp named
  -- the placeholder is a bar, an inside without letters, and a bar
  have shape : Text.splice text start stop (placeholderText n) =
      text.take start ++ '|' :: (('_' :: Nat.toDigits 10 n ++ ['_']) ++ '|' :: text.drop stop) := by
    simp [Text.splice, placeholderText]
  intro occurs
  rw [shape] at occurs
  rcases infix_of_infix_append_bar noBar _ occurs with before | rest
  · exact not_infix_take unmentioned start before
  rcases infix_of_infix_append_bar noBar _ rest with inside | after
  · have inPlaceholder : c ∈ placeholderText n := by
      have first := inside.subset (spelled ▸ List.mem_cons_self)
      simp only [List.mem_append, List.mem_cons] at first
      simp only [placeholderText, List.mem_append, List.mem_cons]
      tauto
    rw [isAlphabetic_eq_false_of_mem_placeholderText inPlaceholder] at letter
    cases letter
  · exact not_infix_drop unmentioned stop after

/-! ## Searches that do not find the name -/

section Searches

variable {scope : Scope} {name : String} {text : List Char}

theorem ne_nil_of_absent {pattern : List Char} (unmentioned : ¬pattern <:+: text) :
    pattern ≠ [] := by
  rintro rfl
  exact unmentioned List.nil_infix

theorem indexOf?_eq_none_of_absent {pattern : List Char} (unmentioned : ¬pattern <:+: text) :
    Text.indexOf? pattern text = none :=
  Text.indexOf?_eq_none (ne_nil_of_absent unmentioned) fun j occurs =>
    not_infix_drop unmentioned j occurs.isInfix

theorem matchStarts_eq_nil_of_absent {pattern : List Char} (unmentioned : ¬pattern <:+: text) :
    Text.matchStarts pattern text = [] :=
  List.eq_nil_iff_forall_not_mem.mpr fun start listed =>
    not_infix_drop unmentioned start (Text.occurs_of_mem_matchStarts listed).isInfix

/-- A name absent from the text adds no first occurrence. -/
theorem firstOccurrences_append_absent {names : List (List Char)} {pattern : List Char}
    (unmentioned : ¬pattern <:+: text) :
    firstOccurrences (names ++ [pattern]) text = firstOccurrences names text := by
  simp [firstOccurrences, List.filter_append, List.filterMap_append,
    indexOf?_eq_none_of_absent unmentioned]

/-- A name absent from the text adds no variable range that could hide a constant. -/
theorem variableRanges_declare (unmentioned : ¬name.toList <:+: text) :
    variableRanges (scope.declare name) text = variableRanges scope text := by
  simp [variableRanges, Scope.declare, matchStarts_eq_nil_of_absent unmentioned]

theorem constantOccurrences_declare (unmentioned : ¬name.toList <:+: text) :
    constantOccurrences (scope.declare name) text = constantOccurrences scope text := by
  unfold constantOccurrences
  rw [variableRanges_declare unmentioned]
  rfl

/-- The entity a span splits around is the same with the name declared last: the name is not
found, and every other declared name keeps its slot. -/
theorem findEntity_declare (w : Workspace) (unmentioned : ¬name.toList <:+: text) :
    findEntity (scope.declare name) w text = findEntity scope w text := by
  unfold findEntity
  rw [constantOccurrences_declare unmentioned]
  simp only [Scope.declare, List.map_append, List.map_singleton,
    firstOccurrences_append_absent unmentioned]
  cases found : earliestLongest (firstOccurrences (scope.variableNames.map String.toList) text) with
  | none => rfl
  | some best =>
    obtain ⟨start, length, declaredName⟩ := best
    have declared := (firstOccurrences_occurs (mem_of_earliestLongest found)).1
    simp only [Option.bind_some, List.idxOf_append_of_mem declared]

/-- Among the names a power operand may be, only the declared name is new, and a test it
fails keeps none of it. -/
theorem atomNames_declare_filter (w : Workspace) {q : List Char → Bool}
    (unfound : q name.toList = false) :
    (atomNames (scope.declare name) w).filter q = (atomNames scope w).filter q := by
  simp [atomNames, Scope.declare, List.filter_append, unfound]

theorem trailingAtomLength_declare (w : Workspace) {head : List Char}
    (unmentioned : ¬name.toList <:+: head) :
    trailingAtomLength (scope.declare name) w head = trailingAtomLength scope w head := by
  have unfound : name.toList.isSuffixOf head = false := by
    cases suffix : name.toList.isSuffixOf head with
    | false => rfl
    | true => exact absurd (List.isSuffixOf_iff_suffix.mp suffix).isInfix unmentioned
  unfold trailingAtomLength
  rw [atomNames_declare_filter w unfound]

theorem leadingAtomLength_declare (w : Workspace) {tail : List Char}
    (unmentioned : ¬name.toList <:+: tail) :
    leadingAtomLength (scope.declare name) w tail = leadingAtomLength scope w tail := by
  have unfound : ∀ k, name.toList.isPrefixOf (tail.drop k) = false := fun k =>
    Text.isPrefixOf_eq_false fun leading =>
      not_infix_drop unmentioned k leading.isInfix
  unfold leadingAtomLength
  dsimp only
  rw [atomNames_declare_filter w (unfound _)]

end Searches

/-! ## The resolvers -/

section Resolvers

variable {scope : Scope} {name : String}

theorem newVariable_declare {slot : Nat} (bound : slot < scope.variableNames.length) :
    newVariable (scope.declare name) slot = newVariable scope slot := by
  unfold newVariable
  simp only [Scope.declare, List.getElem?_append_left bound]

theorem entityNode_declare (key : List Char) {entity : Entity}
    (bound : ∀ slot, entity = .variable slot → slot < scope.variableNames.length) :
    entityNode (scope.declare name) key entity = entityNode scope key entity := by
  rcases entity with _ | _ | slot
  · rfl
  · rfl
  · exact newVariable_declare (bound slot rfl)

theorem resolveLeaf_declare (text : List Char) (unmentioned : ¬name.toList <:+: text) :
    resolveLeaf (scope.declare name) text = resolveLeaf scope text := by
  induction text using resolveLeaf.induct with
  | case1 => rw [resolveLeaf, resolveLeaf, if_pos rfl, if_pos rfl]
  | case2 =>
    rw [resolveLeaf, resolveLeaf, if_neg (by decide), if_pos rfl, if_neg (by decide), if_pos rfl]
  | case3 text notMinus notPlus value valued =>
    rw [resolveLeaf, resolveLeaf, if_neg notMinus, if_neg notPlus, if_neg notMinus,
      if_neg notPlus]
    simp only [valued]
  | case4 text notMinus notPlus notValued afterHypothesis beforeHypothesis =>
    rw [resolveLeaf, resolveLeaf, if_neg notMinus, if_neg notPlus, if_neg notMinus,
      if_neg notPlus]
    simp only [notValued]
    refine congrArg (get >>= ·) (funext fun w => ?_)
    rw [findEntity_declare w unmentioned]
    cases found : findEntity scope w text with
    | none => rfl
    | some entry =>
      obtain ⟨span, entity⟩ := entry
      have bound : ∀ slot, entity = .variable slot → slot < scope.variableNames.length := by
        rintro slot rfl
        exact findEntity_variable_slot found
      -- the entity's node, then the parts before and after it, which are parts of the text
      have before : resolveLeaf (scope.declare name) (text.take span.start) =
          resolveLeaf scope (text.take span.start) :=
        beforeHypothesis span (not_infix_take unmentioned _)
      have after : resolveLeaf (scope.declare name) (text.drop (span.start + span.length)) =
          resolveLeaf scope (text.drop (span.start + span.length)) :=
        afterHypothesis span (not_infix_drop unmentioned _)
      simp only [entityNode_declare _ bound, before, after]

theorem resolveProduct_declare (text : List Char) (unmentioned : ¬name.toList <:+: text) :
    resolveProduct (scope.declare name) text = resolveProduct scope text := by
  induction text using resolveProduct.induct with
  | case1 text idx found inductionHypothesis =>
    rw [resolveProduct_of_some found, resolveProduct_of_some found,
      resolveLeaf_declare _ (not_infix_take unmentioned _),
      inductionHypothesis (not_infix_drop unmentioned _)]
  | case2 text noneFound =>
    rw [resolveProduct_of_none noneFound, resolveProduct_of_none noneFound,
      resolveLeaf_declare text unmentioned]

theorem resolveSum_declare (text : List Char) (unmentioned : ¬name.toList <:+: text) :
    resolveSum (scope.declare name) text = resolveSum scope text := by
  induction text using resolveSum.induct with
  | case1 text idx found inductionHypothesis =>
    rw [resolveSum_of_some found, resolveSum_of_some found,
      inductionHypothesis (not_infix_take unmentioned _),
      resolveProduct_declare _ (not_infix_drop unmentioned _)]
  | case2 text noneFound =>
    rw [resolveSum_of_none noneFound, resolveSum_of_none noneFound,
      resolveProduct_declare text unmentioned]

/-- Continuations that agree on every result of a computation give the same computation after
it. -/
theorem Resolve.bind_congr_of_ok {α β : Type} {x : Resolve α} {f g : α → Resolve β}
    (agree : ∀ w a w', x w = .ok (a, w') → f a w' = g a w') : x >>= f = x >>= g := by
  funext w
  show (x w >>= fun p => f p.1 p.2) = (x w >>= fun p => g p.1 p.2)
  cases ran : x w with
  | error e => rfl
  | ok p => exact agree w p.1 p.2 ran

variable (identifier : Text.isIdentifier name = true)
include identifier

/-- The text the power pass leaves does not mention a name that its text did not. -/
theorem resolvePowers_unmentioned (text : List Char) :
    ∀ {w w' : Workspace} {flat : List Char}, ¬name.toList <:+: text →
      resolvePowers scope text w = .ok (flat, w') → ¬name.toList <:+: flat := by
  induction text using resolvePowers.induct with
  | case1 text noneFound =>
    intro w w' flat unmentioned ran
    rw [resolvePowers_of_none noneFound] at ran
    obtain ⟨rfl, -⟩ := Prod.mk.inj (Resolve.pure_eq_ok ran)
    exact unmentioned
  | case2 text pos found inductionHypothesis =>
    intro w w' flat unmentioned ran
    -- the pass goes on with the text that holds the power's placeholder
    obtain ⟨baseLength, exponentLength, _, _, _, _, -, -, -, -, ran⟩ :=
      resolvePowers_step_eq_ok found ran
    exact inductionHypothesis baseLength exponentLength _
      (not_infix_splice_placeholder identifier unmentioned _ _ _) ran

theorem resolvePowers_declare (text : List Char) (unmentioned : ¬name.toList <:+: text) :
    resolvePowers (scope.declare name) text = resolvePowers scope text := by
  induction text using resolvePowers.induct with
  | case1 text noneFound => rw [resolvePowers_of_none noneFound, resolvePowers_of_none noneFound]
  | case2 text pos found inductionHypothesis =>
    rw [resolvePowers_of_some found, resolvePowers_of_some found]
    refine congrArg (get >>= ·) (funext fun w => ?_)
    have head := not_infix_take unmentioned pos
    have tail := not_infix_drop unmentioned (pos + 1)
    rw [trailingAtomLength_declare w head, leadingAtomLength_declare w tail]
    cases trailingAtomLength scope w (text.take pos) with
    | none => rfl
    | some baseLength =>
      cases leadingAtomLength scope w (text.drop (pos + 1)) with
      | none => rfl
      | some exponentLength =>
        -- the operands are parts of the text; the rest is the text with a placeholder in it
        dsimp only
        rw [resolveLeaf_declare _ (not_infix_drop head _),
          resolveLeaf_declare _ (not_infix_take tail _)]
        refine congrArg (_ >>= ·) (funext fun base => congrArg (_ >>= ·) (funext fun exponent =>
          congrArg (_ >>= ·) (funext fun n => ?_)))
        exact inductionHypothesis baseLength exponentLength n
          (not_infix_splice_placeholder identifier unmentioned _ _ n)

theorem resolveOperators_declare (text : List Char) (unmentioned : ¬name.toList <:+: text) :
    resolveOperators (scope.declare name) text = resolveOperators scope text := by
  unfold resolveOperators
  cases text.getLast? with
  | none => rfl
  | some last =>
    dsimp only
    by_cases operator : isOperatorChar last = true
    · rw [if_pos operator, if_pos operator]
    · rw [if_neg operator, if_neg operator, resolvePowers_declare identifier text unmentioned]
      -- the sum pass reads what the power pass leaves, which does not mention the name
      exact Resolve.bind_congr_of_ok fun _ flat w' ran =>
        congrFun (resolveSum_declare flat
          (resolvePowers_unmentioned identifier text unmentioned ran)) w'

/-- Resolving a text that does not mention a name runs the same with the name declared last:
the same tree, placeholders, counters and occurrences, or the same error. -/
theorem resolveExpression_declare (text : List Char) (unmentioned : ¬name.toList <:+: text) :
    resolveExpression (scope.declare name) text = resolveExpression scope text := by
  induction text using resolveExpression.induct with
  | case1 text opening found unclosed =>
    rw [resolveExpression_of_unclosed found unclosed, resolveExpression_of_unclosed found unclosed]
  | case2 text opening found offset closes _ _ _ innerHypothesis restHypothesis =>
    rw [resolveExpression_of_group found closes, resolveExpression_of_group found closes,
      innerHypothesis (not_infix_take (not_infix_drop unmentioned _) _)]
    -- after the group, the text with its placeholder
    refine congrArg (_ >>= ·) (funext fun inner => congrArg (_ >>= ·) (funext fun n => ?_))
    exact restHypothesis n (not_infix_splice_placeholder identifier unmentioned _ _ n)
  | case3 text noneFound closing =>
    rw [resolveExpression_of_none noneFound, resolveExpression_of_none noneFound, if_pos closing,
      if_pos closing]
  | case4 text noneFound notClosing operators =>
    rw [resolveExpression_of_none noneFound, resolveExpression_of_none noneFound,
      if_neg notClosing, if_neg notClosing, if_pos operators, if_pos operators]
    exact resolveOperators_declare identifier text unmentioned
  | case5 text noneFound notClosing noOperators =>
    rw [resolveExpression_of_none noneFound, resolveExpression_of_none noneFound,
      if_neg notClosing, if_neg notClosing, if_neg noOperators, if_neg noOperators]
    exact resolveLeaf_declare text unmentioned

end Resolvers

/-! ## Compilation -/

/-- Every name the check accepts is a given name with its white space removed. -/
theorem Compiler.mem_of_declared {table : ConstantTable} {names declared : List String}
    (checked : Compiler.declareVariables table names = .ok declared) :
    ∀ accepted ∈ declared, accepted ∈ names.map Text.stripWhiteSpace := by
  unfold Compiler.declareVariables at checked
  refine Except.foldlM_invariant_of_mem
    (fun kept => ∀ accepted ∈ kept, accepted ∈ names.map Text.stripWhiteSpace) (by simp) ?_
    checked
  intro kept raw next listed earlier stepped
  dsimp only at stepped
  split at stepped
  · cases stepped
  · split at stepped
    · cases stepped
    · split at stepped
      · cases stepped
        exact earlier
      · cases stepped
        intro accepted held
        rcases List.mem_append.mp held with old | new
        · exact earlier accepted old
        · rw [List.mem_singleton.mp new]
          exact List.mem_map_of_mem listed

/-- Declaring one more name, which is a name, no constant and not declared before, appends it
to the declared names, or fails as the declaration before it does. -/
theorem Compiler.declareVariables_append_fresh {table : ConstantTable} {names : List String}
    {name : String} (identifier : Text.isIdentifier name = true)
    (notConstant : table.contains name = false)
    (undeclared : name ∉ names.map Text.stripWhiteSpace) :
    Compiler.declareVariables table (names ++ [name]) =
      (Compiler.declareVariables table names).map (· ++ [name]) := by
  cases checked : Compiler.declareVariables table names with
  | error e =>
    unfold Compiler.declareVariables at checked ⊢
    rw [List.foldlM_append, checked]
    rfl
  | ok declared =>
    have fresh : name ∉ declared := fun listed =>
      undeclared (Compiler.mem_of_declared checked name listed)
    unfold Compiler.declareVariables at checked ⊢
    rw [List.foldlM_append, checked]
    simp [Text.stripWhiteSpace_of_identifier identifier, identifier, notConstant, fresh, bind,
      Except.bind, pure, Except.pure, Except.map]

/-- Names past the slots of a tree's leaves are not written. -/
theorem Tree.render_append (t : Tree) {names : List String} (more : List String)
    (slots : ∀ leaf ∈ t.leaves, leaf.2 < names.length) :
    t.render (names ++ more) = t.render names := by
  induction t with
  | const z => rfl
  | var leaf slot =>
    have bound := slots (leaf, slot) (List.mem_singleton_self _)
    simp only [Tree.render, List.getElem?_append_left bound]
  | unary f arg inductionHypothesis => simp only [Tree.render, inductionHypothesis slots]
  | binary op left right leftHypothesis rightHypothesis =>
    simp only [Tree.render,
      leftHypothesis fun leaf held => slots leaf (List.mem_append_left _ held),
      rightHypothesis fun leaf held => slots leaf (List.mem_append_right _ held)]

/-- Compiling with one more declared name, which is no constant, not declared before and not
in the normalized text, gives what compiling without it gives, with the name appended to the
declared ones. -/
theorem Compiler.compile_append_unmentioned {c : Compiler} {expression : String}
    {names : List String} {name : String} (identifier : Text.isIdentifier name = true)
    (notConstant : c.constants.contains name = false)
    (undeclared : name ∉ names.map Text.stripWhiteSpace)
    (unmentioned : ∀ text, normalize c.glyphs expression = .ok text →
      ¬name.toList <:+: text.toList) :
    c.compile expression (names ++ [name]) = (c.compile expression names).map
      fun e => { e with variableNames := e.variableNames ++ [name] } := by
  have extended := Compiler.declareVariables_append_fresh identifier notConstant undeclared
  cases normalized : normalize c.glyphs expression with
  | error e => simp [Compiler.compile, normalized, bind, Except.bind, Except.map]
  | ok text =>
    cases constantsChecked : Compiler.checkConstants c.constants with
    | error e =>
      simp [Compiler.compile, normalized, constantsChecked, bind, Except.bind, Except.map]
    | ok u =>
      cases variablesChecked : Compiler.declareVariables c.constants names with
      | error e =>
        rw [variablesChecked] at extended
        simp [Compiler.compile, normalized, constantsChecked, variablesChecked, extended, bind,
          Except.bind, Except.map]
      | ok declared =>
        rw [variablesChecked] at extended
        rw [Compiler.compile_of_checks normalized constantsChecked extended,
          Compiler.compile_of_checks normalized constantsChecked variablesChecked]
        -- the resolution runs the same with the name declared last
        have same : resolveExpression ⟨c.constants, declared ++ [name]⟩ text.toList =
            resolveExpression ⟨c.constants, declared⟩ text.toList :=
          @resolveExpression_declare ⟨c.constants, declared⟩ name identifier text.toList
            (unmentioned text normalized)
        rw [same]
        cases resolveExpression ⟨c.constants, declared⟩ text.toList Workspace.initial <;> rfl

/-- Declaring one more variable name that is no constant, no name declared before once white
space is removed, and not in the normalized text changes nothing but the list of declared
names: the compilation gives the same tree, with its slots and leaf numbers, and the same
occurrences and written form, with the name appended to the declared ones; or it fails with
the same error. -/
theorem compile_ignores_unmentioned_name (c : Compiler) (expression : String)
    (names : List String) (name : String) (identifier : Text.isIdentifier name = true)
    (notConstant : c.constants.contains name = false)
    (undeclared : name ∉ names.map Text.stripWhiteSpace)
    (unmentioned : ∀ text, normalize c.glyphs expression = .ok text →
      ¬name.toList <:+: text.toList) :
    c.compile expression (names ++ [name]) = (c.compile expression names).map
        (fun e => { e with variableNames := e.variableNames ++ [name] }) ∧
      ∀ e, c.compile expression names = .ok e →
        ({ e with variableNames := e.variableNames ++ [name] } : Compiled).display = e.display :=
  ⟨Compiler.compile_append_unmentioned identifier notConstant undeclared unmentioned,
    fun e compiled => Tree.render_append e.root [name] (compile_slots compiled)⟩

/-- A pattern absent from the text an expression normalizes to is absent from every text its
normalization gives. -/
theorem not_infix_of_normalize {glyphs : BracketGlyphs} {expression text : String}
    {pattern : List Char} (normalized : normalize glyphs expression = .ok text)
    (absent : ¬pattern <:+: text.toList) :
    ∀ t, normalize glyphs expression = .ok t → ¬pattern <:+: t.toList := by
  intro t found
  rw [normalized, Except.ok.injEq] at found
  exact found ▸ absent

/-- Declaring `ex` beside `x` changes nothing in `sin(x)^2 + e`, where the name would start at
the constant `e` if it were written. -/
theorem compile_ignores_ex_beside_e :
    Text.isIdentifier "ex" = true ∧ Compiler.standard.constants.contains "ex" = false ∧
      "ex" ∉ ["x"].map Text.stripWhiteSpace ∧
      (∀ text, normalize Compiler.standard.glyphs "sin(x)^2 + e" = .ok text →
        ¬"ex".toList <:+: text.toList) ∧
      (Compiler.standard.compile "sin(x)^2 + e" (["x"] ++ ["ex"]) =
          (Compiler.standard.compile "sin(x)^2 + e" ["x"]).map
            (fun e => { e with variableNames := e.variableNames ++ ["ex"] }) ∧
        ∀ e, Compiler.standard.compile "sin(x)^2 + e" ["x"] = .ok e →
          ({ e with variableNames := e.variableNames ++ ["ex"] } : Compiled).display =
            e.display) := by
  have identifier : Text.isIdentifier "ex" = true := by decide +kernel
  have notConstant : Compiler.standard.constants.contains "ex" = false := by decide +kernel
  have undeclared : "ex" ∉ ["x"].map Text.stripWhiteSpace := by decide +kernel
  have normalized : normalize Compiler.standard.glyphs "sin(x)^2 + e" = .ok "sin(x)^2+e" := by
    decide +kernel
  have unmentioned : ∀ text, normalize Compiler.standard.glyphs "sin(x)^2 + e" = .ok text →
      ¬"ex".toList <:+: text.toList :=
    not_infix_of_normalize normalized (by decide +kernel)
  exact ⟨identifier, notConstant, undeclared, unmentioned,
    compile_ignores_unmentioned_name _ _ _ _ identifier notConstant undeclared unmentioned⟩

/-- A name declared with white space around it is that name, so declaring the name once more
adds no variable: `1` compiled with `w ` and `w` declared has the one variable `w`, not two. -/
theorem compile_merges_name_declared_with_space :
    Text.isIdentifier "w" = true ∧ Compiler.standard.constants.contains "w" = false ∧
      "w" ∉ ["w "] ∧
      (∀ text, normalize Compiler.standard.glyphs "1" = .ok text → ¬"w".toList <:+: text.toList) ∧
      Compiler.standard.compile "1" (["w "] ++ ["w"]) ≠
        (Compiler.standard.compile "1" ["w "]).map
          (fun e => { e with variableNames := e.variableNames ++ ["w"] }) := by
  have normalized : normalize Compiler.standard.glyphs "1" = .ok "1" := by decide +kernel
  refine ⟨by decide +kernel, by decide +kernel, by decide,
    not_infix_of_normalize normalized (by decide +kernel), fun same => ?_⟩
  have once : (Compiler.standard.compile "1" (["w "] ++ ["w"])).toOption.map
      (·.variableNames) = some ["w"] := by
    decide +kernel
  have twice : ((Compiler.standard.compile "1" ["w "]).map
      (fun e => { e with variableNames := e.variableNames ++ ["w"] })).toOption.map
        (·.variableNames) = some ["w", "w"] := by
    decide +kernel
  rw [same, twice] at once
  simp at once

end ComplexFormula
