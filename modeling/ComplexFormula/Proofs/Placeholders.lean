import ComplexFormula.Proofs.Ledger

/-!
# Placeholders are taken once

The bracket and power passes replace a part of the text by a placeholder `|_n_|` and keep
its subtree pending; the leaf resolver takes the subtree back where it finds the placeholder.
The books of `Proofs/Ledger` balance along every run of the resolvers
(`resolveExpression_resolved`): the bars of the text are those of the placeholders the run
took, a run adds no placeholder but fresh ones, and one taken out is never pending again
(`Workspace.Ran.stays_out`). A compilation starts with nothing pending, so when it succeeds
it has taken every placeholder it minted, its text had no bar, and the leaf numbers of its
tree are the leaves it created, each once (`Resolved.of_initial`). A bar the user writes can
therefore never stand for a placeholder: the compilation of a text that holds one fails
(`compile_takes_each_placeholder_once`).
-/

namespace ComplexFormula

/-! ## Cutting a text -/

/-- Cutting a text at a character other than a bar keeps its bars in the two parts. -/
theorem count_bar_cut {text : List Char} {idx : Nat} {c : Char} (found : text[idx]? = some c)
    (notBar : c ≠ '|') :
    text.count '|' = (text.take idx).count '|' + (text.drop (idx + 1)).count '|' := by
  obtain ⟨inside, isC⟩ := List.getElem?_eq_some_iff.mp found
  rw [Text.count_slice '|' text (Nat.le_add_right idx 1), Text.slice, Nat.add_sub_cancel_left,
    List.drop_eq_getElem_cons inside, List.take_succ_cons, List.take_zero, isC,
    List.count_singleton, if_neg (by simpa using notBar), Nat.add_zero]

/-- The character where a search stops passes its test. -/
theorem findIdx?_found {p : Char → Bool} {text : List Char} {idx : Nat}
    (found : text.findIdx? p = some idx) : ∃ c, text[idx]? = some c ∧ p c = true := by
  obtain ⟨inside, passes, -⟩ := List.findIdx?_eq_some_iff_getElem.mp found
  exact ⟨_, List.getElem?_eq_getElem inside, passes⟩

/-- The first `(` of a text stands where the search for it stops. -/
theorem getElem?_of_findIdx?_opening {text : List Char} {opening : Nat}
    (found : text.findIdx? (· == '(') = some opening) : text[opening]? = some '(' := by
  obtain ⟨c, isOpening, opens⟩ := findIdx?_found found
  rwa [show c = '(' by simpa using opens] at isOpening

/-- A list from an index where it has an element starts with that element. -/
theorem drop_eq_cons_of_getElem? {α : Type} {xs : List α} {k : Nat} {x : α}
    (found : xs[k]? = some x) : xs.drop k = x :: xs.drop (k + 1) := by
  obtain ⟨inside, rfl⟩ := List.getElem?_eq_some_iff.mp found
  exact List.drop_eq_getElem_cons inside

/-- The bars of a span across a position that holds no bar are those on either side of it. -/
theorem count_bar_across {text : List Char} {start pos stop : Nat} {c : Char} (before : start ≤ pos)
    (after : pos < stop) (found : text[pos]? = some c) (notBar : c ≠ '|') :
    (Text.slice text start stop).count '|' = ((text.take pos).drop start).count '|' +
      ((text.drop (pos + 1)).take (stop - pos - 1)).count '|' := by
  obtain ⟨inside, isC⟩ := List.getElem?_eq_some_iff.mp found
  rw [Text.slice_across text before after inside, List.count_append, List.count_cons, isC,
    if_neg (by simpa using notBar), Nat.add_zero]

theorem additiveSplit?_found {text : List Char} {idx : Nat} (found : additiveSplit? text = some idx) :
    ∃ c, text[idx]? = some c ∧ isSignChar c = true := by
  have split := List.find?_some found
  unfold isAdditiveSplit at split
  cases at_idx : text[idx]? with
  | none => simp [at_idx] at split
  | some c =>
    simp only [at_idx, Option.map_some, Option.getD_some, Bool.and_eq_true] at split
    exact ⟨c, rfl, split.1.1⟩

/-! ## Bracket groups -/

/-- Where the search for a closing bracket stops, there is one. -/
theorem closingOffset_closes {text : List Char} {depth pos offset : Nat}
    (found : closingOffset text depth pos = some offset) :
    pos ≤ offset ∧ text[offset - pos]? = some ')' := by
  induction text generalizing depth pos with
  | nil => cases found
  | cons c rest inductionHypothesis =>
    -- a search that goes on reads the rest, one position further
    have further : ∀ depth', closingOffset rest depth' (pos + 1) = some offset →
        pos ≤ offset ∧ (c :: rest)[offset - pos]? = some ')' := by
      intro depth' later
      obtain ⟨bound, closes⟩ := inductionHypothesis later
      refine ⟨by omega, ?_⟩
      rw [show offset - pos = offset - (pos + 1) + 1 by omega, List.getElem?_cons_succ]
      exact closes
    rw [closingOffset] at found
    split at found
    · exact further _ found
    · split at found
      · next closing =>
        split at found
        · cases found
          simp only [Nat.sub_self, List.getElem?_cons_zero, Option.some.injEq]
          exact ⟨Nat.le_refl _, by simpa using closing⟩
        · exact further _ found
      · exact further _ found

/-- The bracket that closes a group stands after its opening one. -/
theorem closingOffset_group {text : List Char} {opening offset : Nat}
    (isOpening : text[opening]? = some '(')
    (found : closingOffset (text.drop opening) 0 0 = some offset) :
    0 < offset ∧ text[opening + offset]? = some ')' := by
  rw [drop_eq_cons_of_getElem? isOpening, closingOffset_opening] at found
  obtain ⟨positive, closes⟩ := closingOffset_closes found
  refine ⟨positive, ?_⟩
  rw [List.getElem?_drop, show opening + 1 + (offset - 1) = opening + offset by omega] at closes
  exact closes

/-- The function found before a bracket is named by the end of the text before it. -/
theorem UnaryFn.suffixOf?_suffix {text : List Char} {f : UnaryFn}
    (found : UnaryFn.suffixOf? text = some f) : f.name.toList <:+ text := by
  unfold UnaryFn.suffixOf? at found
  have start : ∀ g, (none : Option UnaryFn) = some g → g.name.toList <:+ text :=
    fun _ absurd => by cases absurd
  revert found start
  generalize (none : Option UnaryFn) = best
  generalize UnaryFn.all = fs
  -- the best function so far is always named by an end of the text
  induction fs generalizing best with
  | nil => exact fun found named => named f found
  | cons g rest inductionHypothesis =>
    intro found named
    refine inductionHypothesis _ found fun h chosen => ?_
    dsimp only at chosen
    split at chosen
    · next suffix =>
      have own : g.name.toList <:+ text := List.isSuffixOf_iff_suffix.mp suffix
      split at chosen
      · split at chosen
        · cases chosen
          exact own
        · cases chosen
          exact named _ rfl
      · cases chosen
        exact own
    · exact named h chosen

theorem UnaryFn.count_bar_name (f : UnaryFn) : f.name.toList.count '|' = 0 := by
  cases f <;> decide

/-- The function name before a group holds no bar. -/
theorem count_bar_functionName {text : List Char} {opening : Nat} (inside : opening ≤ text.length) :
    ((text.take opening).drop
      (opening - ((UnaryFn.suffixOf? (text.take opening)).map (·.name.length)).getD 0)).count
        '|' = 0 := by
  cases function : UnaryFn.suffixOf? (text.take opening) with
  | none =>
    simp only [Option.map_none, Option.getD_none, Nat.sub_zero]
    rw [List.count_eq_zero]
    intro mem
    have := List.length_pos_of_mem mem
    simp only [List.length_drop, List.length_take] at this
    omega
  | some f =>
    have suffix := UnaryFn.suffixOf?_suffix function
    have fits := suffix.length_le
    simp only [List.length_take, String.length_toList] at fits
    simp only [Option.map_some, Option.getD_some]
    have named : (text.take opening).drop (opening - f.name.length) = f.name.toList := by
      rw [List.suffix_iff_eq_drop.mp suffix, List.length_take, String.length_toList]
      congr 1
      omega
    rw [named, UnaryFn.count_bar_name]

/-- Trading the first group, with the function named before it, for a placeholder: the bars
of the new text and those inside the group are the text's and the placeholder's two. -/
theorem count_bar_splice_group {text : List Char} {opening offset : Nat}
    (found : text.findIdx? (· == '(') = some opening)
    (closes : closingOffset (text.drop opening) 0 0 = some offset) (n : Nat) :
    (Text.splice text
        (opening - ((UnaryFn.suffixOf? (text.take opening)).map (·.name.length)).getD 0)
        (opening + offset + 1) (placeholderText n)).count '|' +
      ((text.drop (opening + 1)).take (opening + offset - opening - 1)).count '|' =
    text.count '|' + 2 := by
  have isOpening := getElem?_of_findIdx?_opening found
  obtain ⟨positive, isClosing⟩ := closingOffset_group isOpening closes
  have inside := (List.getElem?_eq_some_iff.mp isClosing).1
  have spliced := Text.count_splice '|' text (placeholderText n)
    (show opening - ((UnaryFn.suffixOf? (text.take opening)).map (·.name.length)).getD 0 ≤
      opening + offset + 1 by omega)
  rw [count_bar_across (Nat.sub_le _ _) (by omega) isOpening (by decide),
    count_bar_functionName (by omega), count_bar_placeholderText] at spliced
  -- the group's text is its inside and the closing bracket
  have group : ((text.drop (opening + 1)).take (opening + offset + 1 - opening - 1)).count '|' =
      ((text.drop (opening + 1)).take (opening + offset - opening - 1)).count '|' := by
    rw [show opening + offset + 1 - opening - 1 = (opening + offset - opening - 1) + 1 by omega,
      List.take_add_one, List.getElem?_drop,
      show opening + 1 + (opening + offset - opening - 1) = opening + offset by omega,
      isClosing, List.count_append]
    rfl
  rwa [group, Nat.zero_add] at spliced

section Resolvers

variable {scope : Scope}

theorem resolveExpression_of_unclosed {text : List Char} {opening : Nat}
    (found : text.findIdx? (· == '(') = some opening)
    (unclosed : closingOffset (text.drop opening) 0 0 = none) :
    resolveExpression scope text =
      throw (.unbalancedBrackets (String.ofList (text.drop opening))) := by
  rw [resolveExpression]
  split
  · next opening' found' =>
    rw [found, Option.some.injEq] at found'
    subst found'
    simp only [unclosed]
  · next noneFound =>
    rw [found] at noneFound
    cases noneFound

theorem resolveExpression_of_group {text : List Char} {opening offset : Nat}
    (found : text.findIdx? (· == '(') = some opening)
    (closes : closingOffset (text.drop opening) 0 0 = some offset) :
    resolveExpression scope text = (do
      let inner ← resolveExpression scope
        ((text.drop (opening + 1)).take (opening + offset - opening - 1))
      let n ← mint ((UnaryFn.suffixOf? (text.take opening)).elim inner (Tree.unary · inner))
      resolveExpression scope (Text.splice text
        (opening - ((UnaryFn.suffixOf? (text.take opening)).map (·.name.length)).getD 0)
        (opening + offset + 1) (placeholderText n))) := by
  rw [resolveExpression]
  split
  · next opening' found' =>
    rw [found, Option.some.injEq] at found'
    subst found'
    simp only [closes]
    congr 1
    funext inner
    congr 2
    cases UnaryFn.suffixOf? (text.take opening) <;> rfl
  · next noneFound =>
    rw [found] at noneFound
    cases noneFound

theorem resolveExpression_of_none {text : List Char}
    (noneFound : text.findIdx? (· == '(') = none) :
    resolveExpression scope text =
      if text.contains ')' then throw (.unbalancedBrackets (String.ofList text))
      else if text.any isOperatorChar then resolveOperators scope text
      else resolveLeaf scope text := by
  rw [resolveExpression]
  split
  · next opening found =>
    rw [noneFound] at found
    cases found
  · rfl

/-! ## Every resolver keeps the books -/

theorem resolveLeaf_resolved (wf : scope.WellFormed) (text : List Char) :
    ∀ {w w' : Workspace} {t : Tree}, w.Sound scope → resolveLeaf scope text w = .ok (t, w') →
      Resolved scope (text.count '|') w t w' := by
  induction text using resolveLeaf.induct with
  | case1 =>
    intro w w' t sound ran
    rw [resolveLeaf, if_pos rfl] at ran
    obtain ⟨rfl, rfl⟩ := Prod.mk.inj (Resolve.pure_eq_ok ran)
    exact Resolved.const sound _
  | case2 =>
    intro w w' t sound ran
    rw [resolveLeaf, if_neg (by decide), if_pos rfl] at ran
    obtain ⟨rfl, rfl⟩ := Prod.mk.inj (Resolve.pure_eq_ok ran)
    exact Resolved.const sound _
  | case3 text notMinus notPlus value valued =>
    intro w w' t sound ran
    rw [resolveLeaf, if_neg notMinus, if_neg notPlus] at ran
    simp only [valued] at ran
    obtain ⟨rfl, rfl⟩ := Prod.mk.inj (Resolve.pure_eq_ok ran)
    have noBar : text.count '|' = 0 := List.count_eq_zero.mpr fun mem => by
      rw [Literal.value?_eq_none_of_mem mem (by decide)] at valued
      cases valued
    rw [noBar]
    exact Resolved.const sound _
  | case4 text notMinus notPlus notValued afterHypothesis beforeHypothesis =>
    intro w w' t sound ran
    obtain ⟨span, entity, matched, withBefore, w₁, w₂, found, made, before, after⟩ :=
      resolveLeaf_around_entity notMinus notPlus notValued ran
    have entityRun := entityNode_resolved wf sound (findEntity_names found) made
    -- the part before the entity is resolved next, when there is one
    have beforeRun : Resolved scope ((text.take span.start).count '|' +
        (Text.slice text span.start (span.start + span.length)).count '|') w withBefore w₂ := by
      rcases before with ⟨noBefore, rfl, rfl⟩ | ⟨left, -, leftRun, rfl⟩
      · rw [noBefore, List.count_nil, Nat.zero_add]
        exact entityRun
      · rw [Nat.add_comm]
        exact (entityRun.binary (beforeHypothesis span entityRun.ran.sound leftRun) .mul).swap .mul
    rw [Text.count_slice '|' text (Nat.le_add_right span.start span.length)]
    -- then the part after it
    rcases after with ⟨noAfter, rfl, rfl⟩ | ⟨right, -, rightRun, rfl⟩
    · rwa [noAfter, List.count_nil, Nat.add_zero]
    · exact beforeRun.binary (afterHypothesis span beforeRun.ran.sound rightRun) .mul

theorem resolveProduct_resolved (wf : scope.WellFormed) (text : List Char) :
    ∀ {w w' : Workspace} {t : Tree}, w.Sound scope → resolveProduct scope text w = .ok (t, w') →
      Resolved scope (text.count '|') w t w' := by
  induction text using resolveProduct.induct with
  | case1 text idx found inductionHypothesis =>
    intro w w' t sound ran
    rw [resolveProduct_of_some found] at ran
    obtain ⟨left, w₁, right, leftRun, rightRun, rfl⟩ := Resolve.bind_bind_pure_eq_ok ran
    obtain ⟨c, at_idx, operator⟩ := findIdx?_found found
    have leftResolved := resolveLeaf_resolved wf _ sound leftRun
    rw [count_bar_cut at_idx (by rintro rfl; exact absurd operator (by decide))]
    exact leftResolved.binary (inductionHypothesis leftResolved.ran.sound rightRun) _
  | case2 text noneFound =>
    intro w w' t sound ran
    rw [resolveProduct_of_none noneFound] at ran
    exact resolveLeaf_resolved wf text sound ran

theorem resolveSum_resolved (wf : scope.WellFormed) (text : List Char) :
    ∀ {w w' : Workspace} {t : Tree}, w.Sound scope → resolveSum scope text w = .ok (t, w') →
      Resolved scope (text.count '|') w t w' := by
  induction text using resolveSum.induct with
  | case1 text idx found inductionHypothesis =>
    intro w w' t sound ran
    rw [resolveSum_of_some found] at ran
    obtain ⟨left, w₁, right, leftRun, rightRun, rfl⟩ := Resolve.bind_bind_pure_eq_ok ran
    obtain ⟨c, at_idx, sign⟩ := additiveSplit?_found found
    have leftResolved := inductionHypothesis sound leftRun
    rw [count_bar_cut at_idx (by rintro rfl; exact absurd sign (by decide))]
    exact leftResolved.binary (resolveProduct_resolved wf _ leftResolved.ran.sound rightRun) _
  | case2 text noneFound =>
    intro w w' t sound ran
    rw [resolveSum_of_none noneFound] at ran
    exact resolveProduct_resolved wf text sound ran

theorem resolvePowers_rewrote (wf : scope.WellFormed) (text : List Char) :
    ∀ {w w' : Workspace} {flat : List Char}, w.Sound scope →
      resolvePowers scope text w = .ok (flat, w') →
      Rewrote scope (text.count '|') (flat.count '|') w w' := by
  induction text using resolvePowers.induct with
  | case1 text noneFound =>
    intro w w' flat sound ran
    rw [resolvePowers_of_none noneFound] at ran
    obtain ⟨rfl, rfl⟩ := Prod.mk.inj (Resolve.pure_eq_ok ran)
    exact Rewrote.refl sound _
  | case2 text pos found inductionHypothesis =>
    intro w w' flat sound ran
    obtain ⟨baseLength, exponentLength, base, exponent, w₁, w₂, -, -, baseRun, exponentRun, ran⟩ :=
      resolvePowers_step_eq_ok found ran
    have baseResolved := resolveLeaf_resolved wf _ sound baseRun
    have exponentResolved := resolveLeaf_resolved wf _ baseResolved.ran.sound exponentRun
    -- the power's text, its operands around the caret, is traded for a placeholder
    obtain ⟨c, at_pos, caret⟩ := findIdx?_found found
    have spliced := Text.count_splice '|' text (placeholderText (w₂.minted + 1))
      (show pos - baseLength ≤ pos + 1 + exponentLength by omega)
    rw [count_bar_across (Nat.sub_le pos baseLength) (by omega) at_pos
      (by rintro rfl; exact absurd caret (by decide)), count_bar_placeholderText,
      show pos + 1 + exponentLength - pos - 1 = exponentLength by omega] at spliced
    have step := Rewrote.mint (baseResolved.binary exponentResolved .pow) rfl (by omega)
    exact step.trans (inductionHypothesis baseLength exponentLength _ step.ran.sound ran)

theorem resolveOperators_resolved (wf : scope.WellFormed) {text : List Char} {w w' : Workspace}
    {t : Tree} (sound : w.Sound scope) (ran : resolveOperators scope text w = .ok (t, w')) :
    Resolved scope (text.count '|') w t w' := by
  cases last : text.getLast? with
  | none =>
    simp only [resolveOperators, last] at ran
    exact absurd ran Resolve.unparseable_ne_ok
  | some c =>
    cases operator : isOperatorChar c with
    | true =>
      simp only [resolveOperators, last, operator, if_true] at ran
      exact absurd ran Resolve.unparseable_ne_ok
    | false =>
      rw [resolveOperators_of_last last operator] at ran
      obtain ⟨flat, w₁, flatRun, ran⟩ := Resolve.bind_eq_ok.mp ran
      have rewrote := resolvePowers_rewrote wf text sound flatRun
      exact Resolved.of_rewrote rewrote (resolveSum_resolved wf flat rewrote.ran.sound ran)
theorem resolveExpression_resolved (wf : scope.WellFormed) (text : List Char) :
    ∀ {w w' : Workspace} {t : Tree}, w.Sound scope → resolveExpression scope text w = .ok (t, w') →
      Resolved scope (text.count '|') w t w' := by
  induction text using resolveExpression.induct with
  | case1 text opening found unclosed =>
    intro w w' t sound ran
    rw [resolveExpression_of_unclosed found unclosed] at ran
    cases ran
  | case2 text opening found offset closes closing function =>
    rename_i spanStart innerHypothesis restHypothesis
    intro w w' t sound ran
    rw [resolveExpression_of_group found closes] at ran
    obtain ⟨inner, w₁, innerRun, ran⟩ := Resolve.bind_eq_ok.mp ran
    rw [Resolve.bind_of_ok (mint_apply _ w₁)] at ran
    have innerResolved : Resolved scope
        (((text.drop (opening + 1)).take (opening + offset - opening - 1)).count '|') w inner w₁ :=
      innerHypothesis sound innerRun
    have sameLeaves : ((UnaryFn.suffixOf? (text.take opening)).elim inner
        (Tree.unary · inner)).leaves = inner.leaves := by
      cases UnaryFn.suffixOf? (text.take opening) <;> rfl
    -- the group, with the function name before it, is traded for a placeholder
    have step : Rewrote scope (text.count '|') _ w _ := Rewrote.mint innerResolved sameLeaves
      (count_bar_splice_group found closes (w₁.minted + 1))
    exact Resolved.of_rewrote step (restHypothesis _ step.ran.sound ran)
  | case3 text noneFound closing =>
    intro w w' t sound ran
    rw [resolveExpression_of_none noneFound, if_pos closing] at ran
    cases ran
  | case4 text noneFound notClosing operators =>
    intro w w' t sound ran
    rw [resolveExpression_of_none noneFound, if_neg notClosing, if_pos operators] at ran
    exact resolveOperators_resolved wf sound ran
  | case5 text noneFound notClosing noOperators =>
    intro w w' t sound ran
    rw [resolveExpression_of_none noneFound, if_neg notClosing, if_neg noOperators] at ran
    exact resolveLeaf_resolved wf text sound ran

end Resolvers

/-! ## Compilation -/

/-- What a compilation that succeeds did: it normalized the text, passed the checks, resolved
the normalized text from the initial workspace, folded the tree if asked, and kept the
occurrences of the leaves left in it. -/
theorem Compiler.compile_eq_ok {c : Compiler} {expression : String} {names : List String}
    {e : Compiled} (compiled : c.compile expression names = .ok e) :
    ∃ text declared raw w, normalize c.glyphs expression = .ok text ∧
      Compiler.checkConstants c.constants = .ok () ∧
      Compiler.declareVariables c.constants names = .ok declared ∧
      resolveExpression ⟨c.constants, declared⟩ text.toList Workspace.initial = .ok (raw, w) ∧
      e = ⟨if c.folding then raw.fold else raw, declared,
        w.occurrences.retainPresent ((if c.folding then raw.fold else raw).leaves.map (·.1))⟩ := by
  cases normalized : normalize c.glyphs expression with
  | error err => simp [Compiler.compile, normalized, bind, Except.bind] at compiled
  | ok text =>
  cases constantsChecked : Compiler.checkConstants c.constants with
  | error err => simp [Compiler.compile, normalized, constantsChecked, bind, Except.bind] at compiled
  | ok u =>
  cases variablesChecked : Compiler.declareVariables c.constants names with
  | error err =>
    simp [Compiler.compile, normalized, constantsChecked, variablesChecked, bind,
      Except.bind] at compiled
  | ok declared =>
  cases resolved : resolveExpression ⟨c.constants, declared⟩ text.toList Workspace.initial with
  | error err =>
    simp [Compiler.compile, normalized, constantsChecked, variablesChecked, resolved, bind,
      Except.bind, StateT.run] at compiled
  | ok result =>
    obtain ⟨raw, w⟩ := result
    simp only [Compiler.compile, normalized, constantsChecked, variablesChecked, resolved, bind,
      Except.bind, StateT.run, pure, Except.pure, Except.ok.injEq] at compiled
    exact ⟨text, declared, raw, w, rfl, rfl, rfl, resolved, compiled.symm⟩

/-- A successful compilation resolved its normalized text in a well-formed scope, and the
books of that run balance from the initial workspace. -/
theorem Compiler.compile_resolved {c : Compiler} {expression : String} {names : List String}
    {e : Compiled} (compiled : c.compile expression names = .ok e) :
    ∃ text declared raw w, normalize c.glyphs expression = .ok text ∧
      (Scope.mk c.constants declared).WellFormed ∧
      resolveExpression ⟨c.constants, declared⟩ text.toList Workspace.initial = .ok (raw, w) ∧
      Resolved ⟨c.constants, declared⟩ (text.toList.count '|') Workspace.initial raw w ∧
      e = ⟨if c.folding then raw.fold else raw, declared,
        w.occurrences.retainPresent ((if c.folding then raw.fold else raw).leaves.map (·.1))⟩ := by
  obtain ⟨text, declared, raw, w, normalized, constantsChecked, variablesChecked, resolved, rfl⟩ :=
    Compiler.compile_eq_ok compiled
  have wf := Compiler.wellFormed_of_checks constantsChecked variablesChecked
  exact ⟨text, declared, raw, w, normalized, wf, resolved,
    resolveExpression_resolved wf _ (Workspace.sound_initial _) resolved, rfl⟩

/-- A run from the initial workspace that resolved a text took every placeholder it minted,
read no bar, and gave a tree whose leaf numbers are the leaves it created, each once. -/
theorem Resolved.of_initial {scope : Scope} {b : Nat} {t : Tree} {w : Workspace}
    (resolved : Resolved scope b Workspace.initial t w) :
    w.pending = [] ∧ b = 0 ∧ (t.leaves.map (·.1)).Perm (List.range w.nextLeaf) := by
  have bars := resolved.bars
  simp only [Workspace.initial, List.length_nil, Nat.mul_zero] at bars
  have empty : w.pending = [] := List.eq_nil_of_length_eq_zero (by omega)
  refine ⟨empty, by omega, List.perm_iff_count.mpr fun leaf => ?_⟩
  have counted := resolved.leaves leaf
  simpa [Workspace.pendingLeaves, empty, Workspace.initial, Workspace.createdLeaves,
    List.range_eq_range'] using counted

/-- A placeholder taken out on the way from `w` to `w₁` is not pending after any later run:
the placeholders a run adds are fresh. -/
theorem Workspace.Ran.stays_out {scope : Scope} {w w₁ w₂ : Workspace} (sound : w.Sound scope)
    (first : w.Ran scope w₁) (second : w₁.Ran scope w₂) {key : List Char}
    (pending : key ∈ w.pending.map (·.1)) (taken : key ∉ w₁.pending.map (·.1)) :
    key ∉ w₂.pending.map (·.1) := by
  intro again
  obtain ⟨entry, held, rfl⟩ := List.mem_map.mp again
  obtain ⟨old, oldHeld, same⟩ := List.mem_map.mp pending
  obtain ⟨k, bounded, isKey⟩ := sound.fresh old oldHeld
  rcases second.kept entry held with before | ⟨n, later, fresh⟩
  · exact taken (List.mem_map.mpr ⟨entry, before, rfl⟩)
  · have sameNumber := placeholderText_injective (isKey.symm.trans (same.trans fresh))
    have := first.minted
    omega

/-- A compilation that succeeds took every placeholder it minted: none is left pending, its
normalized text had no bar, and the leaf numbers of its tree are the leaves it created, each
once. -/
theorem Compiler.compile_takes_all {c : Compiler} {expression : String} {names : List String}
    {e : Compiled} (compiled : c.compile expression names = .ok e) :
    ∃ text declared raw w, normalize c.glyphs expression = .ok text ∧
      resolveExpression ⟨c.constants, declared⟩ text.toList Workspace.initial = .ok (raw, w) ∧
      w.pending = [] ∧ '|' ∉ text.toList ∧ (raw.leaves.map (·.1)).Perm (List.range w.nextLeaf) := by
  obtain ⟨text, declared, raw, w, normalized, -, resolved, books, -⟩ :=
    Compiler.compile_resolved compiled
  obtain ⟨empty, noBar, leaves⟩ := books.of_initial
  exact ⟨text, declared, raw, w, normalized, resolved, empty, List.count_eq_zero.mp noBar, leaves⟩

/-- A bar in the normalized text makes compilation fail. -/
theorem Compiler.compile_error_of_bar {c : Compiler} {expression : String} {names : List String}
    {text : String} (normalized : normalize c.glyphs expression = .ok text)
    (barred : '|' ∈ text.toList) : ∃ err, c.compile expression names = .error err := by
  cases compiled : c.compile expression names with
  | error err => exact ⟨err, rfl⟩
  | ok e =>
    obtain ⟨text', -, -, -, normalized', -, -, noBar, -⟩ := Compiler.compile_takes_all compiled
    rw [normalized, Except.ok.injEq] at normalized'
    exact absurd (normalized' ▸ barred) noBar

/-- Every placeholder is taken once. A run of the resolvers from a sound workspace keeps it
sound (pending placeholders distinct, each minted already) and adds none but fresh ones, and
the bars of its text are two for each placeholder it took; a placeholder taken out is never
pending again. A compilation that succeeds leaves none pending, its normalized text has no
bar, and the leaf numbers of its tree are the leaves it created, each once. So a bar in the
normalized text makes compilation fail. -/
theorem compile_takes_each_placeholder_once :
    (∀ (scope : Scope) (text : List Char) (w w' : Workspace) (t : Tree), scope.WellFormed →
        w.Sound scope → resolveExpression scope text w = .ok (t, w') →
        w.Ran scope w' ∧ text.count '|' + 2 * w'.pending.length = 2 * w.pending.length) ∧
    (∀ (scope : Scope) (w w₁ w₂ : Workspace) (key : List Char), w.Sound scope →
        w.Ran scope w₁ → w₁.Ran scope w₂ → key ∈ w.pending.map (·.1) →
        key ∉ w₁.pending.map (·.1) → key ∉ w₂.pending.map (·.1)) ∧
    (∀ (c : Compiler) (expression : String) (names : List String) (e : Compiled),
        c.compile expression names = .ok e → ∃ text declared raw w,
          normalize c.glyphs expression = .ok text ∧
          resolveExpression ⟨c.constants, declared⟩ text.toList Workspace.initial =
            .ok (raw, w) ∧
          w.pending = [] ∧ '|' ∉ text.toList ∧
          (raw.leaves.map (·.1)).Perm (List.range w.nextLeaf)) ∧
    (∀ (c : Compiler) (expression : String) (names : List String) (text : String),
        normalize c.glyphs expression = .ok text → '|' ∈ text.toList →
        ∃ err, c.compile expression names = .error err) := by
  refine ⟨fun scope text w w' t wf sound ran => ?_,
    fun scope w w₁ w₂ key sound first second => first.stays_out sound second,
    fun c expression names e compiled => Compiler.compile_takes_all compiled,
    fun c expression names text normalized barred => Compiler.compile_error_of_bar normalized barred⟩
  have resolved := resolveExpression_resolved wf text sound ran
  exact ⟨resolved.ran, resolved.bars⟩

/-- A placeholder typed into a formula is no placeholder: its compilation fails. -/
theorem compile_typed_placeholder_fails :
    normalize Compiler.standard.glyphs "x|_1_|" = .ok "x|_1_|" ∧ '|' ∈ "x|_1_|".toList ∧
      ∃ err, Compiler.standard.compile "x|_1_|" ["x"] = .error err := by
  have normal : normalize Compiler.standard.glyphs "x|_1_|" = .ok "x|_1_|" := by
    have chars : "x|_1_|".toList = ['x', '|', '_', '1', '_', '|'] := by decide
    have plain : ∀ c ∈ "x|_1_|".toList, Text.isWhiteSpace c = false := by
      intro c mem
      simp only [chars, List.mem_cons, List.not_mem_nil, or_false] at mem
      rcases mem with rfl | rfl | rfl | rfl | rfl | rfl <;> decide
    have noGlyph : ∀ d ∈ ['[', '\x7b', ']', '\x7d'], d ∉ "x|_1_|".toList := by
      intro d glyph
      simp only [List.mem_cons, List.not_mem_nil, or_false] at glyph
      rw [chars]
      rcases glyph with rfl | rfl | rfl | rfl <;> decide
    have settled := normalize_of_settled (by decide) plain noGlyph
    rwa [String.ofList_toList] at settled
  have barred : '|' ∈ "x|_1_|".toList := by decide
  exact ⟨normal, barred, compile_takes_each_placeholder_once.2.2.2 Compiler.standard "x|_1_|"
    ["x"] "x|_1_|" normal barred⟩

end ComplexFormula
