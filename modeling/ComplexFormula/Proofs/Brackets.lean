import Mathlib.Combinatorics.Enumerative.DyckWord
import ComplexFormula.Proofs.Placeholders

/-!
# Unbalanced brackets

The bracket pass reports unbalanced brackets when a `(` has no `)` that closes it, or when a
`)` is left once every group is resolved. This happens exactly on texts whose round brackets,
read in order, are no Dyck word (`RoundBalanced`): on a balanced text the resolver never
reports unbalanced brackets, whatever the workspace, so at no depth of its recursion, and on
an unbalanced text it never succeeds (`resolveExpression_reports_unbalanced`). It may still
fail otherwise, when a group before fails first.

Balance is read by a scan that counts the brackets left open (`openAfter?`), which fails at
a `)` with none open; a text is balanced exactly when the scan from none open ends with none
open (`roundBalanced_iff_openAfter?`). The search for the closing bracket of a group stops at
the first `)` that closes it, so the inside of a group is balanced (`closingOffset_eq_some`),
and a text whose scan ends with none open has the `)` the search looks for
(`closingOffset_ne_none`). Trading a group and the function name before it for a placeholder
leaves the count of open brackets as it was at every later point
(`openAfter?_splice_group`), so it keeps a text balanced or unbalanced.
-/

namespace ComplexFormula

/-! ## Balanced brackets -/

/-- A round bracket as a step of a Dyck path: `(` goes up and `)` goes down; any other
character is no step. -/
def roundStep? : Char → Option DyckStep
  | '(' => some .U
  | ')' => some .D
  | _ => none

/-- The round brackets of a text, in order, as steps. -/
def roundSteps (text : List Char) : List DyckStep := text.filterMap roundStep?

/-- The round brackets of a text form a Dyck word: read in order, no `)` comes before the
`(` it closes, and none is left open. -/
def RoundBalanced (text : List Char) : Prop := ∃ word : DyckWord, word.toList = roundSteps text

/-- The number of brackets left open after reading a text with `depth` open: `(` opens one,
`)` closes one, and a `)` with none open leaves no count. -/
def openAfter? : List Char → Nat → Option Nat
  | [], depth => some depth
  | c :: rest, depth =>
    if c = '(' then openAfter? rest (depth + 1)
    else if c = ')' then
      if depth = 0 then none else openAfter? rest (depth - 1)
    else openAfter? rest depth

theorem openAfter?_opening (rest : List Char) (depth : Nat) :
    openAfter? ('(' :: rest) depth = openAfter? rest (depth + 1) := by
  rw [openAfter?, if_pos rfl]

theorem openAfter?_closing (rest : List Char) (depth : Nat) :
    openAfter? (')' :: rest) (depth + 1) = openAfter? rest depth := by
  rw [openAfter?, if_neg (by decide), if_pos rfl, if_neg (Nat.succ_ne_zero depth),
    Nat.add_sub_cancel]

theorem openAfter?_closing_zero (rest : List Char) : openAfter? (')' :: rest) 0 = none := by
  rw [openAfter?, if_neg (by decide), if_pos rfl, if_pos rfl]

theorem openAfter?_other {c : Char} (notOpening : c ≠ '(') (notClosing : c ≠ ')')
    (rest : List Char) (depth : Nat) : openAfter? (c :: rest) depth = openAfter? rest depth := by
  rw [openAfter?, if_neg notOpening, if_neg notClosing]

/-- The scan of two texts reads the second from where the first left off. -/
theorem openAfter?_append (first second : List Char) (depth : Nat) :
    openAfter? (first ++ second) depth = (openAfter? first depth).bind (openAfter? second) := by
  induction first generalizing depth with
  | nil => rfl
  | cons c rest inductionHypothesis =>
    rw [List.cons_append]
    by_cases opening : c = '('
    · subst opening
      rw [openAfter?_opening, openAfter?_opening, inductionHypothesis]
    by_cases closing : c = ')'
    · subst closing
      cases depth with
      | zero => rw [openAfter?_closing_zero, openAfter?_closing_zero, Option.bind_none]
      | succ depth => rw [openAfter?_closing, openAfter?_closing, inductionHypothesis]
    · rw [openAfter?_other opening closing, openAfter?_other opening closing, inductionHypothesis]

/-- A text without round brackets leaves the count as it was. -/
theorem openAfter?_of_roundFree {text : List Char} (noOpening : '(' ∉ text)
    (noClosing : ')' ∉ text) (depth : Nat) : openAfter? text depth = some depth := by
  induction text with
  | nil => rfl
  | cons c rest inductionHypothesis =>
    rw [List.mem_cons, not_or] at noOpening noClosing
    rw [openAfter?_other (Ne.symm noOpening.1) (Ne.symm noClosing.1),
      inductionHypothesis noOpening.2 noClosing.2]

/-- More brackets open before a text are still open after it. -/
theorem openAfter?_add {text : List Char} {depth after : Nat}
    (scanned : openAfter? text depth = some after) (more : Nat) :
    openAfter? text (depth + more) = some (after + more) := by
  induction text generalizing depth with
  | nil =>
    cases scanned
    rfl
  | cons c rest inductionHypothesis =>
    by_cases opening : c = '('
    · subst opening
      rw [openAfter?_opening] at scanned ⊢
      rw [Nat.add_right_comm]
      exact inductionHypothesis scanned
    by_cases closing : c = ')'
    · subst closing
      cases depth with
      | zero => rw [openAfter?_closing_zero] at scanned; cases scanned
      | succ depth =>
        rw [openAfter?_closing] at scanned
        rw [Nat.add_right_comm, openAfter?_closing]
        exact inductionHypothesis scanned
    · rw [openAfter?_other opening closing] at scanned ⊢
      exact inductionHypothesis scanned

/-- The scan in counts: it reaches the end exactly when no prefix closes more brackets than it
opens and the ones open before, and it ends with what the counts leave open. -/
theorem openAfter?_eq_some_iff (text : List Char) (depth after : Nat) :
    openAfter? text depth = some after ↔
      (∀ k, (text.take k).count ')' ≤ (text.take k).count '(' + depth) ∧
        text.count '(' + depth = text.count ')' + after := by
  induction text generalizing depth with
  | nil =>
    simp only [openAfter?, Option.some.injEq, List.take_nil, List.count_nil, Nat.zero_add]
    exact ⟨fun same => ⟨fun _ => Nat.zero_le _, same⟩, fun counted => counted.2⟩
  | cons c rest inductionHypothesis =>
    -- a prefix of the text is empty or the first character and a prefix of the rest
    have prefixes : ∀ P : Nat → Prop, (∀ k, P k) ↔ P 0 ∧ ∀ k, P (k + 1) :=
      fun P => ⟨fun all => ⟨all 0, fun k => all (k + 1)⟩, fun parts k => by
        cases k with
        | zero => exact parts.1
        | succ k => exact parts.2 k⟩
    rw [prefixes]
    simp only [List.take_zero, List.count_nil, Nat.zero_le, true_and, List.take_succ_cons]
    by_cases opening : c = '('
    · subst opening
      rw [openAfter?_opening, inductionHypothesis]
      simp only [List.count_cons_self, List.count_cons_of_ne (by decide : '(' ≠ ')')]
      -- one more open before the rest is the `(` counted in each prefix
      exact and_congr (forall_congr' fun k => by omega) (by omega)
    by_cases closing : c = ')'
    · subst closing
      simp only [List.count_cons_self, List.count_cons_of_ne (by decide : ')' ≠ '(')]
      cases depth with
      | zero =>
        rw [openAfter?_closing_zero]
        simp only [reduceCtorEq, false_iff, not_and]
        intro prefixesClose
        have := prefixesClose 0
        simp at this
      | succ depth =>
        rw [openAfter?_closing, inductionHypothesis]
        exact and_congr (forall_congr' fun k => by omega) (by omega)
    · rw [openAfter?_other opening closing, inductionHypothesis]
      simp only [List.count_cons_of_ne opening, List.count_cons_of_ne closing]

/-- Up steps count the `(` of a text and down steps its `)`. -/
theorem count_roundSteps (text : List Char) :
    (roundSteps text).count .U = text.count '(' ∧ (roundSteps text).count .D = text.count ')' := by
  induction text with
  | nil => exact ⟨rfl, rfl⟩
  | cons c rest inductionHypothesis =>
    unfold roundSteps at inductionHypothesis ⊢
    by_cases opening : c = '('
    · subst opening
      simp [roundStep?, inductionHypothesis]
    by_cases closing : c = ')'
    · subst closing
      simp [roundStep?, inductionHypothesis]
    · have none : roundStep? c = none := by
        unfold roundStep?
        split
        · exact absurd rfl opening
        · exact absurd rfl closing
        · rfl
      simp [none, List.count_cons_of_ne opening,
        List.count_cons_of_ne closing, inductionHypothesis]

/-- Every prefix of the steps is the steps of a prefix of the text. -/
theorem exists_take_roundSteps (text : List Char) (i : Nat) :
    ∃ k, (roundSteps text).take i = roundSteps (text.take k) := by
  induction text generalizing i with
  | nil => exact ⟨0, by simp [roundSteps]⟩
  | cons c rest inductionHypothesis =>
    unfold roundSteps at inductionHypothesis ⊢
    cases step : roundStep? c with
    | none =>
      obtain ⟨k, same⟩ := inductionHypothesis i
      exact ⟨k + 1, by simp [step, same]⟩
    | some s =>
      cases i with
      | zero => exact ⟨0, by simp⟩
      | succ i =>
        obtain ⟨k, same⟩ := inductionHypothesis i
        exact ⟨k + 1, by simp [step, same]⟩

/-- Balanced brackets in counts: no prefix closes more brackets than it opens, and the whole
text opens as many as it closes. -/
theorem roundBalanced_iff_counts (text : List Char) :
    RoundBalanced text ↔ text.count ')' = text.count '(' ∧
      ∀ k, (text.take k).count ')' ≤ (text.take k).count '(' := by
  constructor
  · rintro ⟨word, steps⟩
    refine ⟨?_, fun k => ?_⟩
    · rw [← (count_roundSteps text).1, ← (count_roundSteps text).2, ← steps,
        word.count_U_eq_count_D]
    · -- the steps of a prefix of the text are a prefix of the steps
      have isPrefix : roundSteps (text.take k) <+: roundSteps text :=
        (List.take_prefix k text).filterMap _
      have prefixCounts := word.count_D_le_count_U (roundSteps (text.take k)).length
      rw [steps, ← List.prefix_iff_eq_take.mp isPrefix] at prefixCounts
      rwa [(count_roundSteps _).1, (count_roundSteps _).2] at prefixCounts
  · rintro ⟨total, prefixesClose⟩
    refine ⟨⟨roundSteps text, ?_, fun i => ?_⟩, rfl⟩
    · rw [(count_roundSteps text).1, (count_roundSteps text).2, total]
    · obtain ⟨k, same⟩ := exists_take_roundSteps text i
      rw [same, (count_roundSteps _).1, (count_roundSteps _).2]
      exact prefixesClose k

/-- A text is balanced exactly when the scan from none open ends with none open. -/
theorem roundBalanced_iff_openAfter? (text : List Char) :
    RoundBalanced text ↔ openAfter? text 0 = some 0 := by
  rw [roundBalanced_iff_counts, openAfter?_eq_some_iff]
  simp only [Nat.add_zero]
  exact ⟨fun balanced => ⟨balanced.2, balanced.1.symm⟩,
    fun counted => ⟨counted.2.symm, counted.1⟩⟩

/-- As many `)` as `(` is not enough: the order counts. -/
example : ¬RoundBalanced "x)(".toList := by
  rw [roundBalanced_iff_openAfter?]
  decide

/-! ## The bracket that closes a group -/

/-- The search for the bracket that closes the first of `depth + 1` open ones stops at the first
`)` after a part that, read with `depth` open, leaves none open. -/
theorem closingOffset_eq_some {text : List Char} {depth pos found : Nat}
    (closes : closingOffset text (depth + 1) pos = some found) :
    ∃ inside rest, text = inside ++ ')' :: rest ∧ found = pos + inside.length ∧
      openAfter? inside depth = some 0 := by
  induction text generalizing depth pos with
  | nil => cases closes
  | cons c rest inductionHypothesis =>
    by_cases opening : c = '('
    · subst opening
      rw [closingOffset_opening] at closes
      obtain ⟨inside, after, rfl, rfl, scanned⟩ := inductionHypothesis closes
      refine ⟨'(' :: inside, after, rfl, ?_, by rw [openAfter?_opening]; exact scanned⟩
      simp only [List.length_cons]
      omega
    by_cases closing : c = ')'
    · subst closing
      cases depth with
      | zero =>
        rw [closingOffset_closing_last (by omega)] at closes
        cases closes
        exact ⟨[], rest, rfl, rfl, rfl⟩
      | succ depth =>
        rw [closingOffset_closing] at closes
        obtain ⟨inside, after, rfl, rfl, scanned⟩ := inductionHypothesis closes
        refine ⟨')' :: inside, after, rfl, ?_, by rw [openAfter?_closing]; exact scanned⟩
        simp only [List.length_cons]
        omega
    · rw [closingOffset_other opening closing] at closes
      obtain ⟨inside, after, rfl, rfl, scanned⟩ := inductionHypothesis closes
      refine ⟨c :: inside, after, rfl, ?_, by rw [openAfter?_other opening closing]; exact scanned⟩
      simp only [List.length_cons]
      omega

/-- A text whose reading brings `depth + 1` open brackets down to none holds the `)` that closes
the first of them. -/
theorem closingOffset_ne_none {text : List Char} {depth : Nat} (pos : Nat)
    (closed : openAfter? text (depth + 1) = some 0) : closingOffset text (depth + 1) pos ≠ none := by
  induction text generalizing depth pos with
  | nil => cases closed
  | cons c rest inductionHypothesis =>
    by_cases opening : c = '('
    · subst opening
      rw [openAfter?_opening] at closed
      rw [closingOffset_opening]
      exact inductionHypothesis (pos + 1) closed
    by_cases closing : c = ')'
    · subst closing
      cases depth with
      | zero =>
        rw [closingOffset_closing_last (by omega)]
        exact Option.some_ne_none pos
      | succ depth =>
        rw [openAfter?_closing] at closed
        rw [closingOffset_closing]
        exact inductionHypothesis (pos + 1) closed
    · rw [openAfter?_other opening closing] at closed
      rw [closingOffset_other opening closing]
      exact inductionHypothesis (pos + 1) closed

/-- A group found by the bracket pass: its `(`, a balanced inside, its `)` and the rest. -/
theorem exists_group {text : List Char} {opening offset : Nat}
    (isOpening : text[opening]? = some '(')
    (closes : closingOffset (text.drop opening) 0 0 = some offset) :
    ∃ inside rest, text.drop opening = '(' :: (inside ++ ')' :: rest) ∧
      offset = inside.length + 1 ∧ openAfter? inside 0 = some 0 := by
  have start : text.drop opening = '(' :: text.drop (opening + 1) :=
    drop_eq_cons_of_getElem? isOpening
  rw [start, closingOffset_opening] at closes
  obtain ⟨inside, rest, split, rfl, scanned⟩ := closingOffset_eq_some closes
  refine ⟨inside, rest, by rw [start, split], by omega, scanned⟩

/-! ## Trading a group for a placeholder -/

/-- Function names hold no round bracket. -/
theorem UnaryFn.roundFree_name (f : UnaryFn) : '(' ∉ f.name.toList ∧ ')' ∉ f.name.toList := by
  have checked : f.name.toList.all (fun c => c != '(' && c != ')') = true := by
    cases f <;> decide
  constructor <;> intro mem <;> simpa using List.all_eq_true.mp checked _ mem

/-- Placeholders hold no round bracket. -/
theorem roundFree_placeholderText (n : Nat) :
    '(' ∉ placeholderText n ∧ ')' ∉ placeholderText n := by
  constructor <;> intro mem <;> rcases mem_placeholderText mem with bar | underscore | digit <;>
    first | cases bar | cases underscore | cases digit

/-- The function name the bracket pass reads before a group holds no round bracket. -/
theorem roundFree_functionName (before : List Char) :
    let name := before.drop
      (before.length - ((UnaryFn.suffixOf? before).map (·.name.length)).getD 0)
    '(' ∉ name ∧ ')' ∉ name := by
  cases function : UnaryFn.suffixOf? before with
  | none =>
    simp only [Option.map_none, Option.getD_none, Nat.sub_zero, List.drop_length]
    exact ⟨List.not_mem_nil, List.not_mem_nil⟩
  | some f =>
    have suffix := UnaryFn.suffixOf?_suffix function
    simp only [Option.map_some, Option.getD_some]
    rw [← String.length_toList, ← List.suffix_iff_eq_drop.mp suffix]
    exact f.roundFree_name

/-- A balanced group leaves open what was open before it. -/
theorem openAfter?_group {inside : List Char} (balanced : openAfter? inside 0 = some 0)
    (rest : List Char) (depth : Nat) :
    openAfter? ('(' :: (inside ++ ')' :: rest)) depth = openAfter? rest depth := by
  have shifted : openAfter? inside (depth + 1) = some (depth + 1) := by
    simpa using openAfter?_add balanced (depth + 1)
  rw [openAfter?_opening, openAfter?_append, shifted, Option.bind_some, openAfter?_closing]

/-- Trading a group, with the function name before it, for a placeholder leaves the same
brackets open after the text. -/
theorem openAfter?_splice_group {text : List Char} {opening offset : Nat} (n depth : Nat)
    (isOpening : text[opening]? = some '(')
    (closes : closingOffset (text.drop opening) 0 0 = some offset) :
    openAfter? (Text.splice text
      (opening - ((UnaryFn.suffixOf? (text.take opening)).map (·.name.length)).getD 0)
      (opening + offset + 1) (placeholderText n)) depth = openAfter? text depth := by
  obtain ⟨inside, rest, group, rfl, balanced⟩ := exists_group isOpening closes
  have inText : opening ≤ text.length := (List.getElem?_eq_some_iff.mp isOpening).1.le
  have name := roundFree_functionName (text.take opening)
  rw [List.length_take_of_le inText] at name
  have before : opening - ((UnaryFn.suffixOf? (text.take opening)).map (·.name.length)).getD 0 ≤
      opening := Nat.sub_le _ _
  generalize opening - ((UnaryFn.suffixOf? (text.take opening)).map (·.name.length)).getD 0 =
    spanStart at name before ⊢
  -- the text is what stands before the name, the name, the group and the rest
  have whole : text = text.take spanStart ++ ((text.take opening).drop spanStart ++
      '(' :: (inside ++ ')' :: rest)) := calc
    text = text.take opening ++ text.drop opening := (List.take_append_drop _ _).symm
    _ = (text.take opening).take spanStart ++ (text.take opening).drop spanStart ++
        text.drop opening := by rw [List.take_append_drop spanStart (text.take opening)]
    _ = _ := by rw [List.take_take, Nat.min_eq_left before, group, List.append_assoc]
  have after : text.drop (opening + (inside.length + 1) + 1) = rest := by
    rw [show opening + (inside.length + 1) + 1 = opening + (inside.length + 2) by omega,
      ← List.drop_drop, group]
    simp
  rw [Text.splice, after, List.append_assoc, openAfter?_append]
  conv => rhs; rw [whole, openAfter?_append]
  congr 1
  funext open'
  -- the placeholder and the name leave the count alone, and so does the balanced group
  rw [openAfter?_append, openAfter?_of_roundFree (roundFree_placeholderText n).1
      (roundFree_placeholderText n).2, Option.bind_some, openAfter?_append,
    openAfter?_of_roundFree name.1 name.2, Option.bind_some, openAfter?_group balanced]

/-! ## The operator passes fail only on unparseable tokens -/

/-- A computation that, when it fails, reports an unparseable token. -/
def Resolve.FailsUnparseable {α : Type} (c : Resolve α) : Prop :=
  ∀ w e, c w = .error e → ∃ text, e = .unparseableToken text

namespace Resolve.FailsUnparseable

variable {α β : Type}

theorem pure (a : α) : (pure a : Resolve α).FailsUnparseable := fun _ _ ran => by cases ran

theorem unparseableToken (text : List Char) :
    (unparseable text : Resolve α).FailsUnparseable := fun _ _ ran => by
  cases ran
  exact ⟨_, rfl⟩

theorem modifyGet (f : Workspace → α × Workspace) :
    (MonadStateOf.modifyGet f : Resolve α).FailsUnparseable := fun _ _ ran => by cases ran

theorem bind {c : Resolve α} {f : α → Resolve β} (first : c.FailsUnparseable)
    (rest : ∀ a, (f a).FailsUnparseable) : (c >>= f).FailsUnparseable := by
  intro w e ran
  change (c w >>= fun r => f r.1 r.2) = .error e at ran
  cases ranFirst : c w with
  | error e' =>
    rw [ranFirst] at ran
    cases ran
    exact first w _ ranFirst
  | ok r =>
    rw [ranFirst] at ran
    exact rest r.1 r.2 e ran

theorem get_bind {f : Workspace → Resolve α} (rest : ∀ w, (f w).FailsUnparseable) :
    (get >>= f).FailsUnparseable :=
  bind (fun _ _ ran => by cases ran) rest

end Resolve.FailsUnparseable

section Unparseable

open Resolve.FailsUnparseable

variable (scope : Scope)

theorem takePlaceholder_failsUnparseable (key : List Char) :
    (takePlaceholder key).FailsUnparseable := by
  refine get_bind fun w => ?_
  split
  · exact bind (fun _ _ ran => by cases ran) fun _ => pure _
  · exact unparseableToken _

theorem entityNode_failsUnparseable (name : List Char) (entity : Entity) :
    (entityNode scope name entity).FailsUnparseable := by
  -- the constructors are the placeholder, a constant and a variable
  rcases entity with _ | _ | slot
  · exact takePlaceholder_failsUnparseable name
  · simp only [entityNode]
    split
    · exact pure _
    · exact unparseableToken _
  · exact modifyGet _

theorem resolveLeaf_failsUnparseable (text : List Char) :
    (resolveLeaf scope text).FailsUnparseable := by
  induction text using resolveLeaf.induct with
  | case1 =>
    rw [resolveLeaf, if_pos rfl]
    exact pure _
  | case2 =>
    rw [resolveLeaf, if_neg (by decide), if_pos rfl]
    exact pure _
  | case3 text notMinus notPlus value valued =>
    rw [resolveLeaf, if_neg notMinus, if_neg notPlus]
    simp only [valued]
    exact pure _
  | case4 text notMinus notPlus notValued afterHypothesis beforeHypothesis =>
    rw [resolveLeaf, if_neg notMinus, if_neg notPlus]
    simp only [notValued]
    refine get_bind fun w => ?_
    split
    · exact unparseableToken _
    · next span entity _ =>
      -- the entity, then the parts before and after it, each a shorter span
      refine bind (entityNode_failsUnparseable scope _ _) fun matched => ?_
      have afterPart : ∀ withBefore,
          (if (text.drop (span.start + span.length)).isEmpty then Pure.pure withBefore else do
            let right ← resolveLeaf scope (text.drop (span.start + span.length))
            Pure.pure (Tree.binary .mul withBefore right) : Resolve Tree).FailsUnparseable := by
        intro withBefore
        split
        · exact pure _
        · exact bind (afterHypothesis span) fun _ => pure _
      split
      · exact bind (pure _) afterPart
      · exact bind (beforeHypothesis span) fun _ => bind (pure _) afterPart

theorem resolveProduct_failsUnparseable (text : List Char) :
    (resolveProduct scope text).FailsUnparseable := by
  induction text using resolveProduct.induct with
  | case1 text idx found inductionHypothesis =>
    rw [resolveProduct_of_some found]
    exact bind (resolveLeaf_failsUnparseable scope _) fun _ =>
      bind inductionHypothesis fun _ => pure _
  | case2 text noneFound =>
    rw [resolveProduct_of_none noneFound]
    exact resolveLeaf_failsUnparseable scope text

theorem resolveSum_failsUnparseable (text : List Char) :
    (resolveSum scope text).FailsUnparseable := by
  induction text using resolveSum.induct with
  | case1 text idx found inductionHypothesis =>
    rw [resolveSum_of_some found]
    exact bind inductionHypothesis fun _ =>
      bind (resolveProduct_failsUnparseable scope _) fun _ => pure _
  | case2 text noneFound =>
    rw [resolveSum_of_none noneFound]
    exact resolveProduct_failsUnparseable scope text

theorem resolvePowers_failsUnparseable (text : List Char) :
    (resolvePowers scope text).FailsUnparseable := by
  induction text using resolvePowers.induct with
  | case1 text noneFound =>
    rw [resolvePowers_of_none noneFound]
    exact pure _
  | case2 text pos found inductionHypothesis =>
    rw [resolvePowers_of_some found]
    refine get_bind fun w => ?_
    split
    · exact unparseableToken _
    · exact unparseableToken _
    · exact bind (resolveLeaf_failsUnparseable scope _) fun _ =>
        bind (resolveLeaf_failsUnparseable scope _) fun _ =>
          bind (modifyGet _) fun _ => inductionHypothesis _ _ _

theorem resolveOperators_failsUnparseable (text : List Char) :
    (resolveOperators scope text).FailsUnparseable := by
  unfold resolveOperators
  split
  · split
    · exact unparseableToken _
    · exact bind (resolvePowers_failsUnparseable scope text) (resolveSum_failsUnparseable scope)
  · exact unparseableToken _

end Unparseable

/-! ## Unbalanced brackets are reported exactly -/

/-- Text before the first `(` that leaves some count of open brackets leaves none: it opens
none, and a `)` in it closes none. -/
theorem openAfter?_eq_zero_of_opening_free {text : List Char} {after : Nat}
    (noOpening : '(' ∉ text) (scanned : openAfter? text 0 = some after) : after = 0 := by
  have counted := ((openAfter?_eq_some_iff text 0 after).mp scanned).2
  rw [List.count_eq_zero.mpr noOpening] at counted
  omega

/-- The text before the first `(` holds none. -/
theorem opening_not_mem_take {text : List Char} {opening : Nat}
    (found : text.findIdx? (· == '(') = some opening) : '(' ∉ text.take opening := by
  intro mem
  obtain ⟨j, below, atJ⟩ := List.getElem_of_mem mem
  rw [List.length_take] at below
  obtain ⟨inside, -, earlier⟩ := List.findIdx?_eq_some_iff_getElem.mp found
  have notOpening := earlier j (by omega)
  rw [List.getElem_take] at atJ
  simp [atJ] at notOpening

/-- In a balanced text, the first `(` has a `)` that closes it. -/
theorem closingOffset_ne_none_of_balanced {text : List Char} {opening : Nat}
    (found : text.findIdx? (· == '(') = some opening) (balanced : openAfter? text 0 = some 0) :
    closingOffset (text.drop opening) 0 0 ≠ none := by
  have isOpening := getElem?_of_findIdx?_opening found
  have start : text.drop opening = '(' :: text.drop (opening + 1) :=
    drop_eq_cons_of_getElem? isOpening
  -- the text before the `(` leaves none open, so the rest closes the one it opens
  rw [← List.take_append_drop opening text, openAfter?_append] at balanced
  cases before : openAfter? (text.take opening) 0 with
  | none => rw [before, Option.bind_none] at balanced; cases balanced
  | some d =>
    rw [openAfter?_eq_zero_of_opening_free (opening_not_mem_take found) before] at before
    rw [before, Option.bind_some, start, openAfter?_opening] at balanced
    rw [start, closingOffset_opening]
    exact closingOffset_ne_none 1 balanced

/-- Text without `(` and `)` is balanced. -/
theorem openAfter?_of_none {text : List Char} (noneFound : text.findIdx? (· == '(') = none)
    (notClosing : ¬text.contains ')' = true) : openAfter? text 0 = some 0 := by
  refine openAfter?_of_roundFree (fun mem => ?_) (fun mem => notClosing ?_) 0
  · simpa using List.findIdx?_eq_none_iff.mp noneFound '(' mem
  · simpa using mem

section Reported

variable (scope : Scope)

/-- On a balanced text the resolver never reports unbalanced brackets. -/
theorem resolveExpression_ne_unbalanced (text : List Char) :
    openAfter? text 0 = some 0 → ∀ w message,
      resolveExpression scope text w ≠ .error (.unbalancedBrackets message) := by
  induction text using resolveExpression.induct with
  | case1 text opening found unclosed =>
    intro balanced
    exact absurd unclosed (closingOffset_ne_none_of_balanced found balanced)
  | case2 text opening found offset closes closing function =>
    rename_i spanStart innerHypothesis restHypothesis
    intro balanced w message ran
    have isOpening := getElem?_of_findIdx?_opening found
    -- the inside of the group is balanced, and so is the text after the trade
    obtain ⟨inside, rest, group, rfl, insideBalanced⟩ := exists_group isOpening closes
    have interior : (text.drop (opening + 1)).take (opening + (inside.length + 1) - opening - 1) =
        inside := by
      rw [← List.drop_drop, group, show opening + (inside.length + 1) - opening - 1 =
        inside.length by omega]
      simp
    rw [resolveExpression_of_group found closes] at ran
    change (resolveExpression scope _ w >>= fun r => _) = _ at ran
    cases innerRun : resolveExpression scope
        ((text.drop (opening + 1)).take (opening + (inside.length + 1) - opening - 1)) w with
    | error e =>
      rw [innerRun] at ran
      cases ran
      exact innerHypothesis (by rw [interior]; exact insideBalanced) w message innerRun
    | ok r =>
      rw [innerRun] at ran
      exact restHypothesis _ (by rw [openAfter?_splice_group _ 0 isOpening closes]; exact balanced)
        _ message ran
  | case3 text noneFound closing =>
    intro balanced w message ran
    -- without `(`, a balanced text has no `)` either
    have counted := ((openAfter?_eq_some_iff text 0 0).mp balanced).2
    rw [List.count_eq_zero.mpr fun mem => by
      simpa using List.findIdx?_eq_none_iff.mp noneFound '(' mem] at counted
    have noClosing : text.count ')' = 0 := by omega
    exact List.count_eq_zero.mp noClosing (by simpa using closing)
  | case4 text noneFound notClosing operators =>
    intro _ w message ran
    rw [resolveExpression_of_none noneFound, if_neg notClosing, if_pos operators] at ran
    obtain ⟨_, reported⟩ := resolveOperators_failsUnparseable scope text w _ ran
    cases reported
  | case5 text noneFound notClosing noOperators =>
    intro _ w message ran
    rw [resolveExpression_of_none noneFound, if_neg notClosing, if_neg noOperators] at ran
    obtain ⟨_, reported⟩ := resolveLeaf_failsUnparseable scope text w _ ran
    cases reported

/-- On an unbalanced text the resolver never succeeds. -/
theorem resolveExpression_ne_ok (text : List Char) :
    openAfter? text 0 ≠ some 0 → ∀ w r, resolveExpression scope text w ≠ .ok r := by
  induction text using resolveExpression.induct with
  | case1 text opening found unclosed =>
    intro _ w r ran
    rw [resolveExpression_of_unclosed found unclosed] at ran
    cases ran
  | case2 text opening found offset closes closing function =>
    rename_i spanStart innerHypothesis restHypothesis
    intro unbalanced w r ran
    have isOpening := getElem?_of_findIdx?_opening found
    rw [resolveExpression_of_group found closes] at ran
    obtain ⟨inner, w₁, -, ran⟩ := Resolve.bind_eq_ok.mp ran
    rw [Resolve.bind_of_ok (mint_apply _ w₁)] at ran
    -- the text after the trade is as unbalanced
    exact restHypothesis _ (by rw [openAfter?_splice_group _ 0 isOpening closes]; exact unbalanced)
      _ _ ran
  | case3 text noneFound closing =>
    intro _ w r ran
    rw [resolveExpression_of_none noneFound, if_pos closing] at ran
    cases ran
  | case4 text noneFound notClosing operators =>
    intro unbalanced
    exact absurd (openAfter?_of_none noneFound notClosing) unbalanced
  | case5 text noneFound notClosing noOperators =>
    intro unbalanced
    exact absurd (openAfter?_of_none noneFound notClosing) unbalanced

/-- Unbalanced brackets are reported exactly for unbalanced texts: on a text whose round
brackets form a Dyck word the resolver never reports unbalanced brackets, from any workspace,
so at no depth of its recursion; on any other text it never succeeds. -/
theorem resolveExpression_reports_unbalanced (text : List Char) :
    (RoundBalanced text → ∀ w message,
      resolveExpression scope text w ≠ .error (.unbalancedBrackets message)) ∧
    (¬RoundBalanced text → ∀ w r, resolveExpression scope text w ≠ .ok r) := by
  rw [roundBalanced_iff_openAfter?]
  exact ⟨resolveExpression_ne_unbalanced scope text, resolveExpression_ne_ok scope text⟩

end Reported

end ComplexFormula
