import ComplexFormula.Proofs.Trading
import ComplexFormula.Proofs.Brackets

/-!
# A group in brackets is one operand

A group in round brackets is resolved first, its inside as an expression of its own, and the
whole is traded for a placeholder that every later scan reads as one bar. So a group whose
inside resolves, from any state, like another inside (`inner`) can stand for it: texts that
differ only there are resolved alike (`resolveExpression_regrouped`). The proof follows the
bracket pass along the groups before the two, by induction on their opening brackets: a group
that closes before them is traded inside the text around them (`regrouped_of_closed_before`),
a group that closes after them holds them in its inside (`regrouped_of_open`), and once they
are the first group their insides are resolved and traded, leaving renumbered texts
(`regrouped_of_first`, then `resolveExpression_renumbered`).

Compiling text around a group in brackets normalizes the inside as it would alone when every
bracket glyph is one character other than a round bracket (`normalize_group`): then an
expression that compiles to a tree equal up to leaf numbers to another can stand for it in
brackets in any text (`compile_group_substitutes`). A glyph of two characters breaks this: a
bracket written around an expression may form the glyph with one of its own brackets
(`compile_double_glyph_breaks_group`).
-/

namespace ComplexFormula

open Piece

/-! ## The closing bracket past a balanced group -/

/-- A search that finds its bracket in a text finds it in any longer text. -/
theorem closingOffset_append_of_some {xs : List Char} {depth pos found : Nat}
    (closes : closingOffset xs depth pos = some found) (ys : List Char) :
    closingOffset (xs ++ ys) depth pos = some found := by
  induction xs generalizing depth pos with
  | nil => cases closes
  | cons c rest inductionHypothesis =>
    rw [List.cons_append]
    by_cases opening : c = '('
    · subst opening
      rw [closingOffset_opening] at closes ⊢
      exact inductionHypothesis closes
    by_cases closing : c = ')'
    · subst closing
      by_cases shallow : depth ≤ 1
      · rw [closingOffset_closing_last shallow] at closes ⊢
        exact closes
      · obtain ⟨d, rfl⟩ : ∃ d, depth = d + 1 + 1 := ⟨depth - 2, by omega⟩
        rw [closingOffset_closing] at closes ⊢
        exact inductionHypothesis closes
    · rw [closingOffset_other opening closing] at closes ⊢
      exact inductionHypothesis closes

/-- A search past a text it finds no bracket in goes on with the brackets the text leaves
open. -/
theorem closingOffset_append_of_open {xs : List Char} {depth after : Nat}
    (scanned : openAfter? xs depth = some after) (ys : List Char) (pos : Nat) :
    closingOffset (xs ++ ys) (depth + 1) pos = closingOffset ys (after + 1) (pos + xs.length) := by
  induction xs generalizing depth pos with
  | nil =>
    cases scanned
    rfl
  | cons c rest inductionHypothesis =>
    rw [List.cons_append, List.length_cons,
      show pos + (rest.length + 1) = pos + 1 + rest.length by omega]
    by_cases opening : c = '('
    · subst opening
      rw [openAfter?_opening] at scanned
      rw [closingOffset_opening, inductionHypothesis scanned]
    by_cases closing : c = ')'
    · subst closing
      cases depth with
      | zero =>
        rw [openAfter?_closing_zero] at scanned
        cases scanned
      | succ depth =>
        rw [openAfter?_closing] at scanned
        rw [closingOffset_closing, inductionHypothesis scanned]
    · rw [openAfter?_other opening closing] at scanned
      rw [closingOffset_other opening closing, inductionHypothesis scanned]

/-- A search that finds no bracket in a text reads it through: no `)` closes more brackets
than were open. -/
theorem openAfter?_of_closingOffset_none {xs : List Char} {depth pos : Nat}
    (unclosed : closingOffset xs (depth + 1) pos = none) :
    ∃ after, openAfter? xs depth = some after := by
  induction xs generalizing depth pos with
  | nil => exact ⟨depth, rfl⟩
  | cons c rest inductionHypothesis =>
    by_cases opening : c = '('
    · subst opening
      rw [closingOffset_opening] at unclosed
      rw [openAfter?_opening]
      exact inductionHypothesis unclosed
    by_cases closing : c = ')'
    · subst closing
      cases depth with
      | zero =>
        rw [closingOffset_closing_last (by omega)] at unclosed
        cases unclosed
      | succ depth =>
        rw [closingOffset_closing] at unclosed
        rw [openAfter?_closing]
        exact inductionHypothesis unclosed
    · rw [closingOffset_other opening closing] at unclosed
      rw [openAfter?_other opening closing]
      exact inductionHypothesis unclosed

/-- A group in round brackets, from its opening bracket: its inside, balanced, moves the search
on to its closing bracket, which closes it. -/
theorem closingOffset_bracketed {G : List Char} (balanced : openAfter? G 0 = some 0)
    (ys : List Char) : closingOffset ('(' :: (G ++ ')' :: ys)) 0 0 = some (G.length + 1) := by
  rw [closingOffset_opening, closingOffset_append_of_open balanced,
    closingOffset_closing_last (Nat.le_refl 1), Nat.add_comm]

/-- Text whose brackets balance from depth zero is balanced inside any bracket. -/
theorem Balanced.of_openAfter? {G : List Char} (balanced : openAfter? G 0 = some 0) :
    Balanced G := by
  intro depth pos rest
  have shifted : openAfter? G depth = some depth := by
    simpa using openAfter?_add balanced depth
  exact closingOffset_append_of_open shifted rest pos

/-- A search that reads a text through and then a balanced group goes on after the group with
the brackets the text left open. -/
theorem closingOffset_past_bracketed {R G : List Char} {after : Nat}
    (scanned : openAfter? R 0 = some after) (balanced : openAfter? G 0 = some 0)
    (ys : List Char) (pos : Nat) :
    closingOffset (R ++ '(' :: (G ++ ')' :: ys)) 1 pos =
      (closingOffset ys (after + 1) 0).map (· + (pos + R.length + G.length + 2)) := by
  have shifted : openAfter? G (after + 1) = some (after + 1) := by
    simpa using openAfter?_add balanced (after + 1)
  rw [closingOffset_append_of_open scanned, closingOffset_opening,
    closingOffset_append_of_open shifted, closingOffset_closing,
    show pos + R.length + 1 + G.length + 1 = 0 + (pos + R.length + G.length + 2) by omega,
    closingOffset_shift]

namespace Piece

/-- A text in round brackets, as pieces. -/
def bracketed (G : List Char) : List Piece := char '(' :: (G.map char ++ [char ')'])

@[simp] theorem length_bracketed (G : List Char) : (bracketed G).length = G.length + 2 := by
  simp [bracketed]

@[simp] theorem shape_bracketed (G : List Char) : shape (bracketed G) = '(' :: (G ++ [')']) := by
  simp [bracketed]

@[simp] theorem join_bracketed (G : List Char) : join (bracketed G) = '(' :: (G ++ [')']) := by
  simp [bracketed]

@[simp] theorem numbers_bracketed (G : List Char) : numbers (bracketed G) = [] := by
  simp [bracketed]

/-- The pieces after a group in brackets. -/
theorem drop_past_bracketed (F B : List Piece) (G : List Char) (m : Nat) :
    (F ++ bracketed G ++ B).drop (F.length + (G.length + 2) + m) = B.drop m := by
  rw [show F.length + (G.length + 2) + m = (F ++ bracketed G).length + m by simp,
    List.drop_length_add_append]

/-- The pieces before a group in brackets. -/
theorem take_bracketed {F : List Piece} {i : Nat} (inside : i ≤ F.length) (G : List Char)
    (B : List Piece) : (F ++ bracketed G ++ B).take i = (F ++ B).take i := by
  rw [List.take_append_of_le_length (by simp; omega), List.take_append_of_le_length inside,
    List.take_append_of_le_length inside]

/-- The pieces of a stretch before a group in brackets. -/
theorem stretch_before_bracketed {F : List Piece} {i m : Nat} (inside : i + m ≤ F.length)
    (G : List Char) (B : List Piece) :
    ((F ++ bracketed G ++ B).drop i).take m = ((F ++ B).drop i).take m := by
  rw [List.drop_append_of_le_length (by simp; omega), List.drop_append_of_le_length (by omega),
    List.drop_append_of_le_length (by omega), List.take_append_of_le_length (by simp; omega),
    List.take_append_of_le_length (by simp; omega), List.take_append_of_le_length (by simp; omega)]

/-- The pieces inside a group in brackets. -/
theorem inside_bracketed (F : List Piece) (G : List Char) (B : List Piece) :
    ((F ++ bracketed G ++ B).drop (F.length + 1)).take (G.length + 1 - 1) = G.map char := by
  rw [Nat.add_sub_cancel, List.drop_append_of_le_length (by simp), List.drop_length_add_append,
    show (bracketed G).drop 1 = G.map char ++ [char ')'] from rfl,
    List.take_append_of_le_length (by simp), List.take_left' (List.length_map _)]

/-- The pieces after a group in brackets are those after the text before it. -/
theorem after_bracketed (F : List Piece) (G : List Char) (B : List Piece) :
    (F ++ bracketed G ++ B).drop (F.length + (G.length + 1) + 1) = (F ++ B).drop F.length := by
  rw [List.drop_left, show F.length + (G.length + 1) + 1 = F.length + (G.length + 2) + 0 by omega,
    drop_past_bracketed, List.drop_zero]

/-- The pieces from inside the text before a group up to some pieces after it. -/
theorem take_drop_bracketed {F B : List Piece} {i : Nat} (inside : i ≤ F.length) (G : List Char)
    (m : Nat) :
    ((F ++ bracketed G ++ B).drop i).take (F.length - i + (G.length + 2) + m) =
      F.drop i ++ bracketed G ++ B.take m := by
  rw [List.drop_append_of_le_length (by simp; omega), List.drop_append_of_le_length inside,
    show F.length - i + (G.length + 2) + m = (F.drop i ++ bracketed G).length + m by simp,
    List.take_length_add_append]

/-- The placeholders of the end of the pieces before a stretch and of the start of those after
it are among those of a stretch that covers both. -/
theorem numbers_parts_subset (F B : List Piece) {a i m : Nat} (before : a ≤ i)
    (inside : i ≤ F.length) :
    numbers (F.drop i ++ B.take m) ⊆ numbers (((F ++ B).drop a).take (F.length + (m + 1) - a)) := by
  rw [List.drop_append_of_le_length (by omega),
    show F.length + (m + 1) - a = (F.drop a).length + (m + 1) by simp; omega,
    List.take_length_add_append]
  exact (((List.drop_sublist_drop_left F before).append
    (List.take_sublist_take_left (Nat.le_succ m))).filterMap _).subset

/-- The shape of texts around a group in brackets. -/
theorem shape_around_bracketed (F B : List Piece) (G : List Char) :
    shape (F ++ bracketed G ++ B) = shape F ++ '(' :: (G ++ ')' :: shape B) := by
  simp

/-- With no opening bracket before it, the first opening bracket is the group's. -/
theorem findIdx?_bracketed_of_none {F : List Piece} (none : (shape F).findIdx? (· == '(') = none)
    (G : List Char) (B : List Piece) :
    (shape (F ++ bracketed G ++ B)).findIdx? (· == '(') = some F.length := by
  rw [shape_around_bracketed, List.findIdx?_append, none, Option.none_or, List.findIdx?_cons]
  simp

/-- An opening bracket before a group is the first of the whole text. -/
theorem findIdx?_bracketed_of_some {F : List Piece} {k : Nat}
    (first : (shape F).findIdx? (· == '(') = some k) (G : List Char) (B : List Piece) :
    (shape (F ++ bracketed G ++ B)).findIdx? (· == '(') = some k := by
  rw [shape_around_bracketed, List.findIdx?_append, first, Option.some_or]

/-- The pieces from one before a group in brackets on. -/
theorem drop_before_bracketed {F : List Piece} {i : Nat} (inside : i ≤ F.length) (G : List Char)
    (B : List Piece) : (F ++ bracketed G ++ B).drop i = F.drop i ++ bracketed G ++ B := by
  rw [List.drop_append_of_le_length (by simp; omega), List.drop_append_of_le_length inside]

/-- A balanced group closes at its own closing bracket. -/
theorem closingOffset_at_bracketed (F B : List Piece) {G : List Char}
    (balanced : openAfter? G 0 = some 0) :
    closingOffset (shape ((F ++ bracketed G ++ B).drop F.length)) 0 0 = some (G.length + 1) := by
  rw [drop_before_bracketed (Nat.le_refl _), List.drop_length, shape_around_bracketed, shape_nil,
    List.nil_append]
  exact closingOffset_bracketed balanced _

/-- A group that closes before a group in brackets closes there in the whole text. -/
theorem closingOffset_before_bracketed {F : List Piece} {k c : Nat} (inside : k ≤ F.length)
    (closing : closingOffset (shape (F.drop k)) 0 0 = some c) (G : List Char) (B : List Piece) :
    closingOffset (shape ((F ++ bracketed G ++ B).drop k)) 0 0 = some c := by
  rw [drop_before_bracketed inside, shape_around_bracketed]
  exact closingOffset_append_of_some closing _

/-- A group still open at a balanced group in brackets closes, if at all, in the pieces after
it, with the brackets it left open. -/
theorem closingOffset_around_bracketed {F : List Piece} {k d : Nat}
    (atK : F[k]? = some (char '(')) (scanned : openAfter? (shape (F.drop (k + 1))) 0 = some d)
    {G : List Char} (balanced : openAfter? G 0 = some 0) (B : List Piece) :
    closingOffset (shape ((F ++ bracketed G ++ B).drop k)) 0 0 =
      (closingOffset (shape B) (d + 1) 0).map (· + (1 + (F.length - (k + 1)) + G.length + 2)) := by
  rw [drop_before_bracketed (List.getElem?_eq_some_iff.mp atK).1.le, shape_around_bracketed,
    drop_eq_cons_of_getElem? atK, shape_cons, glyph_char, List.cons_append, closingOffset_opening,
    closingOffset_past_bracketed scanned balanced, length_shape,
    List.length_drop]

end Piece

/-- Two texts renumbered around a stretch: each part is renumbered. -/
theorem Renumbered.split {scope : Scope} {F₁ B₁ F₂ B₂ : List Piece} {w₁ w₂ : Workspace}
    (around : Renumbered scope (F₁ ++ B₁) w₁ (F₂ ++ B₂) w₂) (lengths : F₁.length = F₂.length) :
    Renumbered scope F₁ w₁ F₂ w₂ ∧ Renumbered scope B₁ w₁ B₂ w₂ := by
  have front := around.take F₁.length
  have back := around.drop F₁.length
  rw [List.take_left, lengths, List.take_left] at front
  rw [List.drop_left, lengths, List.drop_left] at back
  exact ⟨front, back⟩

/-- The end of the first part and the start of the second part of texts renumbered around a
stretch are renumbered. -/
theorem Renumbered.parts {scope : Scope} {F₁ B₁ F₂ B₂ : List Piece} {w₁ w₂ : Workspace}
    (around : Renumbered scope (F₁ ++ B₁) w₁ (F₂ ++ B₂) w₂) (lengths : F₁.length = F₂.length)
    (i j : Nat) : Renumbered scope (F₁.drop i ++ B₁.take j) w₁ (F₂.drop i ++ B₂.take j) w₂ where
  alike := List.rel_append ((around.split lengths).1.drop i).alike
    ((around.split lengths).2.take j).alike
  distinct₁ := (((List.drop_sublist i F₁).append (List.take_sublist j B₁)).filterMap _).nodup
    around.distinct₁
  distinct₂ := (((List.drop_sublist i F₂).append (List.take_sublist j B₂)).filterMap _).nodup
    around.distinct₂
  sound₁ := around.sound₁
  sound₂ := around.sound₂

/-- Texts with groups in brackets between some pieces are resolved alike from any states in which
the pieces around the groups are renumbered. -/
def Regrouped (scope : Scope) (G₁ G₂ : List Char) (F₁ B₁ F₂ B₂ : List Piece) : Prop :=
  ∀ w₁ w₂ : Workspace, Renumbered scope (F₁ ++ B₁) w₁ (F₂ ++ B₂) w₂ →
    RunsAlike (Settled scope w₁ (numbers (F₁ ++ B₁)) w₂ (numbers (F₂ ++ B₂)))
      (resolveExpression scope (join (F₁ ++ bracketed G₁ ++ B₁)) w₁)
      (resolveExpression scope (join (F₂ ++ bracketed G₂ ++ B₂)) w₂)

section Regrouping

variable {scope : Scope} (wf : scope.WellFormed) {G₁ G₂ : List Char}
  (balanced₁ : openAfter? G₁ 0 = some 0) (balanced₂ : openAfter? G₂ 0 = some 0)
  (inner : ∀ v₁ v₂ : Workspace, v₁.Sound scope → v₂.Sound scope →
    RunsAlike (Settled scope v₁ [] v₂ []) (resolveExpression scope G₁ v₁)
      (resolveExpression scope G₂ v₂))
  {F₁ B₁ F₂ B₂ : List Piece} (lengths : F₁.length = F₂.length)

include wf balanced₁ balanced₂ inner lengths in
/-- With no opening bracket before them, the groups are the first: their insides are resolved
alike and traded, leaving renumbered texts. -/
theorem regrouped_of_first (first : (shape F₁).findIdx? (· == '(') = none) :
    Regrouped scope G₁ G₂ F₁ B₁ F₂ B₂ := by
  intro w₁ w₂ around
  have front := (around.split lengths).1
  have first₂ : (shape F₂).findIdx? (· == '(') = none := by rw [← front.shape_eq]; exact first
  rw [resolveExpression_join_group scope (findIdx?_bracketed_of_none first G₁ B₁)
      (closingOffset_at_bracketed F₁ B₁ balanced₁),
    resolveExpression_join_group scope (findIdx?_bracketed_of_none first₂ G₂ B₂)
      (closingOffset_at_bracketed F₂ B₂ balanced₂),
    take_bracketed (Nat.le_refl _), take_bracketed (Nat.le_refl _), List.take_left,
    List.take_left, ← front.shape_eq, inside_bracketed, inside_bracketed, join_map_char,
    join_map_char, after_bracketed, after_bracketed]
  obtain ⟨L, named⟩ : ∃ L, ((UnaryFn.suffixOf? (shape F₁)).map (·.name.length)).getD 0 = L :=
    ⟨_, rfl⟩
  rw [named, take_bracketed (Nat.sub_le _ _), take_bracketed (Nat.sub_le _ _), ← lengths]
  exact trade_group_alike wf around (Nat.sub_le F₁.length L) _
    (inner w₁ w₂ around.sound₁ around.sound₂) (List.nil_subset _) (List.nil_subset _)
    fun v₁ v₂ t₁ t₂ spliced => resolveExpression_renumbered wf spliced

variable (smaller : ∀ F₁' B₁' F₂' B₂' : List Piece, (shape F₁').count '(' < (shape F₁).count '(' →
  F₁'.length = F₂'.length → Regrouped scope G₁ G₂ F₁' B₁' F₂' B₂')

include wf lengths smaller in
/-- A group that opens and closes before the groups in brackets is resolved and traded inside
the pieces before them, which are left with fewer opening brackets. -/
theorem regrouped_of_closed_before {k c : Nat} (found : (shape F₁).findIdx? (· == '(') = some k)
    (closes : closingOffset (shape (F₁.drop k)) 0 0 = some c) :
    Regrouped scope G₁ G₂ F₁ B₁ F₂ B₂ := by
  intro w₁ w₂ around
  obtain ⟨front, back⟩ := around.split lengths
  obtain ⟨insideF, shapeOpening⟩ := getElem?_of_findIdx? found
  have insideF₂ : k < F₂.length := lengths ▸ insideF
  have found₂ : (shape F₂).findIdx? (· == '(') = some k := by rw [← front.shape_eq]; exact found
  have closes₂ : closingOffset (shape (F₂.drop k)) 0 0 = some c := by
    rw [← (front.drop k).shape_eq]
    exact closes
  obtain ⟨positive, shapeClosing⟩ := closingOffset_group shapeOpening
    (by rw [shape, ← List.map_drop]; exact closes)
  have within : k + c < F₁.length := by
    simpa using (List.getElem?_eq_some_iff.mp shapeClosing).1
  rw [resolveExpression_join_group scope (findIdx?_bracketed_of_some found G₁ B₁)
      (closingOffset_before_bracketed insideF.le closes G₁ B₁),
    resolveExpression_join_group scope (findIdx?_bracketed_of_some found₂ G₂ B₂)
      (closingOffset_before_bracketed insideF₂.le closes₂ G₂ B₂),
    take_bracketed insideF.le, take_bracketed insideF₂.le, ← (around.take k).shape_eq,
    stretch_before_bracketed (show k + 1 + (c - 1) ≤ F₁.length by omega),
    stretch_before_bracketed (show k + 1 + (c - 1) ≤ F₂.length by omega),
    drop_before_bracketed (show k + c + 1 ≤ F₁.length by omega),
    drop_before_bracketed (show k + c + 1 ≤ F₂.length by omega)]
  obtain ⟨L, named⟩ :
      ∃ L, ((UnaryFn.suffixOf? (shape ((F₁ ++ B₁).take k))).map (·.name.length)).getD 0 = L :=
    ⟨_, rfl⟩
  rw [named, take_bracketed (show k - L ≤ F₁.length by omega),
    take_bracketed (show k - L ≤ F₂.length by omega)]
  refine trade_group_alike wf around (show k - L ≤ k + c + 1 by omega) _
    (resolveExpression_renumbered wf ((around.drop (k + 1)).take (c - 1)))
    (numbers_stretch_subset (F₁ ++ B₁) (show k - L ≤ k + 1 by omega) (by omega))
    (numbers_stretch_subset (F₂ ++ B₂) (show k - L ≤ k + 1 by omega) (by omega))
    fun v₁ v₂ t₁ t₂ spliced => ?_
  -- the traded group is now a placeholder among the pieces before the groups in brackets
  rw [List.drop_append_of_le_length (show k + c + 1 ≤ F₁.length by omega),
    List.drop_append_of_le_length (show k + c + 1 ≤ F₂.length by omega)] at spliced ⊢
  have fewer : (shape ((F₁ ++ B₁).take (k - L) ++
      held (v₁.minted + 1) :: F₁.drop (k + c + 1))).count '(' < (shape F₁).count '(' := by
    rw [List.take_append_of_le_length (show k - L ≤ F₁.length by omega)]
    exact count_shape_splice_lt (by omega) (by omega) shapeOpening (by decide) _
  have lengths' : ((F₁ ++ B₁).take (k - L) ++ held (v₁.minted + 1) :: F₁.drop (k + c + 1)).length =
      ((F₂ ++ B₂).take (k - L) ++ held (v₂.minted + 1) :: F₂.drop (k + c + 1)).length := by
    simp [lengths, back.length_eq]
  have next := smaller _ B₁ _ B₂ fewer lengths' _ _
    (by simpa only [List.append_assoc, List.cons_append] using spliced)
  simpa only [List.append_assoc, List.cons_append] using next

include wf balanced₁ balanced₂ lengths smaller in
/-- A group that opens before the groups in brackets and is still open after them holds them:
its inside has fewer opening brackets before them, and once it is resolved and traded the texts
are renumbered. -/
theorem regrouped_of_open {k : Nat} (found : (shape F₁).findIdx? (· == '(') = some k)
    (unclosed : closingOffset (shape (F₁.drop k)) 0 0 = none) :
    Regrouped scope G₁ G₂ F₁ B₁ F₂ B₂ := by
  intro w₁ w₂ around
  obtain ⟨front, back⟩ := around.split lengths
  obtain ⟨insideF, shapeOpening⟩ := getElem?_of_findIdx? found
  have insideF₂ : k < F₂.length := lengths ▸ insideF
  have found₂ : (shape F₂).findIdx? (· == '(') = some k := by rw [← front.shape_eq]; exact found
  have atK₁ := getElem?_of_shape shapeOpening (by decide)
  have atK₂ := getElem?_of_shape (by rw [← front.shape_eq]; exact shapeOpening) (by decide)
  rw [drop_eq_cons_of_getElem? atK₁, shape_cons, glyph_char, closingOffset_opening] at unclosed
  obtain ⟨d, scanned₁⟩ := openAfter?_of_closingOffset_none unclosed
  have scanned₂ : openAfter? (shape (F₂.drop (k + 1))) 0 = some d := by
    rw [← (front.drop (k + 1)).shape_eq]
    exact scanned₁
  have closes₁ := closingOffset_around_bracketed atK₁ scanned₁ balanced₁ B₁
  have closes₂ := closingOffset_around_bracketed atK₂ scanned₂ balanced₂ B₂
  rw [← back.shape_eq] at closes₂
  cases closesB : closingOffset (shape B₁) (d + 1) 0 with
  | none =>
    -- it never closes: both texts fail
    rw [closesB, Option.map_none] at closes₁ closes₂
    obtain ⟨e₁, failed₁⟩ := resolveExpression_join_unclosed scope
      (findIdx?_bracketed_of_some found G₁ B₁) closes₁ w₁
    obtain ⟨e₂, failed₂⟩ := resolveExpression_join_unclosed scope
      (findIdx?_bracketed_of_some found₂ G₂ B₂) closes₂ w₂
    rw [failed₁, failed₂]
    exact trivial
  | some m =>
    -- it closes in the pieces after them, at the same place in both texts
    rw [closesB, Option.map_some] at closes₁ closes₂
    rw [resolveExpression_join_group scope (findIdx?_bracketed_of_some found G₁ B₁) closes₁,
      resolveExpression_join_group scope (findIdx?_bracketed_of_some found₂ G₂ B₂) closes₂,
      take_bracketed insideF.le, take_bracketed insideF₂.le, ← (around.take k).shape_eq,
      show m + (1 + (F₁.length - (k + 1)) + G₁.length + 2) - 1 =
        F₁.length - (k + 1) + (G₁.length + 2) + m by omega,
      show m + (1 + (F₂.length - (k + 1)) + G₂.length + 2) - 1 =
        F₂.length - (k + 1) + (G₂.length + 2) + m by omega,
      take_drop_bracketed (show k + 1 ≤ F₁.length from insideF),
      take_drop_bracketed (show k + 1 ≤ F₂.length from insideF₂),
      show k + (m + (1 + (F₁.length - (k + 1)) + G₁.length + 2)) + 1 =
        F₁.length + (G₁.length + 2) + (m + 1) by omega,
      show k + (m + (1 + (F₂.length - (k + 1)) + G₂.length + 2)) + 1 =
        F₂.length + (G₂.length + 2) + (m + 1) by omega,
      drop_past_bracketed, drop_past_bracketed]
    obtain ⟨L, named⟩ :
        ∃ L, ((UnaryFn.suffixOf? (shape ((F₁ ++ B₁).take k))).map (·.name.length)).getD 0 = L :=
      ⟨_, rfl⟩
    rw [named, take_bracketed (show k - L ≤ F₁.length by omega),
      take_bracketed (show k - L ≤ F₂.length by omega)]
    have fewer : (shape (F₁.drop (k + 1))).count '(' < (shape F₁).count '(' := by
      have inside := count_shape_inside_lt shapeOpening F₁.length
      rwa [List.take_of_length_le (by simp)] at inside
    refine trade_group_alike wf around (show k - L ≤ F₁.length + (m + 1) by omega) _
      (smaller _ _ _ _ fewer (by simp [lengths]) _ _ (around.parts lengths (k + 1) m))
      (numbers_parts_subset F₁ B₁ (show k - L ≤ k + 1 by omega) insideF)
      (lengths ▸ numbers_parts_subset F₂ B₂ (show k - L ≤ k + 1 by omega) insideF₂)
      fun v₁ v₂ t₁ t₂ spliced => ?_
    -- the group around the groups in brackets is traded: the texts are renumbered
    rw [List.drop_length_add_append, show F₁.length + (m + 1) = F₂.length + (m + 1) by rw [lengths],
      List.drop_length_add_append] at spliced ⊢
    exact resolveExpression_renumbered wf spliced

omit lengths in
include wf balanced₁ balanced₂ inner in
/-- Texts renumbered around two groups in brackets, whose insides are resolved alike from any
states, are resolved alike. -/
theorem resolveExpression_regrouped {w₁ w₂ : Workspace}
    (around : Renumbered scope (F₁ ++ B₁) w₁ (F₂ ++ B₂) w₂) (lengths : F₁.length = F₂.length) :
    RunsAlike (Settled scope w₁ (numbers (F₁ ++ B₁)) w₂ (numbers (F₂ ++ B₂)))
      (resolveExpression scope (join (F₁ ++ bracketed G₁ ++ B₁)) w₁)
      (resolveExpression scope (join (F₂ ++ bracketed G₂ ++ B₂)) w₂) := by
  obtain ⟨size, sized⟩ : ∃ size, (shape F₁).count '(' = size := ⟨_, rfl⟩
  -- strong induction on the opening brackets before the groups: a group that closes before
  -- them leaves fewer, and one that holds them has fewer inside
  induction size using Nat.strongRecOn generalizing F₁ B₁ F₂ B₂ w₁ w₂ with
  | ind size inductionHypothesis =>
  have smaller : ∀ F₁' B₁' F₂' B₂' : List Piece, (shape F₁').count '(' < (shape F₁).count '(' →
      F₁'.length = F₂'.length → Regrouped scope G₁ G₂ F₁' B₁' F₂' B₂' :=
    fun _ _ _ _ fewer lengths' _ _ around' =>
      inductionHypothesis _ (sized ▸ fewer) around' lengths' rfl
  cases found : (shape F₁).findIdx? (· == '(') with
  | none => exact regrouped_of_first wf balanced₁ balanced₂ inner lengths found _ _ around
  | some k =>
    cases closes : closingOffset (shape (F₁.drop k)) 0 0 with
    | some c => exact regrouped_of_closed_before wf lengths smaller found closes _ _ around
    | none => exact regrouped_of_open wf balanced₁ balanced₂ lengths smaller found closes _ _ around

end Regrouping

/-! ## Normal forms of glyphs of one character -/

/-- Bracket glyphs of at most one character, none of them a round bracket: replacing them maps
each character of a text on its own. -/
def BracketGlyphs.Characterwise (glyphs : BracketGlyphs) : Prop :=
  ∀ glyph ∈ glyphs.opening ++ glyphs.closing,
    glyph.toList.length ≤ 1 ∧ '(' ∉ glyph.toList ∧ ')' ∉ glyph.toList

/-- The square and curly brackets are read one character at a time. -/
theorem BracketGlyphs.characterwise_standard : BracketGlyphs.standard.Characterwise := by
  unfold BracketGlyphs.Characterwise BracketGlyphs.standard
  decide

/-- The characters an expression is read as, once its white space is dropped and its glyphs
are replaced: what `normalize` gives when the expression is not blank. -/
def normalForm (glyphs : BracketGlyphs) (text : List Char) : List Char :=
  glyphs.closing.foldl (fun text glyph => replaceAll glyph.toList [')'] text)
    (glyphs.opening.foldl (fun text glyph => replaceAll glyph.toList ['('] text)
      (text.filter fun c => !Text.isWhiteSpace c))

theorem normalize_eq (glyphs : BracketGlyphs) (expression : String) :
    normalize glyphs expression =
      if Text.isBlank expression then .error (.invalidExpression "expression is blank")
      else .ok (String.ofList (normalForm glyphs expression.toList)) := by
  unfold normalize normalForm Text.stripWhiteSpace
  rw [String.toList_ofList]

/-- Text written with the characters of formulas is its own normal form. -/
theorem normalForm_of_formulaChars {text : List Char} (nonempty : text ≠ [])
    (chars : ∀ c ∈ text, FormulaChar c) : normalForm BracketGlyphs.standard text = text := by
  have normal := normalize_of_formulaChars nonempty chars
  rw [normalize_eq, String.toList_ofList] at normal
  split at normal
  · cases normal
  · rw [Except.ok.injEq] at normal
    simpa using congrArg String.toList normal

/-- Replacing a single character maps each character on its own. -/
theorem replaceAll_single (g : Char) (replacement text : List Char) :
    replaceAll [g] replacement text = text.flatMap fun c => if c = g then replacement else [c] := by
  rw [replaceAll]
  induction text with
  | nil => rw [replaceAll.go, List.flatMap_nil]
  | cons c rest inductionHypothesis =>
    rw [replaceAll.go, List.flatMap_cons, List.length_nil, List.drop_zero, inductionHypothesis]
    by_cases same : c = g
    · subst same
      rw [if_pos (by simp [List.isPrefixOf]), if_pos rfl]
    · rw [if_neg (by simp [List.isPrefixOf, Ne.symm same]), if_neg same, List.singleton_append]

theorem replaceAll_nil (glyph replacement : List Char) : replaceAll glyph replacement [] = [] := by
  cases glyph with
  | nil => rfl
  | cons g rest => rw [replaceAll, replaceAll.go]

/-- The empty text is its own normal form. -/
theorem normalForm_nil (glyphs : BracketGlyphs) : normalForm glyphs [] = [] := by
  have stays : ∀ (given : List String) (replacement : List Char),
      given.foldl (fun text glyph => replaceAll glyph.toList replacement text) [] = [] := by
    intro given replacement
    induction given with
    | nil => rfl
    | cons g rest inductionHypothesis => rw [List.foldl_cons, replaceAll_nil, inductionHypothesis]
  unfold normalForm
  rw [List.filter_nil, stays, stays]

theorem replaceAll_append {glyph : List Char} (short : glyph.length ≤ 1)
    (replacement xs ys : List Char) :
    replaceAll glyph replacement (xs ++ ys) =
      replaceAll glyph replacement xs ++ replaceAll glyph replacement ys := by
  match glyph, short with
  | [], _ => rfl
  | [g], _ => rw [replaceAll_single, replaceAll_single, replaceAll_single, List.flatMap_append]

theorem replaceAll_singleton_of_not_mem {glyph : List Char} (short : glyph.length ≤ 1) {d : Char}
    (absent : d ∉ glyph) (replacement : List Char) : replaceAll glyph replacement [d] = [d] := by
  match glyph, short with
  | [], _ => rfl
  | [g], _ =>
    have other : d ≠ g := fun same => absent (same ▸ List.mem_singleton_self g)
    rw [replaceAll_single, List.flatMap_singleton, if_neg other]

/-- Replacing glyphs of at most one character, one after the other, maps each character on its
own. -/
theorem foldl_replaceAll_append {glyphs : List String} (short : ∀ g ∈ glyphs, g.toList.length ≤ 1)
    (replacement xs ys : List Char) :
    glyphs.foldl (fun text glyph => replaceAll glyph.toList replacement text) (xs ++ ys) =
      glyphs.foldl (fun text glyph => replaceAll glyph.toList replacement text) xs ++
        glyphs.foldl (fun text glyph => replaceAll glyph.toList replacement text) ys := by
  induction glyphs generalizing xs ys with
  | nil => rfl
  | cons g rest inductionHypothesis =>
    rw [List.foldl_cons, List.foldl_cons, List.foldl_cons,
      replaceAll_append (short g List.mem_cons_self),
      inductionHypothesis (fun g listed => short g (List.mem_cons_of_mem _ listed))]

theorem foldl_replaceAll_singleton {glyphs : List String}
    (short : ∀ g ∈ glyphs, g.toList.length ≤ 1) {d : Char} (absent : ∀ g ∈ glyphs, d ∉ g.toList)
    (replacement : List Char) :
    glyphs.foldl (fun text glyph => replaceAll glyph.toList replacement text) [d] = [d] := by
  induction glyphs with
  | nil => rfl
  | cons g rest inductionHypothesis =>
    rw [List.foldl_cons, replaceAll_singleton_of_not_mem (short g List.mem_cons_self)
        (absent g List.mem_cons_self),
      inductionHypothesis (fun g listed => short g (List.mem_cons_of_mem _ listed))
        (fun g listed => absent g (List.mem_cons_of_mem _ listed))]

section Characterwise

variable {glyphs : BracketGlyphs} (characterwise : glyphs.Characterwise)
include characterwise

theorem normalForm_append (xs ys : List Char) :
    normalForm glyphs (xs ++ ys) = normalForm glyphs xs ++ normalForm glyphs ys := by
  have opening : ∀ g ∈ glyphs.opening, g.toList.length ≤ 1 :=
    fun g listed => (characterwise g (List.mem_append_left _ listed)).1
  have closing : ∀ g ∈ glyphs.closing, g.toList.length ≤ 1 :=
    fun g listed => (characterwise g (List.mem_append_right _ listed)).1
  unfold normalForm
  rw [List.filter_append, foldl_replaceAll_append opening, foldl_replaceAll_append closing]

/-- Round brackets are their own normal form. -/
theorem normalForm_round {d : Char} (round : d = '(' ∨ d = ')') : normalForm glyphs [d] = [d] := by
  have absent : ∀ g ∈ glyphs.opening ++ glyphs.closing, d ∉ g.toList := by
    intro g listed
    rcases round with rfl | rfl
    · exact (characterwise g listed).2.1
    · exact (characterwise g listed).2.2
  have kept : [d].filter (fun c => !Text.isWhiteSpace c) = [d] := by
    rcases round with rfl | rfl <;> decide
  unfold normalForm
  rw [kept, foldl_replaceAll_singleton
      (fun g listed => (characterwise g (List.mem_append_left _ listed)).1)
      (fun g listed => absent g (List.mem_append_left _ listed)),
    foldl_replaceAll_singleton
      (fun g listed => (characterwise g (List.mem_append_right _ listed)).1)
      (fun g listed => absent g (List.mem_append_right _ listed))]

end Characterwise

/-- Writing text around an expression in round brackets writes its normal form there. -/
theorem normalize_group {glyphs : BracketGlyphs} (characterwise : glyphs.Characterwise)
    {s S : String} (normalized : normalize glyphs s = .ok S) (P Q : String) :
    normalize glyphs (P ++ "(" ++ s ++ ")" ++ Q) = .ok (String.ofList
      (normalForm glyphs P.toList ++ '(' :: (S.toList ++ ')' :: normalForm glyphs Q.toList))) := by
  rw [normalize_eq] at normalized ⊢
  by_cases blank : Text.isBlank s = true
  · rw [if_pos blank] at normalized
    cases normalized
  rw [if_neg blank, Except.ok.injEq] at normalized
  subst normalized
  have opening : "(".toList = ['('] := by decide
  have closing : ")".toList = [')'] := by decide
  have notBlank : Text.isBlank (P ++ "(" ++ s ++ ")" ++ Q) = false := by
    have opened : Text.isWhiteSpace '(' = false := by decide
    simp [Text.isBlank, opening, opened]
  rw [notBlank, if_neg Bool.false_ne_true, String.toList_ofList]
  rw [String.toList_append, String.toList_append, String.toList_append, String.toList_append,
    opening, closing, normalForm_append characterwise, normalForm_append characterwise,
    normalForm_append characterwise, normalForm_append characterwise,
    normalForm_round characterwise (Or.inl rfl), normalForm_round characterwise (Or.inr rfl)]
  simp only [List.append_assoc, List.cons_append, List.nil_append]

/-- Compiling a text whose normal form is known, once the checks pass, is resolving the normal
form from the initial workspace, then folding the tree if asked. -/
theorem Compiler.compile_of_checks {c : Compiler} {expression text : String}
    {names declared : List String} (normalized : normalize c.glyphs expression = .ok text)
    (constantsChecked : Compiler.checkConstants c.constants = .ok ())
    (variablesChecked : Compiler.declareVariables c.constants names = .ok declared) :
    c.compile expression names =
      (resolveExpression ⟨c.constants, declared⟩ text.toList Workspace.initial).map fun r =>
        ⟨if c.folding then r.1.fold else r.1, declared,
          r.2.occurrences.retainPresent
            ((if c.folding then r.1.fold else r.1).leaves.map (·.1))⟩ := by
  simp only [Compiler.compile, normalized, constantsChecked, variablesChecked, bind, Except.bind,
    StateT.run]
  cases resolveExpression ⟨c.constants, declared⟩ text.toList Workspace.initial <;> rfl

/-! ## Texts that compile, in brackets -/

/-- Results of runs alike, each made into a compiled expression whose root is its tree, both are
compiled or both fail, and then their trees are equal up to leaf numbers. -/
theorem RunsAlike.map_compiled {x₁ x₂ : Except CompileError (Tree × Workspace)}
    (alike : RunsAlike (fun r₁ r₂ => r₁.1.eraseLeaves = r₂.1.eraseLeaves) x₁ x₂)
    {make₁ make₂ : Tree × Workspace → Compiled} (root₁ : ∀ r, (make₁ r).root = r.1)
    (root₂ : ∀ r, (make₂ r).root = r.1) :
    ((∃ e, x₁.map make₁ = .ok e) ↔ ∃ e, x₂.map make₂ = .ok e) ∧
      ∀ e₁ e₂, x₁.map make₁ = .ok e₁ → x₂.map make₂ = .ok e₂ →
        e₁.root.eraseLeaves = e₂.root.eraseLeaves := by
  cases x₁ with
  | error e₁ =>
    cases x₂ with
    | error e₂ =>
      refine ⟨⟨fun ⟨_, compiled⟩ => ?_, fun ⟨_, compiled⟩ => ?_⟩, fun _ _ compiled _ => ?_⟩ <;>
        cases compiled
    | ok r₂ => exact alike.elim
  | ok r₁ =>
    cases x₂ with
    | error e₂ => exact alike.elim
    | ok r₂ =>
      refine ⟨⟨fun _ => ⟨_, rfl⟩, fun _ => ⟨_, rfl⟩⟩, fun e₁ e₂ compiled₁ compiled₂ => ?_⟩
      cases compiled₁
      cases compiled₂
      rw [root₁, root₂]
      exact alike

section Initial

variable {scope : Scope}

/-- A text that resolves from the initial workspace has balanced round brackets. -/
theorem openAfter?_of_initial {text : List Char} {raw : Tree} {w : Workspace}
    (resolved : resolveExpression scope text Workspace.initial = .ok (raw, w)) :
    openAfter? text 0 = some 0 := by
  by_contra unbalanced
  exact resolveExpression_ne_ok _ text unbalanced _ _ resolved

variable (wf : scope.WellFormed)
include wf

/-- A text that resolves from the initial workspace has no bar. -/
theorem bar_not_mem_of_initial {text : List Char} {raw : Tree} {w : Workspace}
    (resolved : resolveExpression scope text Workspace.initial = .ok (raw, w)) : '|' ∉ text :=
  List.count_eq_zero.mp
    (resolveExpression_resolved wf _ (Workspace.sound_initial _) resolved).of_initial.2.1

/-- A text with a bar fails from the initial workspace. -/
theorem resolveExpression_initial_of_bar {text : List Char} (barred : '|' ∈ text) :
    ∃ e, resolveExpression scope text Workspace.initial = .error e := by
  cases run : resolveExpression scope text Workspace.initial with
  | error e => exact ⟨e, rfl⟩
  | ok r => exact absurd barred (bar_not_mem_of_initial wf run)

/-- A text that resolves from the initial workspace resolves from any sound state, to a tree
equal up to leaf numbers, taking no placeholder pending there. -/
theorem resolveExpression_of_initial {text : List Char} {raw : Tree} {w : Workspace}
    (resolved : resolveExpression scope text Workspace.initial = .ok (raw, w)) {v : Workspace}
    (sound : v.Sound scope) :
    ∃ r, resolveExpression scope text v = .ok r ∧ r.1.eraseLeaves = raw.eraseLeaves ∧
      v.TakesOnly scope [] r.2 := by
  -- the text is its own renumbering from the two states
  have alike := resolveExpression_renumbered wf
    (Renumbered.chars (bar_not_mem_of_initial wf resolved) sound (Workspace.sound_initial _))
  rw [join_map_char, resolved, numbers_map_char] at alike
  cases run : resolveExpression scope text v with
  | error e =>
    rw [run] at alike
    exact alike.elim
  | ok r => exact ⟨r, rfl, (alike.related run rfl).same, (alike.related run rfl).first⟩

/-- Two texts that resolve from the initial workspace to trees equal up to leaf numbers are
resolved alike from any sound states, taking no placeholder pending there. -/
theorem resolveExpression_alike_of_initial {S T : List Char} {rawS rawT : Tree}
    {wS wT : Workspace} (resolvedS : resolveExpression scope S Workspace.initial = .ok (rawS, wS))
    (resolvedT : resolveExpression scope T Workspace.initial = .ok (rawT, wT))
    (same : rawS.eraseLeaves = rawT.eraseLeaves) (v₁ v₂ : Workspace) (sound₁ : v₁.Sound scope)
    (sound₂ : v₂.Sound scope) :
    RunsAlike (Settled scope v₁ [] v₂ []) (resolveExpression scope S v₁)
      (resolveExpression scope T v₂) := by
  obtain ⟨r₁, run₁, same₁, taken₁⟩ := resolveExpression_of_initial wf resolvedS sound₁
  obtain ⟨r₂, run₂, same₂, taken₂⟩ := resolveExpression_of_initial wf resolvedT sound₂
  rw [run₁, run₂]
  exact ⟨same₁.trans (same.trans same₂.symm), taken₁, taken₂⟩

/-- Two texts that resolve from the initial workspace to trees equal up to leaf numbers, put in
round brackets between the same texts, are resolved alike from the initial workspace. -/
theorem resolveExpression_group_alike {S T : List Char} {rawS rawT : Tree} {wS wT : Workspace}
    (resolvedS : resolveExpression scope S Workspace.initial = .ok (rawS, wS))
    (resolvedT : resolveExpression scope T Workspace.initial = .ok (rawT, wT))
    (same : rawS.eraseLeaves = rawT.eraseLeaves) (before after : List Char) :
    RunsAlike (fun r₁ r₂ => r₁.1.eraseLeaves = r₂.1.eraseLeaves)
      (resolveExpression scope (before ++ '(' :: (S ++ ')' :: after)) Workspace.initial)
      (resolveExpression scope (before ++ '(' :: (T ++ ')' :: after)) Workspace.initial) := by
  by_cases barred : '|' ∈ before ++ after
  · -- a bar around the groups makes both texts fail
    have within : ∀ G : List Char, '|' ∈ before ++ '(' :: (G ++ ')' :: after) := by
      intro G
      rcases List.mem_append.mp barred with inBefore | inAfter <;> simp [*]
    obtain ⟨e₁, failed₁⟩ := resolveExpression_initial_of_bar wf (within S)
    obtain ⟨e₂, failed₂⟩ := resolveExpression_initial_of_bar wf (within T)
    rw [failed₁, failed₂]
    exact trivial
  -- otherwise the texts around the groups are renumbered from the initial workspace
  have around : Renumbered scope (before.map char ++ after.map char) Workspace.initial
      (before.map char ++ after.map char) Workspace.initial := by
    rw [← List.map_append]
    exact Renumbered.chars barred (Workspace.sound_initial _) (Workspace.sound_initial _)
  have regrouped := resolveExpression_regrouped wf (openAfter?_of_initial resolvedS)
    (openAfter?_of_initial resolvedT)
    (resolveExpression_alike_of_initial wf resolvedS resolvedT same)
    around rfl
  simp only [join_append, join_map_char, join_bracketed, List.append_assoc, List.cons_append]
    at regrouped
  exact regrouped.mono fun r₁ r₂ settled => settled.same

end Initial

/-- A group in round brackets is one opaque operand. Without folding, and with bracket glyphs
of at most one character other than a round bracket, two expressions that compile to trees
equal up to leaf numbers stand for each other in brackets within any text: the text compiles
with both or with neither, to trees equal up to leaf numbers, also where a function name
before the group applies to it. -/
theorem compile_group_substitutes {c : Compiler} (characterwise : c.glyphs.Characterwise)
    (passthrough : c.folding = false) {s t : String} {names : List String} {eₛ eₜ : Compiled}
    (compiledS : c.compile s names = .ok eₛ) (compiledT : c.compile t names = .ok eₜ)
    (same : eₛ.root.eraseLeaves = eₜ.root.eraseLeaves) (P Q : String) :
    ((∃ e, c.compile (P ++ "(" ++ s ++ ")" ++ Q) names = .ok e) ↔
        ∃ e, c.compile (P ++ "(" ++ t ++ ")" ++ Q) names = .ok e) ∧
      ∀ e₁ e₂, c.compile (P ++ "(" ++ s ++ ")" ++ Q) names = .ok e₁ →
        c.compile (P ++ "(" ++ t ++ ")" ++ Q) names = .ok e₂ →
        e₁.root.eraseLeaves = e₂.root.eraseLeaves := by
  obtain ⟨S, declared, rawS, wS, normalS, constantsChecked, variablesChecked, resolvedS, rfl⟩ :=
    Compiler.compile_eq_ok compiledS
  obtain ⟨T, declared', rawT, wT, normalT, -, variablesChecked', resolvedT, rfl⟩ :=
    Compiler.compile_eq_ok compiledT
  obtain rfl : declared = declared' := by
    rw [variablesChecked, Except.ok.injEq] at variablesChecked'
    exact variablesChecked'
  simp only [passthrough, Bool.false_eq_true, ↓reduceIte] at same
  -- the texts around the groups are normalized as they would be alone
  rw [Compiler.compile_of_checks (normalize_group characterwise normalS P Q) constantsChecked
      variablesChecked,
    Compiler.compile_of_checks (normalize_group characterwise normalT P Q) constantsChecked
      variablesChecked, String.toList_ofList, String.toList_ofList, passthrough]
  exact (resolveExpression_group_alike (Compiler.wellFormed_of_checks constantsChecked
    variablesChecked) resolvedS resolvedT same _ _).map_compiled (fun _ => rfl) (fun _ => rfl)

/-! ## Closed compilations

Compiled values compare bit for bit here, so a compilation of a fixed text is checked by
evaluating it. -/

deriving instance DecidableEq for Binary64.Word, ComplexFloat, Tree, Compiled

set_option maxRecDepth 4000 in
/-- `x` and `(x)` compile to the same variable, so either stands in brackets after `sin`. -/
theorem compile_sin_of_bracketed_x :
    ((∃ e, Compiler.compile ⟨ConstantTable.builtin, BracketGlyphs.standard, false⟩
        ("sin" ++ "(" ++ "x" ++ ")" ++ "*x") ["x"] = .ok e) ↔
      ∃ e, Compiler.compile ⟨ConstantTable.builtin, BracketGlyphs.standard, false⟩
        ("sin" ++ "(" ++ "(x)" ++ ")" ++ "*x") ["x"] = .ok e) ∧
    ∀ e₁ e₂, Compiler.compile ⟨ConstantTable.builtin, BracketGlyphs.standard, false⟩
        ("sin" ++ "(" ++ "x" ++ ")" ++ "*x") ["x"] = .ok e₁ →
      Compiler.compile ⟨ConstantTable.builtin, BracketGlyphs.standard, false⟩
        ("sin" ++ "(" ++ "(x)" ++ ")" ++ "*x") ["x"] = .ok e₂ →
      e₁.root.eraseLeaves = e₂.root.eraseLeaves :=
  compile_group_substitutes BracketGlyphs.characterwise_standard rfl
    (show Compiler.compile _ "x" ["x"] = .ok ⟨.var 0 0, ["x"], ⟨[("x", [0])]⟩⟩ by decide +kernel)
    (show Compiler.compile _ "(x)" ["x"] = .ok ⟨.var 0 0, ["x"], ⟨[("x", [0])]⟩⟩ by
      decide +kernel)
    rfl "sin" "*x"

set_option maxRecDepth 4000 in
/-- With the opening glyph `((`, `x` and `(x)` compile to the same variable, yet `((x))` does
not compile: its own bracket and the one of the group inside it form the glyph, and the
closing bracket left over has no partner. -/
theorem compile_double_glyph_breaks_group :
    Compiler.compile ⟨ConstantTable.builtin, ⟨["(("], []⟩, false⟩ "x" ["x"] =
        .ok ⟨.var 0 0, ["x"], ⟨[("x", [0])]⟩⟩ ∧
      Compiler.compile ⟨ConstantTable.builtin, ⟨["(("], []⟩, false⟩ "(x)" ["x"] =
        .ok ⟨.var 0 0, ["x"], ⟨[("x", [0])]⟩⟩ ∧
      Compiler.compile ⟨ConstantTable.builtin, ⟨["(("], []⟩, false⟩
        ("" ++ "(" ++ "(x)" ++ ")" ++ "") ["x"] = .error (.unbalancedBrackets "|_1_|)") := by
  refine ⟨?_, ?_, ?_⟩ <;> decide +kernel

end ComplexFormula
