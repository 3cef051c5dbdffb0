import ComplexFormula.Proofs.Renumbering

/-!
# Trading stretches of renumbered texts for placeholders

The power pass and the bracket pass each trade a stretch of the working text for a new
placeholder: a base, its `^` and its exponent, or a group with the function named before it.
On renumbered texts (`Renumbered`) both passes find the same stretch, as pieces: the first `^`
or `(` is a character piece at the same index of both texts, the operands of a power cover the
same pieces (`trailingAtomLength_renumbered`, `leadingAtomLength_renumbered`), and the bracket
that closes a group is found in the shape (`resolveExpression_join_group`). The runs on the
stretches settle alike, so after the trade the texts are renumbered again, each new
placeholder standing for subtrees equal up to leaf numbers (`Renumbered.splice_held`).

By induction along the `^` and the `(` of the texts, renumbered texts are folded alike by the
power pass (`resolvePowers_renumbered`, into renumbered texts: `Flattened`) and resolved alike
by the whole resolver (`resolveExpression_renumbered`).
-/

namespace ComplexFormula

open Piece

/-! ## The operands of a power -/

namespace Piece

/-- Pieces that are characters reach as far into the text as they count. -/
theorem offset_map_char (cs : List Char) {e : Nat} (within : e ≤ cs.length) :
    offset (cs.map char) e = e := by
  rw [offset, ← List.map_take, join_map_char, List.length_take]
  omega

/-- First pieces that are characters reach as far into the text as they count. -/
theorem offset_map_char_append (cs : List Char) (B : List Piece) {e : Nat}
    (within : e ≤ cs.length) : offset (cs.map char ++ B) e = e := by
  rw [offset, List.take_append_of_le_length (by simpa using within), ← List.map_take,
    join_map_char, List.length_take]
  omega

/-- Last pieces that are characters cover as much of the text as they count. -/
theorem length_join_drop_map_char (F : List Piece) (cs : List Char) {b k : Nat}
    (within : b ≤ cs.length) (length : F.length = k) :
    (join ((F ++ cs.map char).drop (k + (cs.length - b)))).length = b := by
  rw [← length, List.drop_length_add_append, ← List.map_drop, join_map_char, List.length_drop]
  omega

end Piece

section Operands
variable {scope : Scope} (wf : scope.WellFormed)
include wf

/-- In renumbered texts that end with a placeholder, the base is that placeholder in both. -/
theorem trailingAtomLength_held_renumbered {F₁ front₂ : List Piece} {m : Nat} {w₁ w₂ : Workspace}
    (renumbered : Renumbered scope (F₁ ++ [held m]) w₁ front₂ w₂) :
    trailingAtomLength scope w₁ (join (F₁ ++ [held m])) =
        some (join ((F₁ ++ [held m]).drop F₁.length)).length ∧
      trailingAtomLength scope w₂ (join front₂) = some (join (front₂.drop F₁.length)).length := by
  have lastHeld := renumbered.drop F₁.length
  rw [List.drop_left] at lastHeld
  obtain ⟨n, rest₂, t₁, t₂, same₂, -, held₁, held₂, -, -, -, rest⟩ :=
    Renumbered.first_held
      (show Renumbered scope (([] : List Char).map char ++ held m :: []) w₁ _ w₂ from lastHeld)
  obtain rfl : rest₂ = [] := List.eq_nil_of_length_eq_zero rest.length_eq.symm
  rw [List.map_nil, List.nil_append] at same₂
  have split₂ : front₂ = front₂.take F₁.length ++ [held n] := by
    rw [← same₂, List.take_append_drop]
  constructor
  · rw [List.drop_left, join_append, join_cons, join_nil, List.append_nil, text_held]
    exact trailingAtomLength_placeholder wf renumbered.sound₁.keys
      (List.mem_map.mpr ⟨_, held₁, rfl⟩) _
  · rw [same₂, split₂, join_append, join_cons, join_nil, List.append_nil, text_held]
    exact trailingAtomLength_placeholder wf renumbered.sound₂.keys
      (List.mem_map.mpr ⟨_, held₂, rfl⟩) _

/-- In renumbered texts, the base a text ends with covers the same last pieces of both: the
placeholder the text ends with, or the same characters after the last one. -/
theorem trailingAtomLength_renumbered {front₁ front₂ : List Piece} {w₁ w₂ : Workspace}
    (renumbered : Renumbered scope front₁ w₁ front₂ w₂) :
    (trailingAtomLength scope w₁ (join front₁) = none ∧
        trailingAtomLength scope w₂ (join front₂) = none) ∨
      ∃ j ≤ front₁.length,
        trailingAtomLength scope w₁ (join front₁) = some (join (front₁.drop j)).length ∧
        trailingAtomLength scope w₂ (join front₂) = some (join (front₂.drop j)).length := by
  obtain ⟨F, cs, rfl, ending⟩ := exists_trailing_chars front₁
  -- the characters after the last placeholder are the same in both texts
  have after := renumbered.drop F.length
  rw [List.drop_left] at after
  obtain ⟨same, noBar⟩ := eq_of_alike_map_char after.alike
  have before := renumbered.take F.length
  rw [List.take_left] at before
  have split₂ : front₂ = front₂.take F.length ++ cs.map char := by
    rw [← same, List.take_append_drop]
  by_cases empty : cs = []
  · subst empty
    rw [List.map_nil, List.append_nil] at renumbered ⊢
    rcases ending with rfl | ⟨m, last⟩
    · -- nothing stands before the `^`
      left
      rw [List.length_nil, List.take_zero, List.map_nil, List.nil_append] at split₂
      rw [split₂]
      exact ⟨trailingAtomLength_nil scope w₁, trailingAtomLength_nil scope w₂⟩
    · -- a placeholder ends the text before the `^`
      obtain ⟨F', rfl⟩ := List.getLast?_eq_some_iff.mp last
      exact Or.inr ⟨F'.length, by simp, trailingAtomLength_held_renumbered wf renumbered⟩
  · -- the same characters end both texts after a bar, and they alone are read
    have ending₁ := getLast?_join_front ending
    have ending₂ : ∀ c, (join (front₂.take F.length)).getLast? = some c → c = '|' := by
      intro c last
      rw [getLast?_join, ← before.shape_eq] at last
      exact getLast?_shape_front ending c last
    have read₁ := trailingAtomLength_after_bar wf renumbered.sound₁.keys ending₁ empty noBar
    have read₂ := trailingAtomLength_after_bar wf renumbered.sound₂.keys ending₂ empty noBar
    rw [join_append, join_map_char, read₁]
    rw [split₂, join_append, join_map_char, read₂]
    cases read : trailingAtomLength scope Workspace.initial cs with
    | none => exact Or.inl ⟨rfl, rfl⟩
    | some b =>
      have within := trailingAtomLength_le_length read
      exact Or.inr ⟨F.length + (cs.length - b),
        by simp only [List.length_append, List.length_map]; omega,
        by rw [length_join_drop_map_char F cs within rfl],
        by rw [length_join_drop_map_char _ cs within before.length_eq.symm]⟩

/-- In renumbered texts whose first placeholder follows some characters, the exponent is that
placeholder, alone or after a sign, or it is read off the characters alone. -/
theorem leadingAtomLength_held_renumbered {cs : List Char} {m : Nat} {rest₁ back₂ : List Piece}
    {w₁ w₂ : Workspace}
    (renumbered : Renumbered scope (cs.map char ++ held m :: rest₁) w₁ back₂ w₂) :
    (leadingAtomLength scope w₁ (join (cs.map char ++ held m :: rest₁)) = none ∧
        leadingAtomLength scope w₂ (join back₂) = none) ∨
      ∃ i ≤ (cs.map char ++ held m :: rest₁).length,
        leadingAtomLength scope w₁ (join (cs.map char ++ held m :: rest₁)) =
          some (offset (cs.map char ++ held m :: rest₁) i) ∧
        leadingAtomLength scope w₂ (join back₂) = some (offset back₂ i) := by
  obtain ⟨n, rest₂, t₁, t₂, rfl, noBar, held₁, held₂, -, -, -, -⟩ := renumbered.first_held
  have pending₁ : placeholderText m ∈ w₁.pending.map (·.1) := List.mem_map.mpr ⟨_, held₁, rfl⟩
  have pending₂ : placeholderText n ∈ w₂.pending.map (·.1) := List.mem_map.mpr ⟨_, held₂, rfl⟩
  simp only [join_append, join_map_char, join_cons, text_held]
  cases cs with
  | nil =>
    -- the placeholder itself is the exponent
    have read₁ := leadingAtomLength_first_held wf renumbered.sound₁.keys none pending₁ (join rest₁)
    have read₂ := leadingAtomLength_first_held wf renumbered.sound₂.keys none pending₂ (join rest₂)
    simp only [signText, List.nil_append] at read₁ read₂
    simp only [List.map_nil, List.nil_append]
    exact Or.inr ⟨1, by simp, by rw [read₁]; simp [offset], by rw [read₂]; simp [offset]⟩
  | cons c more =>
    by_cases signed : isSignChar c = true ∧ more = []
    · -- a sign and the placeholder after it are the exponent
      obtain ⟨sign, rfl⟩ := signed
      obtain ⟨s, isSign⟩ : ∃ s, signText (some s) = [c] := by
        rcases (by simpa [isSignChar] using sign : c = '+' ∨ c = '-') with rfl | rfl
        · exact ⟨.plus, rfl⟩
        · exact ⟨.minus, rfl⟩
      have read₁ := leadingAtomLength_first_held wf renumbered.sound₁.keys (some s) pending₁
        (join rest₁)
      have read₂ := leadingAtomLength_first_held wf renumbered.sound₂.keys (some s) pending₂
        (join rest₂)
      rw [isSign] at read₁ read₂
      simp only [List.cons_append, List.nil_append, List.map_cons, List.map_nil] at read₁ read₂ ⊢
      exact Or.inr ⟨2, by simp, by rw [read₁]; simp [offset], by rw [read₂]; simp [offset]⟩
    · -- the characters before the bar are read alone
      have separated : ∃ d rest, c :: more = d :: rest ∧ (isSignChar d = true → rest ≠ []) :=
        ⟨c, more, rfl, fun sign empty => signed ⟨sign, empty⟩⟩
      have starting : ∀ (rest : List Piece) (k : Nat) (d : Char),
          (placeholderText k ++ join rest).head? = some d → d = '|' := by
        intro rest k d first
        rw [placeholderText_eq] at first
        exact (Option.some.inj first).symm
      have read₁ := leadingAtomLength_before_bar wf renumbered.sound₁.keys (starting rest₁ m)
        noBar fun _ => separated
      have read₂ := leadingAtomLength_before_bar wf renumbered.sound₂.keys (starting rest₂ n)
        noBar fun _ => separated
      rw [read₁, read₂]
      cases scanned : leadingAtomLength scope Workspace.initial (c :: more) with
      | none => exact Or.inl ⟨rfl, rfl⟩
      | some e =>
        have within := leadingAtomLength_le_length scanned
        exact Or.inr ⟨e, by simp only [List.length_append, List.length_map]; omega,
          by rw [offset_map_char_append _ _ within], by rw [offset_map_char_append _ _ within]⟩

/-- In renumbered texts, the exponent a text starts with covers the same first pieces of both:
a placeholder after an optional sign, or the same characters before the first placeholder. -/
theorem leadingAtomLength_renumbered {back₁ back₂ : List Piece} {w₁ w₂ : Workspace}
    (renumbered : Renumbered scope back₁ w₁ back₂ w₂) :
    (leadingAtomLength scope w₁ (join back₁) = none ∧
        leadingAtomLength scope w₂ (join back₂) = none) ∨
      ∃ i ≤ back₁.length,
        leadingAtomLength scope w₁ (join back₁) = some (offset back₁ i) ∧
        leadingAtomLength scope w₂ (join back₂) = some (offset back₂ i) := by
  obtain ⟨cs, B, rfl, starting⟩ := exists_leading_chars back₁
  rcases starting with rfl | ⟨m, rest₁, rfl⟩
  · -- no placeholder: the same characters in both texts, read alone
    rw [List.append_nil] at renumbered ⊢
    obtain ⟨rfl, noBar⟩ := eq_of_alike_map_char renumbered.alike
    have read₁ : leadingAtomLength scope w₁ (cs ++ []) =
        leadingAtomLength scope Workspace.initial cs :=
      leadingAtomLength_before_bar wf renumbered.sound₁.keys (fun _ first => by cases first) noBar
        (fun nonempty => absurd rfl nonempty)
    have read₂ : leadingAtomLength scope w₂ (cs ++ []) =
        leadingAtomLength scope Workspace.initial cs :=
      leadingAtomLength_before_bar wf renumbered.sound₂.keys (fun _ first => by cases first) noBar
        (fun nonempty => absurd rfl nonempty)
    rw [List.append_nil] at read₁ read₂
    rw [join_map_char, read₁, read₂]
    cases scanned : leadingAtomLength scope Workspace.initial cs with
    | none => exact Or.inl ⟨rfl, rfl⟩
    | some e =>
      have within := leadingAtomLength_le_length scanned
      exact Or.inr ⟨e, by simpa using within, by rw [offset_map_char cs within],
        by rw [offset_map_char cs within]⟩
  · exact leadingAtomLength_held_renumbered wf renumbered

end Operands

/-! ## Trading a stretch for a placeholder -/

namespace Piece

/-- The pieces before a stretch, the stretch and the pieces after it make the list. -/
theorem take_append_stretch_append_drop (ps : List Piece) {a b : Nat} (ordered : a ≤ b) :
    ps.take a ++ (ps.drop a).take (b - a) ++ ps.drop b = ps := by
  rw [List.append_assoc, show ps.drop b = (ps.drop a).drop (b - a) by
      rw [List.drop_drop]; congr 1; omega,
    List.take_append_drop, List.take_append_drop]

/-- Of pieces with distinct numbers, those around a stretch have none of the stretch's. -/
theorem numbers_around_stretch {ps : List Piece} (distinct : (numbers ps).Nodup) {a b : Nat}
    (ordered : a ≤ b) :
    ∀ n ∈ numbers (ps.take a ++ ps.drop b), n ∉ numbers ((ps.drop a).take (b - a)) := by
  intro n around inside
  rw [← take_append_stretch_append_drop ps ordered, numbers_append, numbers_append,
    List.nodup_append, List.nodup_append] at distinct
  rw [numbers_append] at around
  rcases List.mem_append.mp around with before | after
  · exact distinct.1.2.2 n before n inside rfl
  · exact distinct.2.2 n (List.mem_append_right _ inside) n after rfl

theorem numbers_around_nodup {ps : List Piece} (distinct : (numbers ps).Nodup) {a b : Nat}
    (ordered : a ≤ b) : (numbers (ps.take a ++ ps.drop b)).Nodup := by
  have sublist : List.Sublist (ps.take a ++ ps.drop b) ps := by
    conv => rhs; rw [← List.take_append_drop a ps]
    exact (List.drop_sublist_drop_left ps ordered).append_left _
  exact (sublist.filterMap _).nodup distinct

/-- Every placeholder of texts alike piece by piece is pending with a subtree. -/
theorem pending_of_alike {w₁ w₂ : Workspace} {ps₁ ps₂ : List Piece}
    (alike : List.Forall₂ (Piece.Alike w₁ w₂) ps₁ ps₂) :
    (∀ n ∈ numbers ps₁, ∃ t, (placeholderText n, t) ∈ w₁.pending) ∧
      ∀ n ∈ numbers ps₂, ∃ t, (placeholderText n, t) ∈ w₂.pending := by
  induction alike with
  | nil => exact ⟨fun _ listed => (by simp at listed), fun _ listed => (by simp at listed)⟩
  | @cons p q _ _ head _ inductionHypothesis =>
    cases p <;> cases q
    · exact inductionHypothesis
    · exact head.elim
    · exact head.elim
    · obtain ⟨t₁, t₂, held₁, held₂, -⟩ := head
      refine ⟨fun n listed => ?_, fun n listed => ?_⟩
      · rcases List.mem_cons.mp listed with rfl | later
        · exact ⟨t₁, held₁⟩
        · exact inductionHypothesis.1 n later
      · rcases List.mem_cons.mp listed with rfl | later
        · exact ⟨t₂, held₂⟩
        · exact inductionHypothesis.2 n later

end Piece

/-- Every placeholder of renumbered texts is pending, so numbered at most the count. -/
theorem Renumbered.numbers_le_minted {scope : Scope} {ps₁ ps₂ : List Piece} {w₁ w₂ : Workspace}
    (renumbered : Renumbered scope ps₁ w₁ ps₂ w₂) :
    (∀ n ∈ numbers ps₁, n ≤ w₁.minted) ∧ ∀ n ∈ numbers ps₂, n ≤ w₂.minted := by
  obtain ⟨pending₁, pending₂⟩ := pending_of_alike renumbered.alike
  refine ⟨fun n listed => ?_, fun n listed => ?_⟩
  · obtain ⟨t, held⟩ := pending₁ n listed
    obtain ⟨k, bounded, key⟩ := renumbered.sound₁.fresh _ held
    exact placeholderText_injective key ▸ bounded
  · obtain ⟨t, held⟩ := pending₂ n listed
    obtain ⟨k, bounded, key⟩ := renumbered.sound₂.fresh _ held
    exact placeholderText_injective key ▸ bounded

/-- Replacing the same stretch of renumbered texts by new placeholders for subtrees equal up to
leaf numbers, after runs that took no placeholder but those of the stretch, leaves renumbered
texts. -/
theorem Renumbered.splice_held {scope : Scope} {ps₁ ps₂ : List Piece} {w₁ w₂ v₁ v₂ : Workspace}
    (renumbered : Renumbered scope ps₁ w₁ ps₂ w₂) {a b : Nat} (ordered : a ≤ b)
    (first : w₁.TakesOnly scope (numbers ((ps₁.drop a).take (b - a))) v₁)
    (second : w₂.TakesOnly scope (numbers ((ps₂.drop a).take (b - a))) v₂) {t₁ t₂ : Tree}
    (registered₁ : ∀ leaf ∈ t₁.leaves, scope.Registered v₁.occurrences leaf)
    (registered₂ : ∀ leaf ∈ t₂.leaves, scope.Registered v₂.occurrences leaf)
    (same : t₁.eraseLeaves = t₂.eraseLeaves) :
    Renumbered scope (ps₁.take a ++ held (v₁.minted + 1) :: ps₁.drop b) (v₁.withMinted t₁)
      (ps₂.take a ++ held (v₂.minted + 1) :: ps₂.drop b) (v₂.withMinted t₂) := by
  -- the pieces around the stretch are still pending after the runs
  have apart₁ := numbers_around_stretch renumbered.distinct₁ ordered
  have apart₂ := numbers_around_stretch renumbered.distinct₂ ordered
  have front := (renumbered.take a).after first second
    (fun n listed => apart₁ n (by rw [numbers_append]; exact List.mem_append_left _ listed))
    (fun n listed => apart₂ n (by rw [numbers_append]; exact List.mem_append_left _ listed))
  have back := (renumbered.drop b).after first second
    (fun n listed => apart₁ n (by rw [numbers_append]; exact List.mem_append_right _ listed))
    (fun n listed => apart₂ n (by rw [numbers_append]; exact List.mem_append_right _ listed))
  have keep : ∀ p q, Piece.Alike v₁ v₂ p q →
      Piece.Alike (v₁.withMinted t₁) (v₂.withMinted t₂) p q :=
    fun _ _ alike => alike.keep (fun _ _ _ held => List.mem_append_left _ held)
      (fun _ _ _ held => List.mem_append_left _ held)
  have new : Piece.Alike (v₁.withMinted t₁) (v₂.withMinted t₂) (held (v₁.minted + 1))
      (held (v₂.minted + 1)) :=
    ⟨t₁, t₂, List.mem_append_right _ (List.mem_singleton_self _),
      List.mem_append_right _ (List.mem_singleton_self _), same⟩
  -- the new numbers are above every pending one
  have fresh : ∀ {ps : List Piece} {v : Workspace}, (numbers (ps.take a ++ ps.drop b)).Nodup →
      (∀ n ∈ numbers (ps.take a), n ≤ v.minted) → (∀ n ∈ numbers (ps.drop b), n ≤ v.minted) →
      (numbers (ps.take a ++ held (v.minted + 1) :: ps.drop b)).Nodup := by
    intro ps v distinct below above
    rw [numbers_append, numbers_held_cons, List.nodup_middle, List.nodup_cons]
    refine ⟨fun listed => ?_, by rwa [numbers_append] at distinct⟩
    rcases List.mem_append.mp listed with old | old
    · exact absurd (below _ old) (by omega)
    · exact absurd (above _ old) (by omega)
  exact ⟨List.rel_append (front.alike.imp keep) (.cons new (back.alike.imp keep)),
    fresh (numbers_around_nodup renumbered.distinct₁ ordered) front.numbers_le_minted.1
      back.numbers_le_minted.1,
    fresh (numbers_around_nodup renumbered.distinct₂ ordered) front.numbers_le_minted.2
      back.numbers_le_minted.2,
    first.ran.sound.withMinted registered₁, second.ran.sound.withMinted registered₂⟩

namespace Piece

theorem offset_add (ps : List Piece) (a b : Nat) :
    offset ps (a + b) = offset ps a + offset (ps.drop a) b := by
  rw [offset, offset, offset, List.take_add, join_append, List.length_append]

theorem offset_take_of_le (ps : List Piece) {j k : Nat} (within : j ≤ k) :
    offset (ps.take k) j = offset ps j := by
  rw [offset, offset, List.take_take, Nat.min_eq_left within]

/-- The base of a power ends the text before its `^`: it starts at the offset of its first
piece. -/
theorem offset_sub_length_drop (ps : List Piece) {j k : Nat} (within : j ≤ k) :
    offset ps k - (join ((ps.take k).drop j)).length = offset ps j := by
  rw [← offset_take_of_le ps within, offset, offset, ← join_take_append_drop (ps.take k) j,
    List.length_append]
  omega

theorem drop_offset_join_take (ps : List Piece) {j k : Nat} (within : j ≤ k) :
    (join (ps.take k)).drop (offset ps j) = join ((ps.take k).drop j) := by
  rw [← offset_take_of_le ps within, drop_join]

/-- Replacing the text of a stretch of pieces by a placeholder replaces the stretch by one
piece. -/
theorem splice_offset (ps : List Piece) (a b n : Nat) :
    Text.splice (join ps) (offset ps a) (offset ps b) (placeholderText n) =
      join (ps.take a ++ held n :: ps.drop b) := by
  rw [Text.splice, take_join, drop_join, join_append, join_cons, text_held, List.append_assoc]

/-- The text after a character piece starts one character after the piece. -/
theorem offset_after_char {ps : List Piece} {k : Nat} {c : Char} (atK : ps[k]? = some (char c)) :
    offset ps k + 1 = offset ps (k + 1) := by
  rw [offset_succ atK, text_char, List.length_singleton]

/-- Replacing a power by a placeholder replaces its pieces by one piece. -/
theorem splice_join {ps : List Piece} {k : Nat} (atK : ps[k]? = some (char '^')) (j i n : Nat) :
    Text.splice (join ps) (offset ps j) (offset ps k + 1 + offset (ps.drop (k + 1)) i)
      (placeholderText n) = join (ps.take j ++ held n :: ps.drop (k + 1 + i)) := by
  rw [offset_after_char atK, ← offset_add, splice_offset]

/-- The numbers of a stretch inside another are numbers of the other. -/
theorem numbers_stretch_subset (ps : List Piece) {a i m b : Nat} (start : a ≤ i)
    (stop : i + m ≤ b) : numbers ((ps.drop i).take m) ⊆ numbers ((ps.drop a).take (b - a)) := by
  have within :
      List.Sublist (((ps.drop a).drop (i - a)).take m) ((ps.drop a).take (i - a + m)) := by
    rw [List.take_add]
    exact List.sublist_append_right _ _
  rw [List.drop_drop, show a + (i - a) = i by omega] at within
  exact ((within.trans (List.take_sublist_take_left (by omega))).filterMap _).subset

theorem numbers_take_drop_subset (ps : List Piece) (i m : Nat) :
    numbers ((ps.drop i).take m) ⊆ numbers ps :=
  (((List.take_sublist _ _).trans (List.drop_sublist _ _)).filterMap _).subset

/-- The numbers of a power's base and exponent are numbers of the stretch the power covers. -/
theorem numbers_power_subset (ps : List Piece) {j k : Nat} (within : j ≤ k) (i : Nat) :
    numbers ((ps.take k).drop j) ++ numbers ((ps.drop (k + 1)).take i) ⊆
      numbers ((ps.drop j).take (k + 1 + i - j)) := by
  intro n listed
  rcases List.mem_append.mp listed with base | exponent
  · rw [List.drop_take] at base
    exact numbers_stretch_subset ps (Nat.le_refl j) (by omega) base
  · exact numbers_stretch_subset ps (by omega) (Nat.le_refl _) exponent

/-- The placeholders of a power's exponent, after its `^`, are none of its base's. -/
theorem numbers_operands_apart {ps : List Piece} (distinct : (numbers ps).Nodup) (j k i : Nat) :
    ∀ n ∈ numbers ((ps.drop (k + 1)).take i), n ∉ numbers ((ps.take k).drop j) :=
  fun n later earlier => numbers_apart distinct (Nat.le_succ k) n
    (((List.take_sublist _ _).filterMap _).subset later)
    (((List.drop_sublist _ _).filterMap _).subset earlier)

end Piece

/-! ## Runs that take placeholders they minted -/

/-- Placeholders taken again after they were minted need not be counted: the first state never
held them. -/
theorem Workspace.TakesOnly.absorb {scope : Scope} {w v : Workspace} {taken later : List Nat}
    (fresh : w.Fresh) (taking : w.TakesOnly scope (taken ++ later) v)
    (covered : ∀ n ∈ later, n ∈ taken ∨ w.minted < n) : w.TakesOnly scope taken v := by
  have widened : w.TakesOnly scope (taken ++ later.filter (fun n => decide (w.minted < n))) v :=
    taking.mono fun n listed => by
      rcases List.mem_append.mp listed with old | new
      · exact List.mem_append_left _ old
      · rcases covered n new with old | above
        · exact List.mem_append_left _ old
        · exact List.mem_append_right _ (List.mem_filter.mpr ⟨new, by simpa using above⟩)
  exact widened.forget fresh fun n listed => by simpa using (List.mem_filter.mp listed).2

/-- Two runs that folded texts into texts renumbered over the states they reached, each taking
no placeholder but those numbered in its list; the placeholders of the results are those of
the list or new ones. -/
structure Flattened (scope : Scope) (w₁ : Workspace) (taken₁ : List Nat) (w₂ : Workspace)
    (taken₂ : List Nat) (r₁ r₂ : List Char × Workspace) : Prop where
  pieces : ∃ qs₁ qs₂, r₁.1 = join qs₁ ∧ r₂.1 = join qs₂ ∧ Renumbered scope qs₁ r₁.2 qs₂ r₂.2 ∧
    (∀ n ∈ numbers qs₁, n ∈ taken₁ ∨ w₁.minted < n) ∧ ∀ n ∈ numbers qs₂, n ∈ taken₂ ∨ w₂.minted < n
  first : w₁.TakesOnly scope taken₁ r₁.2
  second : w₂.TakesOnly scope taken₂ r₂.2

/-- Runs that flattened after runs that took some placeholders flattened from where those
began, when the placeholders the later runs may take were taken before or are new. -/
theorem Flattened.after {scope : Scope} {w₁ w₂ v₁ v₂ : Workspace}
    {taken₁ taken₂ later₁ later₂ : List Nat} {r₁ r₂ : List Char × Workspace}
    (fresh₁ : w₁.Fresh) (fresh₂ : w₂.Fresh)
    (first : w₁.TakesOnly scope taken₁ v₁) (second : w₂.TakesOnly scope taken₂ v₂)
    (covered₁ : ∀ n ∈ later₁, n ∈ taken₁ ∨ w₁.minted < n)
    (covered₂ : ∀ n ∈ later₂, n ∈ taken₂ ∨ w₂.minted < n)
    (flattened : Flattened scope v₁ later₁ v₂ later₂ r₁ r₂) :
    Flattened scope w₁ taken₁ w₂ taken₂ r₁ r₂ := by
  obtain ⟨qs₁, qs₂, text₁, text₂, renumbered, listed₁, listed₂⟩ := flattened.pieces
  have lift : ∀ {w v : Workspace} {taken later : List Nat}, w.minted ≤ v.minted →
      (∀ n ∈ later, n ∈ taken ∨ w.minted < n) → ∀ {qs : List Piece},
      (∀ n ∈ numbers qs, n ∈ later ∨ v.minted < n) →
      ∀ n ∈ numbers qs, n ∈ taken ∨ w.minted < n := by
    intro w v taken later grown covered qs listed n inQs
    rcases listed n inQs with old | new
    · exact covered n old
    · exact Or.inr (by omega)
  exact ⟨⟨qs₁, qs₂, text₁, text₂, renumbered, lift first.ran.minted covered₁ listed₁,
      lift second.ran.minted covered₂ listed₂⟩,
    (first.trans flattened.first).absorb fresh₁ covered₁,
    (second.trans flattened.second).absorb fresh₂ covered₂⟩

/-- Runs that settled after runs that took some placeholders settled from where those began,
when the placeholders the later runs may take were taken before or are new. -/
theorem Settled.after_new {scope : Scope} {w₁ w₂ v₁ v₂ : Workspace}
    {taken₁ taken₂ later₁ later₂ : List Nat} {r₁ r₂ : Tree × Workspace}
    (fresh₁ : w₁.Fresh) (fresh₂ : w₂.Fresh)
    (first : w₁.TakesOnly scope taken₁ v₁) (second : w₂.TakesOnly scope taken₂ v₂)
    (covered₁ : ∀ n ∈ later₁, n ∈ taken₁ ∨ w₁.minted < n)
    (covered₂ : ∀ n ∈ later₂, n ∈ taken₂ ∨ w₂.minted < n)
    (later : Settled scope v₁ later₁ v₂ later₂ r₁ r₂) : Settled scope w₁ taken₁ w₂ taken₂ r₁ r₂ :=
  ⟨later.same, (first.trans later.first).absorb fresh₁ covered₁,
    (second.trans later.second).absorb fresh₂ covered₂⟩

/-- A spliced text holds the placeholders of the text and the one just minted. -/
theorem numbers_splice_covered {ps : List Piece} {a b : Nat} {w x : Workspace}
    (grown : w.minted ≤ x.minted) :
    ∀ n ∈ numbers (ps.take a ++ held (x.minted + 1) :: ps.drop b),
      n ∈ numbers ps ∨ w.minted < n := by
  intro n listed
  rw [numbers_append, numbers_held_cons] at listed
  rcases List.mem_append.mp listed with before | middle
  · exact Or.inl (((List.take_sublist _ _).filterMap _).subset before)
  · rcases List.mem_cons.mp middle with rfl | after
    · exact Or.inr (by omega)
    · exact Or.inl (((List.drop_sublist _ _).filterMap _).subset after)

/-- Runs that settled after the tree of a group was minted settled from before the group was
resolved, when the group took placeholders of the text and the later runs took only those of
the text or new ones. -/
theorem Settled.after_mint {scope : Scope} {w₁ w₂ u₁ u₂ : Workspace} {t₁ t₂ node₁ node₂ : Tree}
    {taken₁ taken₂ outer₁ outer₂ later₁ later₂ : List Nat} {r₁ r₂ : Tree × Workspace}
    (fresh₁ : w₁.Fresh) (fresh₂ : w₂.Fresh)
    (settled : Settled scope w₁ taken₁ w₂ taken₂ (t₁, u₁) (t₂, u₂))
    (registered₁ : ∀ leaf ∈ node₁.leaves, scope.Registered u₁.occurrences leaf)
    (registered₂ : ∀ leaf ∈ node₂.leaves, scope.Registered u₂.occurrences leaf)
    (within₁ : taken₁ ⊆ outer₁) (within₂ : taken₂ ⊆ outer₂)
    (covered₁ : ∀ n ∈ later₁, n ∈ outer₁ ∨ w₁.minted < n)
    (covered₂ : ∀ n ∈ later₂, n ∈ outer₂ ∨ w₂.minted < n)
    (later : Settled scope (u₁.withMinted node₁) later₁ (u₂.withMinted node₂) later₂ r₁ r₂) :
    Settled scope w₁ outer₁ w₂ outer₂ r₁ r₂ :=
  Settled.after_new fresh₁ fresh₂
    ((settled.first.trans (.mint settled.first.ran.sound registered₁)).mono
      (by simpa using within₁))
    ((settled.second.trans (.mint settled.second.ran.sound registered₂)).mono
      (by simpa using within₂))
    covered₁ covered₂ later

/-! ## Scans for one character -/

/-- The first of a character in the shape of some pieces is at an index of the pieces. -/
theorem Piece.getElem?_of_findIdx? {ps : List Piece} {d : Char} {k : Nat}
    (found : (shape ps).findIdx? (· == d) = some k) : k < ps.length ∧ (shape ps)[k]? = some d := by
  obtain ⟨inside, isD, -⟩ := List.findIdx?_eq_some_iff_getElem.mp found
  refine ⟨by simpa using inside, ?_⟩
  rw [List.getElem?_eq_getElem inside]
  simpa using isD

/-- The first of a character in renumbered texts is a character piece at the same index of
both. -/
theorem Renumbered.found_char {scope : Scope} {ps₁ ps₂ : List Piece} {w₁ w₂ : Workspace}
    (renumbered : Renumbered scope ps₁ w₁ ps₂ w₂) {d : Char} (quiet : Quiet (· == d))
    {pos : Nat} (found : (join ps₁).findIdx? (· == d) = some pos) :
    ∃ k, pos = offset ps₁ k ∧ (join ps₂).findIdx? (· == d) = some (offset ps₂ k) ∧
      ps₁[k]? = some (char d) ∧ ps₂[k]? = some (char d) := by
  rw [findIdx?_join quiet, Option.map_eq_some_iff] at found
  obtain ⟨k, shapeFound, rfl⟩ := found
  have atK := (getElem?_of_findIdx? shapeFound).2
  have notBar : d ≠ '|' := fun bar => by
    have stops := quiet.bar
    simp [bar] at stops
  refine ⟨k, rfl, ?_, getElem?_of_shape atK notBar,
    getElem?_of_shape (by rw [← renumbered.shape_eq]; exact atK) notBar⟩
  rw [findIdx?_join quiet, ← renumbered.shape_eq, shapeFound, Option.map_some]

theorem quiet_caret : Quiet (· == '^') := quiet_beq (by decide) (by decide) (by decide)

theorem quiet_closing : Quiet (· == ')') := quiet_beq (by decide) (by decide) (by decide)

theorem quiet_opening : Quiet (· == '(') := quiet_beq (by decide) (by decide) (by decide)

theorem quiet_operator : Quiet isOperatorChar := by
  intro c placeholderChar
  have quiet : ∀ d : Char, d ≠ '|' → d ≠ '_' → d.isDigit = false → (c == d) = false :=
    fun d notBar notUnderscore notDigit => quiet_beq notBar notUnderscore notDigit c placeholderChar
  unfold isOperatorChar
  rw [quiet '+' (by decide) (by decide) (by decide), quiet '-' (by decide) (by decide) (by decide),
    quiet '*' (by decide) (by decide) (by decide), quiet '/' (by decide) (by decide) (by decide),
    quiet '^' (by decide) (by decide) (by decide)]
  rfl

/-- A text holds a character no placeholder holds exactly when its shape does. -/
theorem contains_join {d : Char} (quiet : Quiet (· == d)) (ps : List Piece) :
    (join ps).contains d = (shape ps).contains d := by
  have flipped : (fun x => d == x) = (· == d) := funext fun x => by
    rw [Bool.eq_iff_iff, beq_iff_eq, beq_iff_eq, eq_comm]
  rw [List.contains_eq_any_beq, List.contains_eq_any_beq, flipped, any_join quiet]

/-! ## Groups read off the shape -/

namespace Piece

/-- The function name before a group is made of the character pieces right before it. -/
theorem spanStart_join {ps : List Piece} {k : Nat} (inside : k ≤ ps.length) :
    offset ps k - ((UnaryFn.suffixOf? (join (ps.take k))).map (·.name.length)).getD 0 =
      offset ps (k - ((UnaryFn.suffixOf? (shape (ps.take k))).map (·.name.length)).getD 0) := by
  cases function : UnaryFn.suffixOf? (shape (ps.take k)) with
  | none =>
    rw [UnaryFn.suffixOf?_join, function]
    rfl
  | some f =>
    rw [UnaryFn.suffixOf?_join, function]
    simp only [Option.map_some, Option.getD_some]
    have suffix := UnaryFn.suffixOf?_suffix
      (show UnaryFn.suffixOf? (join (ps.take k)) = some f by
        rw [UnaryFn.suffixOf?_join]; exact function)
    obtain ⟨front, split⟩ :=
      eq_append_of_suffix_join (List.count_eq_zero.mp (UnaryFn.count_bar_name f)) suffix
    have lengths : k = front.length + f.name.length := by
      have counted := congrArg List.length split
      rw [List.length_take, Nat.min_eq_left inside, List.length_append, List.length_map,
        String.length_toList] at counted
      exact counted
    have before : ps.take front.length = front := by
      rw [show ps.take front.length = (ps.take k).take front.length by
        rw [List.take_take, Nat.min_eq_left (by omega)], split, List.take_left]
    rw [offset, split, join_append, join_map_char, List.length_append, String.length_toList,
      show k - f.name.length = front.length by omega, offset, before, Nat.add_sub_cancel]

/-- The inside of a group is the text of the pieces between its brackets. -/
theorem inside_join {ps : List Piece} {k c : Nat} (atK : ps[k]? = some (char '('))
    (positive : 0 < c) :
    ((join ps).drop (offset ps k + 1)).take (offset ps k + offset (ps.drop k) c - offset ps k - 1) =
      join ((ps.drop (k + 1)).take (c - 1)) := by
  have first : (ps.drop k)[0]? = some (char '(') := by rw [List.getElem?_drop, Nat.add_zero, atK]
  have width : offset (ps.drop k) c = offset (ps.drop (k + 1)) (c - 1) + 1 := by
    rw [show c = 1 + (c - 1) by omega, offset_add, ← offset_after_char first, offset_zero,
      List.drop_drop, Nat.add_sub_cancel_left]
    omega
  rw [Nat.add_sub_cancel_left, width, Nat.add_sub_cancel, offset_after_char atK, drop_join,
    take_join]

/-- The opening brackets inside a group are fewer than those of the whole text. -/
theorem count_shape_inside_lt {ps : List Piece} {k : Nat} {d : Char}
    (atK : (shape ps)[k]? = some d) (m : Nat) :
    (shape ((ps.drop (k + 1)).take m)).count d < (shape ps).count d := by
  rw [shape, List.map_take, List.map_drop]
  exact Text.count_take_drop_lt atK

/-- Trading a stretch that holds a character for a placeholder leaves fewer of it. -/
theorem count_shape_splice_lt {ps : List Piece} {a k b : Nat} {d : Char} (below : a ≤ k)
    (above : k < b) (atK : (shape ps)[k]? = some d) (notBar : d ≠ '|') (n : Nat) :
    (shape (ps.take a ++ held n :: ps.drop b)).count d < (shape ps).count d := by
  have fewer := Text.count_splice_lt below above atK
    (show ['|'].count d = 0 from List.count_eq_zero.mpr (by simpa using notBar))
  rw [Text.splice] at fewer
  simpa [shape, List.map_take, List.map_drop] using fewer

end Piece

section Groups

variable (scope : Scope)

/-- The bracket pass over a text of pieces, read off its shape: the first group is resolved
and traded, with the function named before it, for a placeholder piece. -/
theorem resolveExpression_join_group {ps : List Piece} {k c : Nat}
    (found : (shape ps).findIdx? (· == '(') = some k)
    (closes : closingOffset (shape (ps.drop k)) 0 0 = some c) :
    resolveExpression scope (join ps) = (do
      let inner ← resolveExpression scope (join ((ps.drop (k + 1)).take (c - 1)))
      let n ← mint ((UnaryFn.suffixOf? (shape (ps.take k))).elim inner (Tree.unary · inner))
      resolveExpression scope (join (ps.take (k -
        ((UnaryFn.suffixOf? (shape (ps.take k))).map (·.name.length)).getD 0) ++
          held n :: ps.drop (k + c + 1)))) := by
  obtain ⟨inside, opens, -⟩ := List.findIdx?_eq_some_iff_getElem.mp found
  have shapeOpening : (shape ps)[k]? = some '(' := by
    rw [List.getElem?_eq_getElem inside]
    simpa using opens
  have atK := getElem?_of_shape shapeOpening (by decide)
  obtain ⟨positive, shapeClosing⟩ := closingOffset_group shapeOpening
    (by rw [shape, ← List.map_drop]; exact closes)
  have atClosing := getElem?_of_shape shapeClosing (by decide)
  have textFound : (join ps).findIdx? (· == '(') = some (offset ps k) := by
    rw [findIdx?_join quiet_opening, found, Option.map_some]
  have textCloses : closingOffset ((join ps).drop (offset ps k)) 0 0 =
      some (offset (ps.drop k) c) := by
    rw [drop_join, closingOffset_join, closes, Option.map_some]
  rw [length_shape] at inside
  rw [resolveExpression_of_group textFound textCloses, inside_join atK positive, take_join,
    spanStart_join inside.le, ← offset_add, offset_after_char atClosing, UnaryFn.suffixOf?_join]
  simp only [splice_offset]

/-- A first group that no bracket closes is reported. -/
theorem resolveExpression_join_unclosed {ps : List Piece} {k : Nat}
    (found : (shape ps).findIdx? (· == '(') = some k)
    (unclosed : closingOffset (shape (ps.drop k)) 0 0 = none) (w : Workspace) :
    ∃ e, resolveExpression scope (join ps) w = .error e := by
  have textFound : (join ps).findIdx? (· == '(') = some (offset ps k) := by
    rw [findIdx?_join quiet_opening, found, Option.map_some]
  have textUnclosed : closingOffset ((join ps).drop (offset ps k)) 0 0 = none := by
    rw [drop_join, closingOffset_join, unclosed, Option.map_none]
  rw [resolveExpression_of_unclosed textFound textUnclosed]
  exact ⟨_, rfl⟩

/-- Without groups, what the bracket pass does is read off the shape. -/
theorem resolveExpression_join_none {ps : List Piece}
    (noneFound : (shape ps).findIdx? (· == '(') = none) :
    resolveExpression scope (join ps) =
      if (shape ps).contains ')' then throw (.unbalancedBrackets (String.ofList (join ps)))
      else if (shape ps).any isOperatorChar then resolveOperators scope (join ps)
      else resolveLeaf scope (join ps) := by
  rw [resolveExpression_of_none (by rw [findIdx?_join quiet_opening, noneFound]; rfl),
    contains_join quiet_closing, any_join quiet_operator]

end Groups

/-! ## The passes on renumbered texts -/

section Passes

variable {scope : Scope} (wf : scope.WellFormed)
include wf

/-- The leaves of a power whose operands were resolved one after the other are registered
after both. -/
theorem registered_of_power {w u x : Workspace} {baseText exponentText : List Char} {b e : Tree}
    (sound : w.Sound scope) (first : resolveLeaf scope baseText w = .ok (b, u))
    (second : resolveLeaf scope exponentText u = .ok (e, x)) :
    ∀ leaf ∈ (Tree.binary .pow b e).leaves, scope.Registered x.occurrences leaf := by
  intro leaf listed
  have baseResolved := resolveLeaf_resolved wf _ sound first
  have exponentResolved := resolveLeaf_resolved wf _ baseResolved.ran.sound second
  rcases List.mem_append.mp listed with inBase | inExponent
  · exact exponentResolved.ran.registered (baseResolved.registered leaf inBase)
  · exact exponentResolved.registered leaf inExponent

/-- Renumbered texts have their powers folded alike, into texts renumbered again. -/
theorem resolvePowers_renumbered {ps₁ ps₂ : List Piece} {w₁ w₂ : Workspace}
    (renumbered : Renumbered scope ps₁ w₁ ps₂ w₂) :
    RunsAlike (Flattened scope w₁ (numbers ps₁) w₂ (numbers ps₂))
      (resolvePowers scope (join ps₁) w₁) (resolvePowers scope (join ps₂) w₂) := by
  generalize named : join ps₁ = text
  -- induction along the power pass of the first text
  induction text using resolvePowers.induct generalizing ps₁ ps₂ w₁ w₂ with
  | case1 text noneFound =>
    subst named
    have shapeNone : (shape ps₁).findIdx? (· == '^') = none := by
      rw [findIdx?_join quiet_caret, Option.map_eq_none_iff] at noneFound
      exact noneFound
    have noneFound₂ : (join ps₂).findIdx? (· == '^') = none := by
      rw [findIdx?_join quiet_caret, ← renumbered.shape_eq, shapeNone, Option.map_none]
    rw [resolvePowers_of_none noneFound, resolvePowers_of_none noneFound₂]
    exact ⟨⟨ps₁, ps₂, rfl, rfl, renumbered, fun _ listed => Or.inl listed,
      fun _ listed => Or.inl listed⟩, .refl renumbered.sound₁ _, .refl renumbered.sound₂ _⟩
  | case2 text pos found inductionHypothesis =>
    subst named
    obtain ⟨k, rfl, found₂, atK₁, atK₂⟩ := renumbered.found_char quiet_caret found
    rw [resolvePowers_of_some found, resolvePowers_of_some found₂,
      Resolve.bind_of_ok (Resolve.get_apply w₁), Resolve.bind_of_ok (Resolve.get_apply w₂),
      take_join, take_join, drop_join_succ atK₁, drop_join_succ atK₂]
    rcases trailingAtomLength_renumbered wf (renumbered.take k) with
      ⟨none₁, none₂⟩ | ⟨j, within, base₁, base₂⟩
    · rw [none₁, none₂]
      exact trivial
    rcases leadingAtomLength_renumbered wf (renumbered.drop (k + 1)) with
      ⟨none₁, none₂⟩ | ⟨i, -, exponent₁, exponent₂⟩
    · rw [base₁, base₂, none₁, none₂]
      exact trivial
    rw [base₁, base₂, exponent₁, exponent₂]
    dsimp only
    have ordered : j ≤ k := by
      rw [List.length_take] at within
      omega
    rw [offset_sub_length_drop ps₁ ordered, offset_sub_length_drop ps₂ ordered,
      drop_offset_join_take ps₁ ordered, drop_offset_join_take ps₂ ordered, take_join, take_join]
    refine RunsAlike.bind (resolveLeaf_renumbered ((renumbered.take k).drop j))
      fun base₁ u₁ base₂ u₂ baseRan₁ baseRan₂ baseSettled => ?_
    -- the exponent is after the `^`, apart from the base before it
    have exponentRenumbered := ((renumbered.drop (k + 1)).take i).after baseSettled.first
      baseSettled.second (numbers_operands_apart renumbered.distinct₁ j k i)
      (numbers_operands_apart renumbered.distinct₂ j k i)
    refine RunsAlike.bind (resolveLeaf_renumbered exponentRenumbered)
      fun exponent₁ x₁ exponent₂ x₂ exponentRan₁ exponentRan₂ exponentSettled => ?_
    rw [Resolve.bind_of_ok (mint_apply _ x₁), Resolve.bind_of_ok (mint_apply _ x₂),
      splice_join atK₁, splice_join atK₂]
    have registered₁ := registered_of_power wf renumbered.sound₁ baseRan₁ exponentRan₁
    have registered₂ := registered_of_power wf renumbered.sound₂ baseRan₂ exponentRan₂
    have operands₁ := (baseSettled.first.trans exponentSettled.first).mono
      (numbers_power_subset ps₁ ordered i)
    have operands₂ := (baseSettled.second.trans exponentSettled.second).mono
      (numbers_power_subset ps₂ ordered i)
    have spliced := renumbered.splice_held (show j ≤ k + 1 + i by omega) operands₁ operands₂
      registered₁ registered₂
      (by simp only [Tree.eraseLeaves, baseSettled.same, exponentSettled.same])
    have next := inductionHypothesis _ _ (x₁.minted + 1) spliced
      (by rw [offset_sub_length_drop ps₁ ordered, splice_join atK₁])
    rw [offset_sub_length_drop ps₁ ordered, splice_join atK₁] at next
    exact next.mono fun r₁ r₂ flattened => flattened.after renumbered.sound₁.fresh
      renumbered.sound₂.fresh
      ((operands₁.trans (.mint operands₁.ran.sound registered₁)).mono
        (by simpa using numbers_take_drop_subset ps₁ j (k + 1 + i - j)))
      ((operands₂.trans (.mint operands₂.ran.sound registered₂)).mono
        (by simpa using numbers_take_drop_subset ps₂ j (k + 1 + i - j)))
      (numbers_splice_covered operands₁.ran.minted) (numbers_splice_covered operands₂.ran.minted)

/-- Renumbered texts with operators are resolved alike. -/
theorem resolveOperators_renumbered {ps₁ ps₂ : List Piece} {w₁ w₂ : Workspace}
    (renumbered : Renumbered scope ps₁ w₁ ps₂ w₂) :
    RunsAlike (Settled scope w₁ (numbers ps₁) w₂ (numbers ps₂))
      (resolveOperators scope (join ps₁) w₁) (resolveOperators scope (join ps₂) w₂) := by
  have last₂ : (join ps₂).getLast? = (join ps₁).getLast? := by
    rw [getLast?_join, getLast?_join, renumbered.shape_eq]
  cases last : (join ps₁).getLast? with
  | none =>
    unfold resolveOperators
    rw [last, last₂, last]
    exact trivial
  | some c =>
    rw [last] at last₂
    cases operator : isOperatorChar c with
    | true =>
      unfold resolveOperators
      rw [last, last₂]
      simp only [operator, ↓reduceIte]
      exact trivial
    | false =>
      rw [resolveOperators_of_last last operator, resolveOperators_of_last last₂ operator]
      refine RunsAlike.bind (resolvePowers_renumbered wf renumbered)
        fun flat₁ v₁ flat₂ v₂ _ _ flattened => ?_
      obtain ⟨qs₁, qs₂, text₁, text₂, flat, covered₁, covered₂⟩ := flattened.pieces
      dsimp only at text₁ text₂
      subst text₁ text₂
      exact (resolveSum_renumbered flat).mono fun r₁ r₂ settled =>
        Settled.after_new renumbered.sound₁.fresh renumbered.sound₂.fresh flattened.first
          flattened.second covered₁ covered₂ settled

/-- A group's tree, under the function named before it, has the leaves of its inside, so they
are registered. -/
theorem registered_of_group {w u : Workspace} {text : List Char} {t : Tree} (sound : w.Sound scope)
    (ran : resolveExpression scope text w = .ok (t, u)) (function : Option UnaryFn) :
    ∀ leaf ∈ (function.elim t (Tree.unary · t)).leaves, scope.Registered u.occurrences leaf := by
  have sameLeaves : (function.elim t (Tree.unary · t)).leaves = t.leaves := by
    cases function <;> rfl
  rw [sameLeaves]
  exact (resolveExpression_resolved wf _ sound ran).registered

omit wf in
theorem eraseLeaves_group {t₁ t₂ : Tree} (same : t₁.eraseLeaves = t₂.eraseLeaves)
    (function : Option UnaryFn) :
    (function.elim t₁ (Tree.unary · t₁)).eraseLeaves =
      (function.elim t₂ (Tree.unary · t₂)).eraseLeaves := by
  cases function with
  | none => exact same
  | some f => simp only [Option.elim, Tree.eraseLeaves, same]

/-- One step of the bracket pass in both texts: when the insides of two groups are resolved
alike, taking placeholders of a stretch of renumbered texts, the groups, with the same function
before them, are traded for placeholders over that stretch; so when the texts after the trade are
resolved alike, the whole runs are. -/
theorem trade_group_alike {ps₁ ps₂ : List Piece} {w₁ w₂ : Workspace} {a b : Nat}
    {inner₁ inner₂ : List Char} {taken₁ taken₂ : List Nat} {rest₁ rest₂ : Nat → List Char}
    (renumbered : Renumbered scope ps₁ w₁ ps₂ w₂) (ordered : a ≤ b) (function : Option UnaryFn)
    (insides : RunsAlike (Settled scope w₁ taken₁ w₂ taken₂)
      (resolveExpression scope inner₁ w₁) (resolveExpression scope inner₂ w₂))
    (stretch₁ : taken₁ ⊆ numbers ((ps₁.drop a).take (b - a)))
    (stretch₂ : taken₂ ⊆ numbers ((ps₂.drop a).take (b - a)))
    (next : ∀ (v₁ v₂ : Workspace) (t₁ t₂ : Tree),
      Renumbered scope (ps₁.take a ++ held (v₁.minted + 1) :: ps₁.drop b) (v₁.withMinted t₁)
        (ps₂.take a ++ held (v₂.minted + 1) :: ps₂.drop b) (v₂.withMinted t₂) →
      RunsAlike
        (Settled scope
          (v₁.withMinted t₁) (numbers (ps₁.take a ++ held (v₁.minted + 1) :: ps₁.drop b))
          (v₂.withMinted t₂) (numbers (ps₂.take a ++ held (v₂.minted + 1) :: ps₂.drop b)))
        (resolveExpression scope (rest₁ (v₁.minted + 1)) (v₁.withMinted t₁))
        (resolveExpression scope (rest₂ (v₂.minted + 1)) (v₂.withMinted t₂))) :
    RunsAlike (Settled scope w₁ (numbers ps₁) w₂ (numbers ps₂))
      ((do
        let inner ← resolveExpression scope inner₁
        let n ← mint (function.elim inner (Tree.unary · inner))
        resolveExpression scope (rest₁ n)) w₁)
      ((do
        let inner ← resolveExpression scope inner₂
        let n ← mint (function.elim inner (Tree.unary · inner))
        resolveExpression scope (rest₂ n)) w₂) := by
  refine RunsAlike.bind insides fun t₁ u₁ t₂ u₂ ran₁ ran₂ settled => ?_
  rw [Resolve.bind_of_ok (mint_apply _ u₁), Resolve.bind_of_ok (mint_apply _ u₂)]
  have registered₁ := registered_of_group wf renumbered.sound₁ ran₁ function
  have registered₂ := registered_of_group wf renumbered.sound₂ ran₂ function
  have spliced := renumbered.splice_held ordered (settled.first.mono stretch₁)
    (settled.second.mono stretch₂) registered₁ registered₂ (eraseLeaves_group settled.same function)
  exact (next _ _ _ _ spliced).mono fun r₁ r₂ later =>
    Settled.after_mint renumbered.sound₁.fresh renumbered.sound₂.fresh settled registered₁
      registered₂ (fun n listed => numbers_take_drop_subset ps₁ _ _ (stretch₁ listed))
      (fun n listed => numbers_take_drop_subset ps₂ _ _ (stretch₂ listed))
      (numbers_splice_covered settled.first.ran.minted)
      (numbers_splice_covered settled.second.ran.minted) later

/-- Renumbered texts are resolved alike. -/
theorem resolveExpression_renumbered {ps₁ ps₂ : List Piece} {w₁ w₂ : Workspace}
    (renumbered : Renumbered scope ps₁ w₁ ps₂ w₂) :
    RunsAlike (Settled scope w₁ (numbers ps₁) w₂ (numbers ps₂))
      (resolveExpression scope (join ps₁) w₁) (resolveExpression scope (join ps₂) w₂) := by
  obtain ⟨size, sized⟩ : ∃ size, (shape ps₁).count '(' = size := ⟨_, rfl⟩
  -- strong induction on the opening brackets: the inside of a group and the text after the
  -- trade both have fewer
  induction size using Nat.strongRecOn generalizing ps₁ ps₂ w₁ w₂ with
  | ind size inductionHypothesis =>
  have shapes := renumbered.shape_eq
  cases found : (shape ps₁).findIdx? (· == '(') with
  | none =>
    rw [resolveExpression_join_none scope found,
      resolveExpression_join_none scope (by rw [← shapes]; exact found), ← shapes]
    by_cases closing : (shape ps₁).contains ')' = true
    · rw [if_pos closing, if_pos closing]
      exact trivial
    rw [if_neg closing, if_neg closing]
    by_cases operators : (shape ps₁).any isOperatorChar = true
    · rw [if_pos operators, if_pos operators]
      exact resolveOperators_renumbered wf renumbered
    · rw [if_neg operators, if_neg operators]
      exact resolveLeaf_renumbered renumbered
  | some k =>
    have found₂ : (shape ps₂).findIdx? (· == '(') = some k := by rw [← shapes]; exact found
    cases closes : closingOffset (shape (ps₁.drop k)) 0 0 with
    | none =>
      obtain ⟨e₁, failed₁⟩ := resolveExpression_join_unclosed scope found closes w₁
      obtain ⟨e₂, failed₂⟩ := resolveExpression_join_unclosed scope found₂
        (by rw [← (renumbered.drop k).shape_eq]; exact closes) w₂
      rw [failed₁, failed₂]
      exact trivial
    | some c =>
      have shapeOpening := (getElem?_of_findIdx? found).2
      obtain ⟨positive, -⟩ := closingOffset_group shapeOpening
        (by rw [shape, ← List.map_drop]; exact closes)
      rw [resolveExpression_join_group scope found closes,
        resolveExpression_join_group scope found₂
          (by rw [← (renumbered.drop k).shape_eq]; exact closes),
        ← (renumbered.take k).shape_eq]
      obtain ⟨L, named⟩ :
          ∃ L, ((UnaryFn.suffixOf? (shape (ps₁.take k))).map (·.name.length)).getD 0 = L :=
        ⟨_, rfl⟩
      rw [named]
      -- the inside and the text after the trade both have fewer opening brackets
      exact trade_group_alike wf renumbered (show k - L ≤ k + c + 1 by omega) _
        (inductionHypothesis _ (sized ▸ count_shape_inside_lt shapeOpening (c - 1))
          ((renumbered.drop (k + 1)).take (c - 1)) rfl)
        (numbers_stretch_subset ps₁ (show k - L ≤ k + 1 by omega) (by omega))
        (numbers_stretch_subset ps₂ (show k - L ≤ k + 1 by omega) (by omega))
        fun v₁ v₂ t₁ t₂ spliced => inductionHypothesis _
          (sized ▸ count_shape_splice_lt (show k - L ≤ k by omega) (show k < k + c + 1 by omega)
            shapeOpening (by decide) _) spliced rfl

end Passes

end ComplexFormula
