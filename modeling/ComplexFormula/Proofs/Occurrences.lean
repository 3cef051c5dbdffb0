import ComplexFormula.Resolve.Leaf

/-!
# Finding names and placeholders in a span

The leaf resolver splits a span around the entity it finds first. This module states what
its searches return:

* `indexOf?` gives the first occurrence of a pattern (`indexOf?_eq_some_iff`);
* `matchStarts` lists occurrences only, and always lists the first one;
* `earliestLongest` picks a candidate that starts no later than any other and is the
  longest of those that start with it (`earliestLongest_spec`).

Placeholders `|_n_|` are told apart by their bars and underscores: a text that starts with
one placeholder starts with no other (`eq_of_placeholderText_leading`), and a text that ends
with one placeholder ends with no other (`eq_of_placeholderText_suffix`).
-/

namespace ComplexFormula.Text

/-! ## The first occurrence -/

theorem isPrefixOf_eq_false {pattern text : List Char} (absent : ¬pattern <+: text) :
    pattern.isPrefixOf text = false := by
  cases test : pattern.isPrefixOf text with
  | false => rfl
  | true => exact absurd (List.isPrefixOf_iff_prefix.mp test) absent

/-- `indexOf?` finds the least position where the pattern starts. -/
theorem indexOf?_eq_some_iff {pattern : List Char} (nonempty : pattern ≠ []) (text : List Char)
    (i : Nat) :
    indexOf? pattern text = some i ↔
      pattern <+: text.drop i ∧ ∀ j < i, ¬pattern <+: text.drop j := by
  induction text generalizing i with
  | nil =>
    have notEmpty : pattern.isEmpty = false := List.isEmpty_eq_false_iff.mpr nonempty
    simp only [indexOf?, notEmpty, Bool.false_eq_true, if_false, List.drop_nil,
      List.prefix_nil, nonempty, false_and, reduceCtorEq]
  | cons c rest inductionHypothesis =>
    by_cases atHead : pattern <+: c :: rest
    · simp only [indexOf?, List.isPrefixOf_iff_prefix.mpr atHead, if_true, Option.some.injEq]
      constructor
      · rintro rfl
        exact ⟨atHead, fun j below => absurd below (Nat.not_lt_zero j)⟩
      · rintro ⟨-, earliest⟩
        cases i with
        | zero => rfl
        | succ i => exact absurd atHead (earliest 0 (Nat.succ_pos i))
    · simp only [indexOf?, isPrefixOf_eq_false atHead, Bool.false_eq_true, if_false,
        Option.map_eq_some_iff]
      cases i with
      | zero =>
        simp only [Nat.add_one_ne_zero, and_false, exists_false, List.drop_zero, atHead,
          false_and]
      | succ i =>
        rw [List.drop_succ_cons]
        constructor
        · rintro ⟨found, foundAt, same⟩
          obtain rfl : found = i := by omega
          obtain ⟨occurs, earliest⟩ := (inductionHypothesis found).mp foundAt
          refine ⟨occurs, fun j below => ?_⟩
          cases j with
          | zero => exact atHead
          | succ j => exact earliest j (by omega)
        · rintro ⟨occurs, earliest⟩
          refine ⟨i, (inductionHypothesis i).mpr ⟨occurs, fun j below => ?_⟩, rfl⟩
          exact earliest (j + 1) (by omega)

/-- A pattern that occurs nowhere is not found. -/
theorem indexOf?_eq_none {pattern : List Char} (nonempty : pattern ≠ []) {text : List Char}
    (absent : ∀ j, ¬pattern <+: text.drop j) : indexOf? pattern text = none := by
  cases found : indexOf? pattern text with
  | none => rfl
  | some i => exact absurd ((indexOf?_eq_some_iff nonempty text i).mp found).1 (absent i)

/-! ## Occurrences that do not overlap -/

/-- Every start that `matchStartsFrom` lists is an occurrence, counted from `pos`. -/
theorem occurs_of_mem_matchStartsFrom {pattern : List Char} {text : List Char} {pos skip m : Nat}
    (listed : m ∈ matchStartsFrom pattern text pos skip) :
    pos ≤ m ∧ pattern <+: text.drop (m - pos) := by
  induction text generalizing pos skip with
  | nil => simp [matchStartsFrom] at listed
  | cons c rest inductionHypothesis =>
    -- a start listed later is an occurrence in the rest, one position further
    have later : m ∈ matchStartsFrom pattern rest (pos + 1) (skip - 1) ∨
        m ∈ matchStartsFrom pattern rest (pos + 1) (pattern.length - 1) ∨
        m ∈ matchStartsFrom pattern rest (pos + 1) 0 →
        pos ≤ m ∧ pattern <+: (c :: rest).drop (m - pos) := by
      intro inRest
      have found : pos + 1 ≤ m ∧ pattern <+: rest.drop (m - (pos + 1)) := by
        rcases inRest with inRest | inRest | inRest <;> exact inductionHypothesis inRest
      refine ⟨by omega, ?_⟩
      rw [show m - pos = m - (pos + 1) + 1 by omega, List.drop_succ_cons]
      exact found.2
    unfold matchStartsFrom at listed
    split at listed
    · exact later (Or.inl listed)
    · split at listed
      · next atHead =>
        rcases List.mem_cons.mp listed with rfl | inRest
        · exact ⟨Nat.le_refl m, by simpa using List.isPrefixOf_iff_prefix.mp atHead⟩
        · exact later (Or.inr (Or.inl inRest))
      · exact later (Or.inr (Or.inr listed))

/-- The first occurrence is listed. -/
theorem mem_matchStartsFrom {pattern : List Char} {text : List Char} {pos i : Nat}
    (occurs : pattern <+: text.drop i) (earliest : ∀ j < i, ¬pattern <+: text.drop j)
    (nonempty : pattern ≠ []) : pos + i ∈ matchStartsFrom pattern text pos 0 := by
  induction text generalizing pos i with
  | nil =>
    simp only [List.drop_nil, List.prefix_nil] at occurs
    exact absurd occurs nonempty
  | cons c rest inductionHypothesis =>
    unfold matchStartsFrom
    simp only [ne_eq, not_true_eq_false, if_false]
    cases i with
    | zero =>
      simp only [List.drop_zero] at occurs
      simp [List.isPrefixOf_iff_prefix.mpr occurs]
    | succ i =>
      have atHead := earliest 0 (Nat.succ_pos i)
      simp only [List.drop_zero] at atHead
      rw [isPrefixOf_eq_false atHead]
      simp only [Bool.false_eq_true, if_false]
      rw [show pos + (i + 1) = pos + 1 + i by omega]
      refine inductionHypothesis (by simpa using occurs) (fun j below => ?_)
      simpa using earliest (j + 1) (by omega)

theorem occurs_of_mem_matchStarts {pattern text : List Char} {m : Nat}
    (listed : m ∈ matchStarts pattern text) : pattern <+: text.drop m := by
  unfold matchStarts at listed
  split at listed
  · cases listed
  · simpa using (occurs_of_mem_matchStartsFrom listed).2

theorem mem_matchStarts {pattern text : List Char} {i : Nat} (nonempty : pattern ≠ [])
    (occurs : pattern <+: text.drop i) (earliest : ∀ j < i, ¬pattern <+: text.drop j) :
    i ∈ matchStarts pattern text := by
  have notEmpty : pattern.isEmpty = false := List.isEmpty_eq_false_iff.mpr nonempty
  simpa [matchStarts, notEmpty] using
    @mem_matchStartsFrom pattern text 0 i occurs earliest nonempty

/-- The characters of a span: the text with what comes before and after it cut off. -/
theorem slice_append (front middle back : List Char) :
    slice (front ++ middle ++ back) front.length (front.length + middle.length) = middle := by
  simp [slice, List.drop_left', List.take_left']

end ComplexFormula.Text

namespace ComplexFormula

/-! ## The earliest and longest candidate -/

/-- Candidate `a` comes before `b` or starts with it and is at least as long. -/
def Beats {α : Type} (a b : Nat × Nat × α) : Prop :=
  a.1 < b.1 ∨ (a.1 = b.1 ∧ b.2.1 ≤ a.2.1)

theorem earliestLongest_nil {α : Type} : earliestLongest ([] : List (Nat × Nat × α)) = none := rfl

/-- Of nonempty candidates, `earliestLongest` picks one that beats all of them. -/
theorem earliestLongest_spec {α : Type} {candidates : List (Nat × Nat × α)}
    (nonempty : candidates ≠ []) :
    ∃ best ∈ candidates, earliestLongest candidates = some best ∧
      ∀ c ∈ candidates, Beats best c := by
  obtain ⟨first, rest, rfl⟩ := List.exists_cons_of_ne_nil nonempty
  clear nonempty
  unfold earliestLongest
  simp only [List.foldl_cons]
  -- the fold keeps a best candidate so far; induction on the candidates still to see
  induction rest generalizing first with
  | nil => exact ⟨first, List.mem_singleton_self first, rfl, by simp [Beats]⟩
  | cons next rest inductionHypothesis =>
    simp only [List.foldl_cons]
    split
    · next better =>
      obtain ⟨best, chosen, found, beatsAll⟩ := inductionHypothesis next
      refine ⟨best, List.mem_cons_of_mem first chosen, found, ?_⟩
      intro c listed
      rcases List.mem_cons.mp listed with rfl | later
      · have overNext := beatsAll next List.mem_cons_self
        unfold Beats at overNext ⊢
        omega
      · exact beatsAll c later
    · next notBetter =>
      obtain ⟨best, chosen, found, beatsAll⟩ := inductionHypothesis first
      refine ⟨best, ?_, found, ?_⟩
      · rcases List.mem_cons.mp chosen with rfl | later
        · exact List.mem_cons_self
        · exact List.mem_cons_of_mem first (List.mem_cons_of_mem next later)
      · intro c listed
        rcases List.mem_cons.mp listed with rfl | later
        · exact beatsAll c List.mem_cons_self
        · rcases List.mem_cons.mp later with rfl | evenLater
          · have overFirst := beatsAll first List.mem_cons_self
            unfold Beats at overFirst ⊢
            omega
          · exact beatsAll c (List.mem_cons_of_mem first evenLater)

/-- When one candidate covers a whole stretch and no candidate reaches outside it, the
earliest and longest candidate covers the same stretch. -/
theorem earliestLongest_whole {α : Type} {candidates : List (Nat × Nat × α)} {start length : Nat}
    {x : α} (listed : (start, length, x) ∈ candidates)
    (confined : ∀ c ∈ candidates, start ≤ c.1 ∧ c.1 + c.2.1 ≤ start + length) :
    ∃ best ∈ candidates, earliestLongest candidates = some best ∧
      best.1 = start ∧ best.2.1 = length := by
  obtain ⟨best, chosen, found, beatsAll⟩ := earliestLongest_spec (List.ne_nil_of_mem listed)
  have overWhole := beatsAll _ listed
  have inside := confined best chosen
  unfold Beats at overWhole
  dsimp only at overWhole
  exact ⟨best, chosen, found, by omega, by omega⟩

/-- A span that is nonempty and fits is a span. -/
theorem Span.of?_eq_some {text : List Char} {start length : Nat} (nonempty : 0 < length)
    (fits : start + length ≤ text.length) :
    ∃ span, Span.of? text start length = some span ∧ span.start = start ∧ span.length = length :=
  ⟨⟨start, length, nonempty, fits⟩, by simp [Span.of?, nonempty, fits], rfl, rfl⟩

/-! ## Placeholders -/

/-- A character that stands once in each of two equal texts, with nothing of it in front,
splits both in the same place. -/
theorem append_cons_inj {c : Char} {front front' back back' : List Char} (absent : c ∉ front)
    (absent' : c ∉ front') (same : front ++ c :: back = front' ++ c :: back') :
    front = front' ∧ back = back' := by
  induction front generalizing front' with
  | nil =>
    cases front' with
    | nil => exact ⟨rfl, (List.cons.inj same).2⟩
    | cons d rest =>
      obtain ⟨rfl, -⟩ := List.cons.inj same
      exact absurd List.mem_cons_self absent'
  | cons a front inductionHypothesis =>
    cases front' with
    | nil =>
      obtain ⟨rfl, -⟩ := List.cons.inj same
      exact absurd List.mem_cons_self absent
    | cons b rest =>
      obtain ⟨rfl, tails⟩ := List.cons.inj same
      obtain ⟨rfl, rfl⟩ := inductionHypothesis (fun mem => absent (List.mem_cons_of_mem a mem))
        (fun mem => absent' (List.mem_cons_of_mem a mem)) tails
      exact ⟨rfl, rfl⟩

theorem toDigits_injective {m n : Nat} (same : Nat.toDigits 10 m = Nat.toDigits 10 n) : m = n := by
  have fromM := @Nat.ofDigitChars_ten_toDigits m
  have fromN := @Nat.ofDigitChars_ten_toDigits n
  rw [same] at fromM
  exact fromM.symm.trans fromN

/-- The digits of two placeholders end at their first underscore. -/
theorem eq_of_toDigits_append {m n : Nat} {back back' : List Char}
    (same : Nat.toDigits 10 m ++ '_' :: back = Nat.toDigits 10 n ++ '_' :: back') :
    m = n ∧ back = back' := by
  obtain ⟨digits, rest⟩ :=
    append_cons_inj Nat.underscore_not_in_toDigits Nat.underscore_not_in_toDigits same
  exact ⟨toDigits_injective digits, rest⟩

theorem bar_not_mem_toDigits (n : Nat) : '|' ∉ Nat.toDigits 10 n := fun mem => by
  have digit := Nat.isDigit_of_mem_toDigits (by decide) (by decide) mem
  exact absurd digit (by decide)

theorem placeholderText_eq (n : Nat) :
    placeholderText n = '|' :: '_' :: (Nat.toDigits 10 n ++ ['_', '|']) := rfl

/-- A placeholder holds two bars. -/
theorem count_bar_placeholderText (n : Nat) : (placeholderText n).count '|' = 2 := by
  rw [placeholderText_eq]
  simp [List.count_eq_zero.mpr (bar_not_mem_toDigits n)]

/-- A placeholder is the only placeholder a text can start with when it starts with it. -/
theorem eq_of_placeholderText_leading {m n : Nat} {rest : List Char}
    (leading : placeholderText m <+: placeholderText n ++ rest) : m = n := by
  obtain ⟨post, same⟩ := leading
  simp only [placeholderText_eq, List.cons_append, List.append_assoc, List.cons.injEq, true_and]
    at same
  exact (eq_of_toDigits_append same).1

/-- A text that ends with a placeholder ends with no other. -/
theorem eq_of_placeholderText_suffix {front : List Char} {m n : Nat}
    (suffix : placeholderText m <:+ front ++ placeholderText n) : m = n := by
  obtain ⟨pre, same⟩ := suffix
  have reversed := congrArg List.reverse same
  simp only [List.reverse_append, placeholderText, List.reverse_cons, List.reverse_nil,
    List.nil_append, List.cons_append, List.append_assoc, List.cons.injEq, true_and] at reversed
  have digits := (append_cons_inj (fun mem => Nat.underscore_not_in_toDigits
    (List.mem_reverse.mp mem)) (fun mem => Nat.underscore_not_in_toDigits (List.mem_reverse.mp mem))
    reversed).1
  exact toDigits_injective (List.reverse_inj.mp digits)

end ComplexFormula
