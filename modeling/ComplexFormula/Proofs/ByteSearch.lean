import ComplexFormula.Proofs.ByteScans
import ComplexFormula.Proofs.Reordering
import ComplexFormula.Proofs.Cuts

/-!
# Names found over bytes

The leaf resolver finds names by searching bytes: the first occurrence of each, and the
occurrences that do not overlap.
An encoded name found in an encoded text starts at a character boundary and is found there as
characters (`Text.occurs_utf8`), so the byte searches find the byte offsets of the occurrences
the character searches find (`find?_utf8`, `matchStarts_utf8`), and a leaf is split around the
same entity, at the byte offsets of its span (`findEntity_utf8`).
-/

namespace ComplexFormula.Bytes

open Text (utf8 byteOffset)

/-! ## The first occurrence -/

/-- A nonempty name found at a position ends within the text. -/
theorem add_length_le_of_occurs {name text : List Char} {m : Nat} (nonempty : name ≠ [])
    (occurs : name <+: text.drop m) : m + name.length ≤ text.length := by
  have fits := occurs.length_le
  rw [List.length_drop] at fits
  have := List.length_pos_of_ne_nil nonempty
  omega

/-- An encoded name found at a byte offset of an encoded text is found there as characters,
at the offset of a character position. -/
theorem prefix_drop_utf8_iff {pattern text : List Char} (nonempty : pattern ≠ []) (b : Nat) :
    utf8 pattern <+: (utf8 text).drop b ↔
      ∃ k ≤ text.length, byteOffset text k = b ∧ pattern <+: text.drop k := by
  constructor
  · rintro ⟨rest, spelled⟩
    exact Text.occurs_utf8 nonempty spelled.symm
  · rintro ⟨k, -, rfl, occurs⟩
    rw [Text.drop_utf8_byteOffset]
    exact (Text.prefix_utf8_iff _ _).mpr occurs

theorem find?_utf8 {pattern : List Char} (nonempty : pattern ≠ []) (text : List Char) :
    find? (utf8 pattern) (utf8 text) = (Text.indexOf? pattern text).map (byteOffset text) := by
  apply Option.ext
  intro b
  rw [find?, List.find?_range_eq_some, Option.map_eq_some_iff, List.mem_range]
  simp only [List.isPrefixOf_iff_prefix, Bool.not_eq_true']
  constructor
  · rintro ⟨occurs, -, earliest⟩
    obtain ⟨k, inside, rfl, occursChars⟩ := (prefix_drop_utf8_iff nonempty b).mp occurs
    refine ⟨k, (Text.indexOf?_eq_some_iff nonempty text k).mpr ⟨occursChars, ?_⟩, rfl⟩
    intro j before occursJ
    have earlier := (prefix_drop_utf8_iff nonempty _).mpr ⟨j, by omega, rfl, occursJ⟩
    rw [← List.isPrefixOf_iff_prefix,
      earliest (byteOffset text j) (Text.byteOffset_lt_byteOffset before inside)] at earlier
    cases earlier
  · rintro ⟨k, found, rfl⟩
    obtain ⟨occurs, earliest⟩ := (Text.indexOf?_eq_some_iff nonempty text k).mp found
    have inside : k ≤ text.length :=
      Nat.le_of_add_right_le (add_length_le_of_occurs nonempty occurs)
    refine ⟨(prefix_drop_utf8_iff nonempty _).mpr ⟨k, inside, rfl, occurs⟩, ?_, ?_⟩
    · have := Text.byteOffset_mono text inside
      rw [Text.byteOffset_length] at this
      omega
    · intro b' before
      cases test : (utf8 pattern).isPrefixOf ((utf8 text).drop b') with
      | false => rfl
      | true =>
        obtain ⟨j, -, rfl, occursJ⟩ :=
          (prefix_drop_utf8_iff nonempty b').mp (List.isPrefixOf_iff_prefix.mp test)
        exact absurd occursJ (earliest j ((Text.byteOffset_lt_byteOffset_iff inside).mp before))

/-! ## Occurrences that do not overlap -/

section Matches

variable {P : List UInt8}

/-- Bytes still covered by the last occurrence are passed over. -/
theorem matchStartsFrom_append_covered (xs rest : List UInt8) (pos skip : Nat)
    (covered : xs.length ≤ skip) :
    matchStartsFrom P (xs ++ rest) pos skip =
      matchStartsFrom P rest (pos + xs.length) (skip - xs.length) := by
  induction xs generalizing pos skip with
  | nil => rfl
  | cons x xs inductionHypothesis =>
    simp only [List.length_cons] at covered
    rw [List.cons_append, matchStartsFrom, if_pos (by omega),
      inductionHypothesis (pos + 1) (skip - 1) (by omega)]
    simp only [List.length_cons]
    congr 1 <;> omega

/-- Bytes that continue a character start no occurrence of a pattern that starts one. -/
theorem matchStartsFrom_append_continuing (xs rest : List UInt8) (pos : Nat)
    (continuing : ∀ x ∈ xs, Text.startsChar x = false) {y : UInt8} {ys : List UInt8}
    (pattern : P = y :: ys) (starts : Text.startsChar y = true) :
    matchStartsFrom P (xs ++ rest) pos 0 = matchStartsFrom P rest (pos + xs.length) 0 := by
  induction xs generalizing pos with
  | nil => rfl
  | cons x xs inductionHypothesis =>
    have differ : (y == x) = false := by
      rw [beq_eq_false_iff_ne]
      rintro rfl
      rw [continuing y List.mem_cons_self] at starts
      cases starts
    rw [List.cons_append, matchStartsFrom, if_neg (by omega), pattern, List.isPrefixOf_cons_cons,
      differ, Bool.false_and, if_neg Bool.false_ne_true, ← pattern,
      inductionHypothesis (pos + 1) fun x' mem => continuing x' (List.mem_cons_of_mem x mem)]
    simp only [List.length_cons]
    congr 1
    omega

end Matches

/-- Every occurrence of a name, searched for over bytes from a character position while the
last one still covers some characters, is the byte offset of the occurrence searched for over
characters. -/
theorem matchStartsFrom_utf8 {pattern : List Char} (nonempty : pattern ≠ []) (text : List Char)
    (pos posB skip : Nat) (covered : skip ≤ text.length) :
    matchStartsFrom (utf8 pattern) (utf8 text) posB (byteOffset text skip) =
      (Text.matchStartsFrom pattern text pos skip).map fun m =>
        posB + byteOffset text (m - pos) := by
  obtain ⟨y, ys, patternBytes, startsY⟩ :
      ∃ y ys, utf8 pattern = y :: ys ∧ Text.startsChar y = true := by
    obtain ⟨c, rest, rfl⟩ := List.exists_cons_of_ne_nil nonempty
    obtain ⟨y, ys, encoded, starts⟩ := Text.startsChar_head_utf8EncodeChar c
    exact ⟨y, ys ++ utf8 rest, by rw [Text.utf8_cons, encoded, List.cons_append], starts⟩
  induction text generalizing pos posB skip with
  | nil => rfl
  | cons c rest inductionHypothesis =>
    obtain ⟨e, es, encoded, -⟩ := Text.startsChar_head_utf8EncodeChar c
    have continuing : ∀ x ∈ es, Text.startsChar x = false := by
      have := Text.startsChar_tail_utf8EncodeChar c
      rwa [encoded, List.tail_cons] at this
    have size : c.utf8Size = es.length + 1 := by
      rw [← String.length_utf8EncodeChar, encoded, List.length_cons]
    have bytes : utf8 (c :: rest) = e :: (es ++ utf8 rest) := by
      rw [Text.utf8_cons, encoded, List.cons_append]
    -- the starts found in the rest are one character further on
    have shifted : ∀ s, (Text.matchStartsFrom pattern rest (pos + 1) s).map
        (fun m => posB + c.utf8Size + byteOffset rest (m - (pos + 1))) =
        (Text.matchStartsFrom pattern rest (pos + 1) s).map
          (fun m => posB + byteOffset (c :: rest) (m - pos)) := by
      intro s
      apply List.map_congr_left
      intro m listed
      have later := (Text.occurs_of_mem_matchStartsFrom listed).1
      rw [show m - pos = m - (pos + 1) + 1 by omega, Text.byteOffset_cons_succ]
      omega
    simp only [List.length_cons] at covered
    cases skip with
    | succ s =>
      -- the character is still covered by the last occurrence
      rw [Text.byteOffset_cons_succ, Text.matchStartsFrom, if_pos (Nat.succ_ne_zero s),
        Text.utf8_cons, matchStartsFrom_append_covered _ _ _ _
          (by rw [String.length_utf8EncodeChar]; omega),
        String.length_utf8EncodeChar, Nat.add_sub_cancel_left,
        inductionHypothesis (pos + 1) (posB + c.utf8Size) s (by omega), Nat.add_sub_cancel]
      exact shifted s
    | zero =>
      rw [Text.byteOffset_zero, Text.matchStartsFrom, if_neg (by omega), bytes, matchStartsFrom,
        if_neg (by omega), ← bytes]
      by_cases occurs : pattern <+: c :: rest
      · -- an occurrence starts here; its other characters are passed over
        obtain ⟨after, rfl⟩ : ∃ after, pattern = c :: after := by
          obtain ⟨d, after, rfl⟩ := List.exists_cons_of_ne_nil nonempty
          exact ⟨after, by rw [(List.cons_prefix_cons.mp occurs).1]⟩
        have afterOccurs : after <+: rest := (List.cons_prefix_cons.mp occurs).2
        have afterBytes : byteOffset rest after.length = (utf8 after).length := by
          rw [byteOffset, ← List.prefix_iff_eq_take.mp afterOccurs]
        rw [if_pos (List.isPrefixOf_iff_prefix.mpr ((Text.prefix_utf8_iff _ _).mpr occurs)),
          if_pos (List.isPrefixOf_iff_prefix.mpr occurs), List.map_cons, Nat.sub_self,
          Text.byteOffset_zero, Nat.add_zero, matchStartsFrom_append_covered _ _ _ _
            (by rw [Text.utf8_cons, encoded]; simp),
          show (utf8 (c :: after)).length - 1 - es.length = byteOffset rest after.length by
            rw [afterBytes, Text.utf8_cons, encoded]; simp,
          inductionHypothesis (pos + 1) (posB + 1 + es.length) after.length
            (afterOccurs.length_le), List.length_cons, Nat.add_sub_cancel]
        rw [show posB + 1 + es.length = posB + c.utf8Size by omega]
        exact congrArg _ (shifted after.length)
      · -- no occurrence starts here, nor inside the character's bytes
        have absent : (utf8 pattern).isPrefixOf (utf8 (c :: rest)) = false := by
          cases test : (utf8 pattern).isPrefixOf (utf8 (c :: rest)) with
          | false => rfl
          | true =>
            exact absurd ((Text.prefix_utf8_iff _ _).mp (List.isPrefixOf_iff_prefix.mp test)) occurs
        rw [absent, Text.isPrefixOf_eq_false occurs, if_neg Bool.false_ne_true,
          if_neg Bool.false_ne_true,
          matchStartsFrom_append_continuing _ _ _ continuing patternBytes startsY,
          ← Text.byteOffset_zero rest, inductionHypothesis (pos + 1) (posB + 1 + es.length) 0
            (Nat.zero_le _)]
        rw [show posB + 1 + es.length = posB + c.utf8Size by omega]
        exact shifted 0

/-- The occurrences of a name that do not overlap, searched for over bytes, are at the byte
offsets of those searched for over characters. -/
theorem matchStarts_utf8 {pattern : List Char} (nonempty : pattern ≠ []) (text : List Char) :
    matchStartsFrom (utf8 pattern) (utf8 text) 0 0 =
      (Text.matchStarts pattern text).map (byteOffset text) := by
  have whole := matchStartsFrom_utf8 nonempty text 0 0 0 (Nat.zero_le _)
  rw [Text.byteOffset_zero] at whole
  rw [whole, Text.matchStarts, if_neg (by simpa using nonempty)]
  simp

/-! ## Candidates -/

/-- A candidate read off a text: a nonempty name, found at the candidate's start, with the
name's length. -/
def Found (text : List Char) (c : Nat × Nat × List Char) : Prop :=
  c.2.2 ≠ [] ∧ c.2.1 = c.2.2.length ∧ c.2.2 <+: text.drop c.1

/-- The candidate a byte search reads off the encoded text in place of a character search's. -/
def Found.bytes (text : List Char) (c : Nat × Nat × List Char) : Nat × Nat × List Char :=
  (byteOffset text c.1, (utf8 c.2.2).length, c.2.2)

theorem Found.fits {text : List Char} {c : Nat × Nat × List Char} (found : Found text c) :
    c.1 + c.2.1 ≤ text.length := by
  rw [found.2.1]
  exact add_length_le_of_occurs found.1 found.2.2

/-- The byte offset where a name that occurs at a character position ends. -/
theorem byteOffset_add_length_utf8 {name text : List Char} {m : Nat}
    (occurs : name <+: text.drop m) :
    byteOffset text m + (utf8 name).length = byteOffset text (m + name.length) := by
  rw [Text.byteOffset_add]
  congr 1
  rw [byteOffset, ← List.prefix_iff_eq_take.mp occurs]

theorem Found.end_bytes {text : List Char} {c : Nat × Nat × List Char} (found : Found text c) :
    byteOffset text c.1 + (utf8 c.2.2).length = byteOffset text (c.1 + c.2.1) := by
  rw [found.2.1]
  exact byteOffset_add_length_utf8 found.2.2

/-- Of two names found at one start, the longer has more bytes. -/
theorem length_utf8_lt_iff_of_common_start {xs ys zs : List Char} (left : xs <+: zs)
    (right : ys <+: zs) : (utf8 xs).length < (utf8 ys).length ↔ xs.length < ys.length := by
  constructor
  · intro fewer
    by_contra notShorter
    obtain ⟨rest, rfl⟩ := List.prefix_of_prefix_length_le right left (by omega)
    rw [Text.utf8_append, List.length_append] at fewer
    omega
  · intro shorter
    obtain ⟨rest, rfl⟩ := List.prefix_of_prefix_length_le left right (by omega)
    have more := Text.length_le_length_utf8 rest
    rw [List.length_append] at shorter
    rw [Text.utf8_append, List.length_append]
    omega

/-- The pick among some candidates and one more: the new one wins if it starts earlier, or
with the pick and is longer. -/
theorem earliestLongest_append_singleton {α : Type} (candidates : List (Nat × Nat × α))
    (c : Nat × Nat × α) :
    earliestLongest (candidates ++ [c]) =
      match earliestLongest candidates with
      | none => some c
      | some b => if c.1 < b.1 ∨ (c.1 = b.1 ∧ b.2.1 < c.2.1) then some c else some b := by
  unfold earliestLongest
  rw [List.foldl_append]
  rfl

/-- `earliestLongest` picks the image of its pick when the map keeps which candidate it
prefers. -/
theorem earliestLongest_map {α β : Type} {f : Nat × Nat × α → Nat × Nat × β}
    {candidates : List (Nat × Nat × α)}
    (keeps : ∀ a ∈ candidates, ∀ b ∈ candidates,
      (a.1 < b.1 ∨ (a.1 = b.1 ∧ b.2.1 < a.2.1)) ↔
        ((f a).1 < (f b).1 ∨ ((f a).1 = (f b).1 ∧ (f b).2.1 < (f a).2.1))) :
    earliestLongest (candidates.map f) = (earliestLongest candidates).map f := by
  -- the fold reads the candidates from the left: induction on the last one
  induction candidates using List.reverseRecOn with
  | nil => rfl
  | append_singleton l c inductionHypothesis =>
    have inC : c ∈ l ++ [c] := List.mem_append_right l (List.mem_singleton_self c)
    have before := inductionHypothesis fun a listedA b listedB =>
      keeps a (List.mem_append_left _ listedA) b (List.mem_append_left _ listedB)
    rw [List.map_append, List.map_singleton, earliestLongest_append_singleton,
      earliestLongest_append_singleton, before]
    cases picked : earliestLongest l with
    | none => rfl
    | some b =>
      have inB := List.mem_append_left [c] (mem_of_earliestLongest picked)
      simp only [Option.map_some]
      by_cases better : c.1 < b.1 ∨ (c.1 = b.1 ∧ b.2.1 < c.2.1)
      · rw [if_pos better, if_pos ((keeps c inC b inB).mp better)]
        rfl
      · rw [if_neg better, if_neg (mt (keeps c inC b inB).mpr better)]
        rfl

/-- Candidates found in a text are compared the same by their bytes. -/
theorem earliestLongest_bytes {text : List Char} {candidates : List (Nat × Nat × List Char)}
    (found : ∀ c ∈ candidates, Found text c) :
    earliestLongest (candidates.map (Found.bytes text)) =
      (earliestLongest candidates).map (Found.bytes text) := by
  apply earliestLongest_map
  intro a listedA b listedB
  have foundA := found a listedA
  have foundB := found b listedB
  have fitsA := foundA.fits
  have fitsB := foundB.fits
  have before : byteOffset text a.1 < byteOffset text b.1 ↔ a.1 < b.1 :=
    Text.byteOffset_lt_byteOffset_iff (by omega)
  -- of two names found at one start, the longer has more bytes
  have longer : a.1 = b.1 → ((utf8 b.2.2).length < (utf8 a.2.2).length ↔ b.2.1 < a.2.1) := by
    intro start
    rw [foundA.2.1, foundB.2.1]
    exact length_utf8_lt_iff_of_common_start foundB.2.2 (start ▸ foundA.2.2)
  simp only [Found.bytes]
  constructor
  · rintro (earlier | ⟨start, more⟩)
    · exact Or.inl (before.mpr earlier)
    · exact Or.inr ⟨congrArg (byteOffset text) start, (longer start).mpr more⟩
  · rintro (earlier | ⟨start, more⟩)
    · exact Or.inl (before.mp earlier)
    · have sameStart := Text.byteOffset_injective (by omega) (by omega) start
      exact Or.inr ⟨sameStart, (longer sameStart).mp more⟩

/-- The first occurrences of names, searched for over bytes, are those searched for over
characters, at their byte offsets. -/
theorem firstOccurrences_utf8 (names : List (List Char)) (text : List Char) :
    firstOccurrences names (utf8 text) =
      (ComplexFormula.firstOccurrences names text).map (Found.bytes text) := by
  unfold firstOccurrences ComplexFormula.firstOccurrences
  rw [List.map_filterMap]
  apply List.filterMap_congr
  intro name kept
  have nonempty : name ≠ [] := by simpa using (List.mem_filter.mp kept).2
  rw [find?_utf8 nonempty, Option.map_map, Option.map_map]
  rfl

theorem found_of_mem_firstOccurrences {names : List (List Char)} {text : List Char}
    {c : Nat × Nat × List Char} (listed : c ∈ ComplexFormula.firstOccurrences names text) :
    Found text c := by
  obtain ⟨-, lengthOf, occurs⟩ := firstOccurrences_occurs listed
  unfold ComplexFormula.firstOccurrences at listed
  obtain ⟨name, kept, made⟩ := List.mem_filterMap.mp listed
  obtain ⟨start, -, rfl⟩ := Option.map_eq_some_iff.mp made
  exact ⟨by simpa using (List.mem_filter.mp kept).2, lengthOf, occurs⟩

/-! ## Ranges taken by variables -/

/-- A range of character positions, read as the range of their byte offsets. -/
def rangeBytes (text : List Char) (range : Nat × Nat) : Nat × Nat :=
  (byteOffset text range.1, byteOffset text range.2)

theorem byteOffset_le_byteOffset_iff {cs : List Char} {j k : Nat} (inside : j ≤ cs.length) :
    byteOffset cs j ≤ byteOffset cs k ↔ j ≤ k := by
  rw [← not_lt, ← not_lt, Text.byteOffset_lt_byteOffset_iff inside]

/-- Whether one range of a text encloses another does not change when both are read in bytes:
byte offsets keep the order of the positions, and a range is longer than one inside it exactly
when it reaches further on one side. -/
theorem encloses_rangeBytes {text : List Char} {outer inner : Nat × Nat}
    (outerFits : outer.1 ≤ outer.2 ∧ outer.2 ≤ text.length)
    (innerFits : inner.1 ≤ inner.2 ∧ inner.2 ≤ text.length) :
    encloses (rangeBytes text outer) (rangeBytes text inner) = encloses outer inner := by
  obtain ⟨a, a'⟩ := outer
  obtain ⟨b, b'⟩ := inner
  simp only at outerFits innerFits
  have starts : byteOffset text a ≤ byteOffset text b ↔ a ≤ b :=
    byteOffset_le_byteOffset_iff (by omega)
  have ends : byteOffset text b' ≤ byteOffset text a' ↔ b' ≤ a' :=
    byteOffset_le_byteOffset_iff (by omega)
  have startsBefore : byteOffset text a < byteOffset text b ↔ a < b :=
    Text.byteOffset_lt_byteOffset_iff (by omega)
  have endsAfter : byteOffset text b' < byteOffset text a' ↔ b' < a' :=
    Text.byteOffset_lt_byteOffset_iff (by omega)
  have innerOrdered := Text.byteOffset_mono text innerFits.1
  dsimp only [encloses, rangeBytes]
  apply Bool.eq_iff_iff.mpr
  simp only [Bool.and_eq_true, decide_eq_true_eq, starts, ends]
  refine and_congr_right fun ⟨before, after⟩ => ?_
  have beforeBytes := starts.mpr before
  have afterBytes := ends.mpr after
  -- of two nested ranges, the outer is longer exactly when it reaches further on one side
  calc byteOffset text b' - byteOffset text b < byteOffset text a' - byteOffset text a
      ↔ byteOffset text a < byteOffset text b ∨ byteOffset text b' < byteOffset text a' := by
        omega
    _ ↔ a < b ∨ b' < a' := or_congr startsBefore endsAfter
    _ ↔ b' - b < a' - a := by omega

/-- The ranges of the occurrences of variables, searched for over bytes, are those searched for
over characters, read in bytes. -/
theorem variableRanges_utf8 (scope : Scope) (text : List Char) :
    variableRanges (scope.variableNames.map String.toList) (utf8 text) =
      (ComplexFormula.variableRanges scope text).map (rangeBytes text) := by
  unfold variableRanges ComplexFormula.variableRanges
  rw [List.map_flatMap]
  generalize scope.variableNames.map String.toList = names
  -- an empty name has no occurrences, so leaving it out changes nothing
  induction names with
  | nil => rfl
  | cons name rest inductionHypothesis =>
    rw [List.filter_cons, List.flatMap_cons]
    by_cases empty : name = []
    · subst empty
      rw [if_neg (by decide), inductionHypothesis]
      rfl
    · rw [if_pos (by simpa using empty), List.flatMap_cons, inductionHypothesis,
        matchStarts_utf8 empty, List.map_map, List.map_map]
      congr 1
      apply List.map_congr_left
      intro m listed
      simp only [Function.comp, rangeBytes,
        byteOffset_add_length_utf8 (Text.occurs_of_mem_matchStarts listed)]

theorem fits_of_mem_variableRanges {scope : Scope} {text : List Char} {range : Nat × Nat}
    (listed : range ∈ ComplexFormula.variableRanges scope text) :
    range.1 ≤ range.2 ∧ range.2 ≤ text.length := by
  unfold ComplexFormula.variableRanges at listed
  obtain ⟨name, -, made⟩ := List.mem_flatMap.mp listed
  obtain ⟨m, found, rfl⟩ := List.mem_map.mp made
  -- an empty name occurs nowhere
  have nonempty : name ≠ [] := by
    rintro rfl
    simp [Text.matchStarts] at found
  exact ⟨Nat.le_add_right m name.length,
    add_length_le_of_occurs nonempty (Text.occurs_of_mem_matchStarts found)⟩

/-! ## Constants outside variables -/

/-- The constants found over bytes outside the ranges of variables are those found over
characters, at their byte offsets. -/
theorem constantOccurrences_utf8 (scope : Scope) (text : List Char) :
    constantOccurrences (scope.constants.names.map String.toList)
        (scope.variableNames.map String.toList) (utf8 text) =
      (ComplexFormula.constantOccurrences scope text).map (Found.bytes text) := by
  unfold constantOccurrences ComplexFormula.constantOccurrences
  dsimp only
  rw [variableRanges_utf8, List.map_filterMap]
  apply List.filterMap_congr
  intro name kept
  have nonempty : name ≠ [] := by simpa using (List.mem_filter.mp kept).2
  rw [matchStarts_utf8 nonempty, List.find?_map, Option.map_map, Option.map_map]
  -- a start is taken in bytes exactly when it is taken in characters
  have sameTest : ∀ m ∈ Text.matchStarts name text,
      ((fun start => !(((ComplexFormula.variableRanges scope text).map (rangeBytes text)).any
          fun range => encloses range (start, start + (utf8 name).length))) ∘ byteOffset text) m =
        !(ComplexFormula.variableRanges scope text).any fun range =>
          encloses range (m, m + name.length) := by
    intro m listed
    have occurs := Text.occurs_of_mem_matchStarts listed
    simp only [Function.comp, List.any_map]
    congr 1
    apply Bool.eq_iff_iff.mpr
    simp only [List.any_eq_true]
    refine exists_congr fun range => and_congr_right fun taken => ?_
    rw [byteOffset_add_length_utf8 occurs]
    show encloses (rangeBytes text range) (rangeBytes text (m, m + name.length)) = true ↔ _
    rw [encloses_rangeBytes (fits_of_mem_variableRanges taken)
      ⟨Nat.le_add_right m name.length, add_length_le_of_occurs nonempty occurs⟩]
  rw [List.find?_congr sameTest]
  rfl

theorem found_of_mem_constantOccurrences {scope : Scope} {text : List Char}
    {c : Nat × Nat × List Char} (listed : c ∈ ComplexFormula.constantOccurrences scope text) :
    Found text c := by
  obtain ⟨-, lengthOf, occurs⟩ := constantOccurrences_occurs listed
  unfold ComplexFormula.constantOccurrences at listed
  obtain ⟨name, kept, made⟩ := List.mem_filterMap.mp listed
  obtain ⟨start, -, rfl⟩ := Option.map_eq_some_iff.mp made
  exact ⟨by simpa using (List.mem_filter.mp kept).2, lengthOf, occurs⟩

/-! ## The entity of a leaf -/

/-- The span made of a found candidate, read in bytes, is the candidate's byte range. -/
theorem Found.span_bytes {text : List Char} {c : Nat × Nat × List Char} (found : Found text c)
    (entity : Entity) :
    ((Span.of? text c.1 c.2.1).map fun span => (span, entity)).map
        (fun found => (rangeBytes text (found.1.start, found.1.start + found.1.length), found.2)) =
      some (((Found.bytes text c).1, (Found.bytes text c).1 + (Found.bytes text c).2.1),
        entity) := by
  have nonempty : 0 < c.2.1 := by
    rw [found.2.1]
    exact List.length_pos_of_ne_nil found.1
  obtain ⟨span, made, start, length⟩ := Span.of?_eq_some nonempty found.fits
  rw [made, Option.map_some, Option.map_some, start, length, rangeBytes, Found.bytes,
    found.end_bytes]

/-- A leaf is split, over bytes, around the entity it is split around over characters, at the
byte range of its span. -/
theorem findEntity_utf8 (scope : Scope) (w : Workspace) (text : List Char) :
    findEntity scope w text = (ComplexFormula.findEntity scope w text).map fun found =>
      (rangeBytes text (found.1.start, found.1.start + found.1.length), found.2) := by
  unfold findEntity ComplexFormula.findEntity
  dsimp only
  rw [firstOccurrences_utf8, earliestLongest_bytes fun _ => found_of_mem_firstOccurrences]
  cases placeholder : earliestLongest (ComplexFormula.firstOccurrences (w.pending.map (·.1)) text)
    with
  | some c =>
    obtain ⟨start, length, name⟩ := c
    exact ((found_of_mem_firstOccurrences (mem_of_earliestLongest placeholder)).span_bytes _).symm
  | none =>
    rw [constantOccurrences_utf8, earliestLongest_bytes fun _ => found_of_mem_constantOccurrences]
    cases constant : earliestLongest (ComplexFormula.constantOccurrences scope text) with
    | some c =>
      obtain ⟨start, length, name⟩ := c
      exact ((found_of_mem_constantOccurrences (mem_of_earliestLongest constant)).span_bytes
        _).symm
    | none =>
      rw [firstOccurrences_utf8, earliestLongest_bytes fun _ => found_of_mem_firstOccurrences]
      cases declared : earliestLongest
          (ComplexFormula.firstOccurrences (scope.variableNames.map String.toList) text) with
      | none => rfl
      | some c =>
        obtain ⟨start, length, name⟩ := c
        exact ((found_of_mem_firstOccurrences (mem_of_earliestLongest declared)).span_bytes
          _).symm

/-! ## The function before a bracket -/

/-- The function name found over bytes before a `(` at a character position starts at a
character position: the offset of the `(` less the bytes of the name is the byte offset of the
position the name starts at. -/
theorem functionSuffix?_start {text : List Char} {k : Nat} {f : UnaryFn} (inside : k ≤ text.length)
    (found : functionSuffix? (text.take k) = some f) :
    f.name.length ≤ k ∧
      byteOffset text k - (utf8 f.name.toList).length = byteOffset text (k - f.name.length) := by
  rw [functionSuffix?_eq] at found
  have suffix := UnaryFn.suffixOf?_suffix found
  have headLength : (text.take k).length = k := by
    rw [List.length_take]
    omega
  have fits : f.name.length ≤ k := by
    have := suffix.length_le
    rwa [headLength, String.length_toList] at this
  have nameBytes := Text.length_utf8_of_suffix suffix
  rw [headLength, String.length_toList, Text.byteOffset_take text (Nat.sub_le k _)] at nameBytes
  have headBytes : (utf8 (text.take k)).length = byteOffset text k := rfl
  have ordered := Text.byteOffset_mono text (Nat.sub_le k f.name.length)
  exact ⟨fits, by omega⟩

end ComplexFormula.Bytes

namespace ComplexFormula

open Text (utf8 byteOffset)

/-- Every cut the resolvers make is in range, and every byte offset a text is cut at is a
character boundary.

The ranges are those of `resolvers_cut_within`. In bytes, each scanner finds the byte offset of
a character position: the searches for `(`, `^` and `*` or `/`; the closing bracket, read from
the `(` without failing; the start of the function name before it (the `(` less the name's
bytes); the operands of a power, measured back from the `^` and on from it; the additive split;
the span of the entity a leaf is split around. The exponent-sign test never fails, also where
the mantissa it finds over raw bytes starts right after a multibyte character, as in `λ2e-1`.
An ASCII character moves the offset on by one, so the offsets just past a `(`, a `)` or a sign
are offsets too, and the byte offset of every position of a text is a character boundary
within its bytes. -/
theorem resolvers_cut_on_char_boundaries (scope : Scope) :
    ((∀ (text : List Char) opening offset, text.findIdx? (· == '(') = some opening →
        closingOffset (text.drop opening) 0 0 = some offset →
        ((UnaryFn.suffixOf? (text.take opening)).map (·.name.length)).getD 0 ≤ opening ∧
        opening + offset < text.length) ∧
      (∀ (text : List Char) opening j, text.findIdx? (· == '(') = some opening → 0 < j →
        (∀ offset, closingOffset (text.drop opening) 0 0 = some offset → j ≤ offset) →
        ((text.drop opening).take j).count ')' < ((text.drop opening).take j).count '(') ∧
      (∀ w (text : List Char) pos baseLength exponentLength, text.findIdx? (· == '^') = some pos →
        trailingAtomLength scope w (text.take pos) = some baseLength →
        leadingAtomLength scope w (text.drop (pos + 1)) = some exponentLength →
        baseLength ≤ pos ∧ pos + 1 + exponentLength ≤ text.length) ∧
      (∀ (text : List Char) idx, additiveSplit? text = some idx → 1 ≤ idx ∧ idx + 1 < text.length) ∧
      (∀ (text : List Char) idx, text.findIdx? (fun c => c == '*' || c == '/') = some idx →
        idx < text.length) ∧
      (∀ w (text : List Char) span slot, findEntity scope w text = some (span, .variable slot) →
        slot < scope.variableNames.length) ∧
      (∀ (c : Compiler) expression names e, c.compile expression names = .ok e →
        (∀ values z, e.evaluateWith values = .ok z → e.root.evaluate? values = some z) ∧
        (∀ b z, e.evaluate b = .ok z → ∃ values, e.variableNames.mapM (e.slotValue b) = .ok values ∧
          e.root.evaluate? values = some z))) ∧
    (∀ text : List Char,
      (utf8 text).findIdx? (· == 0x28) = (text.findIdx? (· == '(')).map (byteOffset text) ∧
      (utf8 text).findIdx? (· == 0x5E) = (text.findIdx? (· == '^')).map (byteOffset text) ∧
      (utf8 text).findIdx? (fun b => b == 0x2A || b == 0x2F) =
        (text.findIdx? fun c => c == '*' || c == '/').map (byteOffset text)) ∧
    (∀ (text : List Char) k, k ≤ text.length →
      Bytes.closingBracketIndex text (byteOffset text k) =
        .ok ((closingOffset (text.drop k) 0 0).map fun offset => byteOffset text (k + offset))) ∧
    (∀ (text : List Char) k f, k ≤ text.length → Bytes.functionSuffix? (text.take k) = some f →
      f.name.length ≤ k ∧
        byteOffset text k - (utf8 f.name.toList).length = byteOffset text (k - f.name.length)) ∧
    (∀ w (head tail : List Char),
      Bytes.trailingAtomLen (atomNames scope w) head = (trailingAtomLength scope w head).map
        (fun n => (utf8 head).length - byteOffset head (head.length - n)) ∧
      Bytes.leadingAtomLen (atomNames scope w) tail =
        (leadingAtomLength scope w tail).map (byteOffset tail)) ∧
    (∀ text : List Char,
      Bytes.additiveSplitIndex text = .ok ((additiveSplit? text).map (byteOffset text))) ∧
    (∀ (text : List Char) idx, ∃ answer, Bytes.isExponentSign text idx = .ok answer) ∧
    (∀ w (text : List Char), Bytes.findEntity scope w text =
      (findEntity scope w text).map fun found =>
        (Bytes.rangeBytes text (found.1.start, found.1.start + found.1.length), found.2)) ∧
    (∀ (text : List Char) k c, text[k]? = some c → c.toNat < 0x80 →
      byteOffset text (k + 1) = byteOffset text k + 1) ∧
    (∀ (text : List Char) k, k ≤ text.length →
      Text.isCharBoundary (utf8 text) (byteOffset text k) = true ∧
        byteOffset text k ≤ (utf8 text).length) := by
  refine ⟨resolvers_cut_within scope, fun text => ⟨?_, ?_, ?_⟩,
    fun text k inside => Bytes.closingBracketIndex_byteOffset text inside,
    fun text k f inside found => Bytes.functionSuffix?_start inside found,
    fun w head tail => ⟨Bytes.trailingAtomLen_eq scope w head,
      Bytes.leadingAtomLen_eq scope w tail⟩,
    Bytes.additiveSplitIndex_eq, Bytes.isExponentSign_ok, Bytes.findEntity_utf8 scope,
    fun text k c found ascii => Text.byteOffset_succ_of_lt found ascii,
    fun text k inside => ⟨Text.isCharBoundary_byteOffset text inside, ?_⟩⟩
  · exact (Text.Reads.ascii '(' (by decide)).findIdx?_utf8 text
  · exact (Text.Reads.ascii '^' (by decide)).findIdx?_utf8 text
  · exact ((Text.Reads.ascii '*' (by decide)).or (Text.Reads.ascii '/' (by decide))).findIdx?_utf8
      text
  · have := Text.byteOffset_mono text inside
    rwa [Text.byteOffset_length] at this

end ComplexFormula
