/-!
# Searching and splicing character lists

Expression text is handled as a list of characters. This module finds a pattern in it
(the first occurrence, or all occurrences that do not overlap, from the left) and replaces
a span of it by another piece. The counting lemma at the end says that replacing a span
that holds a character `c` by a piece without `c` leaves fewer `c` in the text; the
resolvers of bracket groups and powers terminate by it.
-/

namespace ComplexFormula.Text

/-- The position of the first occurrence of `pattern` in `text`. The empty pattern occurs
at position zero. -/
def indexOf? (pattern : List Char) : List Char → Option Nat
  | [] => if pattern.isEmpty then some 0 else none
  | c :: rest =>
    if pattern.isPrefixOf (c :: rest) then some 0 else (indexOf? pattern rest).map (· + 1)

/-- Starts of the occurrences of a nonempty `pattern` that do not overlap, from the left:
after an occurrence the search resumes at its end. `skip` is the number of characters still
covered by the last occurrence, and `pos` the position of the head of `text`. -/
def matchStartsFrom (pattern : List Char) : List Char → Nat → Nat → List Nat
  | [], _, _ => []
  | c :: rest, pos, skip =>
    if skip ≠ 0 then matchStartsFrom pattern rest (pos + 1) (skip - 1)
    else if pattern.isPrefixOf (c :: rest) then
      pos :: matchStartsFrom pattern rest (pos + 1) (pattern.length - 1)
    else matchStartsFrom pattern rest (pos + 1) 0

/-- Starts of the non-overlapping occurrences of `pattern` in `text`, from the left; none
for the empty pattern. -/
def matchStarts (pattern text : List Char) : List Nat :=
  if pattern.isEmpty then [] else matchStartsFrom pattern text 0 0

/-- The characters from position `start` up to, not including, position `stop`. -/
def slice (text : List Char) (start stop : Nat) : List Char :=
  (text.drop start).take (stop - start)

/-- `text` with the span from `start` up to `stop` replaced by `piece`. -/
def splice (text : List Char) (start stop : Nat) (piece : List Char) : List Char :=
  text.take start ++ piece ++ text.drop stop

theorem length_slice_le (text : List Char) (start stop : Nat) :
    (slice text start stop).length ≤ stop - start := by
  simp only [slice, List.length_take]
  exact Nat.min_le_left _ _

/-- A character found at position `k` inside the span from `start` to `stop` is counted by the
span, so the text outside the span holds fewer of it than the whole text. -/
theorem count_outside_lt {c : Char} {text : List Char} {start k stop : Nat}
    (below : start ≤ k) (above : k < stop) (found : text[k]? = some c) :
    (text.take start).count c + (text.drop stop).count c < text.count c := by
  have whole : text.count c = (text.take start).count c + (text.drop start).count c := by
    rw [← List.count_append, List.take_append_drop]
  have middle : (text.drop start).count c =
      ((text.drop start).take (stop - start)).count c + (text.drop stop).count c := by
    rw [← List.count_append]
    conv => lhs; rw [← List.take_append_drop (stop - start) (text.drop start)]
    rw [List.drop_drop]
    congr 3
    omega
  have inside : c ∈ (text.drop start).take (stop - start) := by
    have index : ((text.drop start).take (stop - start))[k - start]? = some c := by
      rw [List.getElem?_take, if_pos (by omega), List.getElem?_drop]
      rw [show start + (k - start) = k by omega]
      exact found
    exact List.mem_of_getElem? index
  have positive := List.count_pos_iff.mpr inside
  omega

/-- Replacing a span that holds `c` by a piece without `c` lowers the count of `c`. -/
theorem count_splice_lt {c : Char} {text piece : List Char} {start k stop : Nat}
    (below : start ≤ k) (above : k < stop) (found : text[k]? = some c)
    (fresh : piece.count c = 0) :
    (splice text start stop piece).count c < text.count c := by
  have := count_outside_lt below above found
  simp only [splice, List.count_append, fresh]
  omega

/-- A part of the text after a position that holds `c` has fewer `c` than the text. -/
theorem count_take_drop_lt {c : Char} {text : List Char} {k n : Nat}
    (found : text[k]? = some c) :
    ((text.drop (k + 1)).take n).count c < text.count c := by
  have outside := count_outside_lt (Nat.zero_le k) (show k < k + 1 by omega) found
  simp only [List.take_zero, List.count_nil, Nat.zero_add] at outside
  have bound : ((text.drop (k + 1)).take n).count c ≤ (text.drop (k + 1)).count c := by
    conv => rhs; rw [← List.take_append_drop n (text.drop (k + 1))]
    rw [List.count_append]
    omega
  omega

end ComplexFormula.Text
