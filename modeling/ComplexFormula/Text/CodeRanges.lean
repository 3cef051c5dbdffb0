/-!
# Code point ranges

A character class given by a table: a list of inclusive ranges of code points. The Unicode
property tables of this library are values of this type, and membership is the one query
they answer.
-/

namespace ComplexFormula.Text

/-- Inclusive ranges of code points, each written as its first and its last code point. -/
abbrev CodeRanges := List (Nat × Nat)

/-- A character belongs to a table when its code point lies within one of the ranges. -/
def CodeRanges.contains (table : CodeRanges) (c : Char) : Bool :=
  table.any fun range => range.1 ≤ c.toNat && c.toNat ≤ range.2

theorem CodeRanges.contains_iff (table : CodeRanges) (c : Char) :
    table.contains c = true ↔ ∃ range ∈ table, range.1 ≤ c.toNat ∧ c.toNat ≤ range.2 := by
  simp [CodeRanges.contains]

end ComplexFormula.Text
