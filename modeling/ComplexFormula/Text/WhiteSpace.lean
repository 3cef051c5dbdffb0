import ComplexFormula.Text.CodeRanges

/-!
# White space

The characters with the Unicode property White_Space (Unicode 17.0): the characters that
are dropped from an expression before it is read, and the ones that make it blank.
The table lists inclusive code point ranges in increasing order, none touching the next.
-/

namespace ComplexFormula.Text

/-- Code point ranges of the characters with the Unicode property White_Space. -/
def whiteSpace : CodeRanges := [
  (0x9, 0xD), (0x20, 0x20), (0x85, 0x85), (0xA0, 0xA0),
  (0x1680, 0x1680), (0x2000, 0x200A), (0x2028, 0x2029), (0x202F, 0x202F),
  (0x205F, 0x205F), (0x3000, 0x3000)]

/-- A character is white space when its code point lies in `whiteSpace`. -/
def isWhiteSpace (c : Char) : Bool := whiteSpace.contains c

end ComplexFormula.Text
