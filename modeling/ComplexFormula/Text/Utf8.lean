import ComplexFormula.Text.Search

/-!
# The UTF-8 bytes of a working text

The resolvers keep their working text as a list of characters. The text they stand for is held
as UTF-8 bytes and is cut at byte offsets, and a cut that falls inside the encoding of a
character fails. The offset of the cut before character position `k` is `byteOffset cs k`, the
number of bytes of the characters before it. `isCharBoundary` is the test a cut must pass, and
`charPosition?` reads a byte offset back as the character position it is the offset of.
-/

namespace ComplexFormula.Text

/-- The UTF-8 bytes of a text. -/
def utf8 (cs : List Char) : List UInt8 := cs.flatMap String.utf8EncodeChar

/-- The byte offset of character position `k`: the number of bytes of the characters before
it. -/
def byteOffset (cs : List Char) (k : Nat) : Nat := (utf8 (cs.take k)).length

/-- Whether a byte starts the encoding of a character: an ASCII byte or a leading byte, no
continuation byte `0b10xxxxxx`. -/
def startsChar (b : UInt8) : Bool := b < 0x80 || 0xC0 ≤ b

/-- Whether a byte offset of UTF-8 bytes is a character boundary: the start, the end, or the
offset of a byte that starts a character. -/
def isCharBoundary (bytes : List UInt8) (b : Nat) : Bool :=
  b == 0 ||
    match bytes[b]? with
    | some x => startsChar x
    | none => b == bytes.length

/-- The character position whose byte offset is `b`, if `b` is a character boundary of the
text. -/
def charPosition? (cs : List Char) (b : Nat) : Option Nat :=
  (List.range (cs.length + 1)).find? (byteOffset cs · == b)

end ComplexFormula.Text
