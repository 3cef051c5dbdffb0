import ComplexFormula.Resolve.Expression
import ComplexFormula.Text.Utf8

/-!
# The scanners over bytes

The resolvers of `Resolve/Expression` and `Resolve/Leaf` cut a text at character positions.
A string is held as its UTF-8 bytes, and the scanners that find where to cut it count bytes,
test bytes, search bytes and step backwards over bytes; a string cut at an offset inside a
character fails. This module states those scanners over the UTF-8 bytes of a text. Two of them
cut the text themselves: `isExponentSign` before the mantissa it found over raw bytes, and
`closingBracketIndex` at the `(` it starts from; both fail with the offset of a cut that falls
inside a character.

`Proofs/ByteScans` and `Proofs/ByteSearch` show that each scanner finds the byte offset of the
position where the resolvers cut, so that every cut made on the bytes falls on a character
boundary.
-/

namespace ComplexFormula.Bytes

open Text (utf8 byteOffset)

/-! ## Byte tests -/

/-- An ASCII digit. -/
def isDigit (b : UInt8) : Bool := 0x30 ≤ b && b ≤ 0x39

/-- `+` or `-`. -/
def isSign (b : UInt8) : Bool := b == 0x2B || b == 0x2D

/-- An exponent marker, `e` or `E`. -/
def isMarker (b : UInt8) : Bool := b == 0x65 || b == 0x45

/-- A byte of a mantissa: an ASCII digit or `.`. -/
def isMantissa (b : UInt8) : Bool := isDigit b || b == 0x2E

/-- An operator, tested on the character whose code is the byte. -/
def isOperator (b : UInt8) : Bool := isOperatorChar (Char.ofNat b.toNat)

/-- Whether there is a byte at offset `i` and it passes the test. -/
def holdsAt (bytes : List UInt8) (i : Nat) (p : UInt8 → Bool) : Bool :=
  (bytes[i]?.map p).getD false

/-! ## Literals -/

/-- The number of ASCII digits some bytes start with. -/
def digitRun (bytes : List UInt8) : Nat := (bytes.takeWhile isDigit).length

/-- The sign in front of a literal: one byte for a `+` or `-` when signs are allowed. -/
def signLength (bytes : List UInt8) (signed : Bool) : Nat :=
  if signed && holdsAt bytes 0 isSign then 1 else 0

/-- The mantissa `d+ (. d*)? | . d+` some bytes start with. -/
def mantissaLength (body : List UInt8) : Option Nat :=
  let whole := digitRun body
  if holdsAt body whole (· == 0x2E) then
    let fraction := digitRun (body.drop (whole + 1))
    if whole = 0 ∧ fraction = 0 then none else some (whole + 1 + fraction)
  else if whole = 0 then none else some whole

/-- The exponent `[eE] [+-]? d+` some bytes start with, or zero: a marker counts only when
digits follow it. -/
def exponentLength (rest : List UInt8) : Nat :=
  if holdsAt rest 0 isMarker then
    let signLength := if holdsAt rest 1 isSign then 1 else 0
    let digits := digitRun (rest.drop (1 + signLength))
    if digits = 0 then 0 else 1 + signLength + digits
  else 0

/-- The byte length of the numeric literal a text starts with. -/
def leadingLen (text : List Char) (signed : Bool) : Option Nat :=
  let bytes := utf8 text
  let start := signLength bytes signed
  (mantissaLength (bytes.drop start)).map fun length =>
    start + length + exponentLength (bytes.drop (start + length))

/-- Whether the whole nonempty text is one literal. -/
def isLiteral (text : List Char) (signed : Bool) : Bool :=
  !text.isEmpty && leadingLen text signed == some (utf8 text).length

/-- The byte length of the longest unsigned literal a text ends with, tried from each
character position in turn. -/
def trailingLen (text : List Char) : Option Nat :=
  ((List.range text.length).find? fun k => isLiteral (text.drop k) false).map
    fun k => (utf8 text).length - byteOffset text k

/-! ## Exponent signs and the additive split -/

/-- The start of the mantissa that ends at byte `mantissaEnd`: one past the last byte before
it that is neither a digit nor a point, or the start of the bytes. -/
def mantissaStart (bytes : List UInt8) (mantissaEnd : Nat) : Nat :=
  mantissaEnd - ((bytes.take mantissaEnd).reverse.takeWhile isMantissa).length

/-- Whether the sign at byte `idx` is the exponent sign of a literal, as in
`1e-5`. The mantissa is found over raw bytes; the text before it is then cut at its start, a
cut that fails, with its offset, inside a character. -/
def isExponentSign (text : List Char) (idx : Nat) : Except Nat Bool :=
  let bytes := utf8 text
  if idx < 2 || !holdsAt bytes (idx - 1) isMarker then pure false
  else if !holdsAt bytes (idx + 1) isDigit then pure false
  else
    let start := mantissaStart bytes (idx - 1)
    if !((bytes.take (idx - 1)).drop start).any isDigit then pure false
    else
      match Text.charPosition? text start with
      | none => throw start
      | some k =>
        -- `x2e-1` is the name `x2`, then `e`, then minus one
        match (text.take k).getLast? with
        | some c => pure !Text.isWordChar c
        | none => pure true

/-- The last byte, neither the first nor the last, that is a `+` or `-` after a byte that is
no operator, and is no exponent sign. -/
def additiveSplitIndex (text : List Char) : Except Nat (Option Nat) :=
  let bytes := utf8 text
  if bytes.length < 3 then pure none
  else
    ((List.range (bytes.length - 2)).reverse.map (· + 1)).findM? fun idx =>
      if holdsAt bytes idx isSign && !holdsAt bytes (idx - 1) isOperator then
        (!·) <$> isExponentSign text idx
      else pure false

/-! ## Power operands -/

/-- The byte length of the base a text before `^` ends with, the longer of an unsigned literal
and a name the text ends with. -/
def trailingAtomLen (names : List (List Char)) (head : List Char) : Option Nat :=
  largerLength (trailingLen head)
    (longest ((names.filter fun name => (utf8 name).isSuffixOf (utf8 head)).map
      fun name => (utf8 name).length))

/-- The byte length of the exponent a text after `^` starts with, the longer of a signed
literal and a name after an optional sign. -/
def leadingAtomLen (names : List (List Char)) (tail : List Char) : Option Nat :=
  let bytes := utf8 tail
  let signLength := if holdsAt bytes 0 isSign then 1 else 0
  let rest := bytes.drop signLength
  largerLength (leadingLen tail true)
    (longest ((names.filter fun name => (utf8 name).isPrefixOf rest).map
      fun name => signLength + (utf8 name).length))

/-! ## Brackets and function names -/

/-- The byte offset of the `)` that closes the `(` at byte `opening`, read over the characters
from `opening` on with their byte offsets. The text is first cut at `opening`, a cut that fails
inside a character. -/
def closingBracketIndex (text : List Char) (opening : Nat) : Except Nat (Option Nat) :=
  match Text.charPosition? text opening with
  | none => throw opening
  | some k => pure ((closingOffset (text.drop k) 0 0).map fun offset =>
      opening + byteOffset (text.drop k) offset)

/-- The function with the longest name, in bytes, that the text ends with; of names as long,
the last listed. -/
def functionSuffix? (text : List Char) : Option UnaryFn :=
  UnaryFn.all.foldl (fun best f =>
    if (utf8 f.name.toList).isSuffixOf (utf8 text) then
      match best with
      | some g =>
        if (utf8 g.name.toList).length ≤ (utf8 f.name.toList).length then some f else some g
      | none => some f
    else best) none

/-! ## Entities -/

/-- The first byte offset at which a pattern occurs. -/
def find? (pattern bytes : List UInt8) : Option Nat :=
  (List.range (bytes.length + 1)).find? fun b => pattern.isPrefixOf (bytes.drop b)

/-- The starts of the occurrences of a pattern that do not overlap, from the left. `skip` is
the number of bytes still covered by the last occurrence, and `pos` the offset of the head of
the bytes. -/
def matchStartsFrom (pattern : List UInt8) : List UInt8 → Nat → Nat → List Nat
  | [], _, _ => []
  | b :: rest, pos, skip =>
    if skip ≠ 0 then matchStartsFrom pattern rest (pos + 1) (skip - 1)
    else if pattern.isPrefixOf (b :: rest) then
      pos :: matchStartsFrom pattern rest (pos + 1) (pattern.length - 1)
    else matchStartsFrom pattern rest (pos + 1) 0

/-- The first occurrence of each nonempty name, as (start, byte length, name). -/
def firstOccurrences (names : List (List Char)) (bytes : List UInt8) :
    List (Nat × Nat × List Char) :=
  (names.filter (!·.isEmpty)).filterMap fun name =>
    (find? (utf8 name) bytes).map fun start => (start, (utf8 name).length, name)

/-- The byte ranges of the occurrences of each nonempty variable name. -/
def variableRanges (names : List (List Char)) (bytes : List UInt8) : List (Nat × Nat) :=
  (names.filter (!·.isEmpty)).flatMap fun name =>
    (matchStartsFrom (utf8 name) bytes 0 0).map fun start => (start, start + (utf8 name).length)

/-- For each nonempty constant name, its first occurrence that no occurrence of a variable
encloses. -/
def constantOccurrences (constants declared : List (List Char)) (bytes : List UInt8) :
    List (Nat × Nat × List Char) :=
  let taken := variableRanges declared bytes
  (constants.filter (!·.isEmpty)).filterMap fun name =>
    ((matchStartsFrom (utf8 name) bytes 0 0).find? fun start =>
      !taken.any fun range => encloses range (start, start + (utf8 name).length)).map
        fun start => (start, (utf8 name).length, name)

/-- The byte range to split a leaf around, by the priority of placeholders, then constants,
then variables. -/
def findEntity (scope : Scope) (w : Workspace) (text : List Char) :
    Option ((Nat × Nat) × Entity) :=
  let bytes := utf8 text
  let range (found : Nat × Nat × List Char) : Nat × Nat := (found.1, found.1 + found.2.1)
  let variableNames := scope.variableNames.map String.toList
  match earliestLongest (firstOccurrences (w.pending.map (·.1)) bytes) with
  | some found => some (range found, .placeholder)
  | none =>
    match earliestLongest (constantOccurrences (scope.constants.names.map String.toList)
        variableNames bytes) with
    | some found => some (range found, .constant)
    | none =>
      (earliestLongest (firstOccurrences variableNames bytes)).map fun found =>
        (range found, .variable (variableNames.idxOf found.2.2))

end ComplexFormula.Bytes
