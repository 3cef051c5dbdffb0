import ComplexFormula.Decimal.Read
import ComplexFormula.Text.Identifier
import ComplexFormula.Complex.Basic

/-!
# Numeric literals

A numeric literal is `(d+ (. d*)? | . d+) ([eE] [+-]? d+)?` with ASCII digits `d`, where a
sign in front belongs to the literal only where the caller allows it. An exponent marker
counts only when digits follow it, so `2e` is the literal `2` followed by the name `e`.

Scanning works on prefixes (`leadingLength`) and suffixes (`trailingLength`) of a text; an
additive sign right after `e` inside a literal (`1e-5`) is recognised by `isExponentSign`,
so that the sign does not split a sum.
-/

namespace ComplexFormula.Literal

open Decimal (isDigit)

/-- The number of ASCII digits at the start of a text. -/
def digitRun (cs : List Char) : Nat := (cs.takeWhile isDigit).length

/-- The length of the part `[eE] [+-]? d+` at the start of a text, or zero when the text does
not start with one. -/
def exponentLength : List Char → Nat
  | marker :: rest =>
    if marker == 'e' || marker == 'E' then
      let signLength := match rest with
        | '+' :: _ => 1
        | '-' :: _ => 1
        | _ => 0
      let digits := digitRun (rest.drop signLength)
      if digits = 0 then 0 else 1 + signLength + digits
    else 0
  | [] => 0

/-- The length of the numeric literal at the start of a text, if one starts there. With
`signed`, a leading `+` or `-` is part of the literal. -/
def leadingLength (cs : List Char) (signed : Bool) : Option Nat :=
  let signLength := match cs with
    | '+' :: _ => if signed then 1 else 0
    | '-' :: _ => if signed then 1 else 0
    | _ => 0
  let body := cs.drop signLength
  let whole := digitRun body
  let mantissa? : Option Nat :=
    match body.drop whole with
    | '.' :: afterPoint =>
      let fraction := digitRun afterPoint
      if whole = 0 ∧ fraction = 0 then none else some (signLength + whole + 1 + fraction)
    | _ => if whole = 0 then none else some (signLength + whole)
  mantissa?.map fun length => length + exponentLength (cs.drop length)

/-- Whether the whole (nonempty) text is one literal. -/
def isLiteral (cs : List Char) (signed : Bool) : Bool :=
  !cs.isEmpty && leadingLength cs signed == some cs.length

/-- The length of the longest unsigned literal that the text ends with. -/
def trailingLength : List Char → Option Nat
  | [] => none
  | c :: rest => if isLiteral (c :: rest) false then some (rest.length + 1) else trailingLength rest

/-- The value of a text that is one signed literal, as a real complex number. -/
def value? (cs : List Char) : Option ComplexFloat :=
  if isLiteral cs true then (Decimal.readWord? cs).map ComplexFloat.ofReal else none

/-- Whether the sign at position `idx` is the exponent sign of a literal, as in `1e-5`: the
character before it is `e` or `E` (not at the start), a digit follows it, the run of digits
and points before the `e` holds a digit, and that run is not the tail of a name (the
character before it, if any, is not a word character: `x2e-1` is `x2` times `e` minus one). -/
def isExponentSign (cs : List Char) (idx : Nat) : Bool :=
  let before := (cs.take (idx - 1)).reverse
  let mantissa := before.takeWhile fun c => isDigit c || c == '.'
  2 ≤ idx &&
    (cs[idx - 1]? == some 'e' || cs[idx - 1]? == some 'E') &&
    (cs[idx + 1]?.map isDigit).getD false &&
    mantissa.any isDigit &&
    match before.drop mantissa.length with
    | c :: _ => !Text.isWordChar c
    | [] => true

theorem leadingLength_pos (cs : List Char) (signed : Bool) (n : Nat)
    (h : leadingLength cs signed = some n) : 0 < n := by
  unfold leadingLength at h
  simp only [Option.map_eq_some_iff] at h
  obtain ⟨length, mantissa, rfl⟩ := h
  split at mantissa <;> split at mantissa <;> simp_all <;> omega

end ComplexFormula.Literal
