import ComplexFormula.Binary64.Basic

/-!
# Shortest decimal digits of a binary64 word

A positive finite word `v = m * 2 ^ e` is read back from every real number in its rounding
interval: the reals nearer to `v` than to either neighbouring word, the two ends included when
`m` is even (a tie rounds to the even significand). The shortest decimal form of `v` is
found by trying grids of 1, 2, ..., 17 significant digits: on each grid only the two points
around `v` can be the nearest point of the grid inside the interval, so they are the only
candidates. The first grid with a candidate inside wins, and of two candidates the nearer
to `v`; at an exact tie the larger. Seventeen digits always suffice, because the grid is
then finer than the gap between neighbouring words.

All comparisons are made in exact natural arithmetic, in units of a quarter of the last
bit of `v`, where the interval ends are integers.
-/

namespace ComplexFormula.Decimal

/-- Digits and a decimal exponent: the number `digits * 10 ^ exponent`. -/
structure Scientific where
  digits : Nat
  exponent : Int
deriving Repr, DecidableEq

/-- Compares `c * 10 ^ k` with `x * 2 ^ f`, exactly. -/
def compareScaled (c : Nat) (k : Int) (x : Nat) (f : Int) : Ordering :=
  compare (c * Nat.pow 10 k.toNat * Nat.pow 2 (-f).toNat)
    (x * Nat.pow 2 f.toNat * Nat.pow 10 (-k).toNat)

/-- The rounding interval of `m * 2 ^ e`, in units of `2 ^ (e - 2)`: from `low` to `high`
around `4 * m`. The gap below is half as wide when `m` is the smallest significand of a
binade above the first, because the word below then has a finer spacing. -/
structure Interval where
  low : Nat
  high : Nat
  inclusive : Bool

/-- The interval of reals that round to `m * 2 ^ e`. -/
def interval (m : Nat) (e : Int) : Interval :=
  let narrowBelow := m == Nat.pow 2 52 && e > -1074
  { low := 4 * m - (if narrowBelow then 1 else 2)
    high := 4 * m + 2
    inclusive := m % 2 == 0 }

/-- Whether `c * 10 ^ k` lies in the interval of `m * 2 ^ e`. -/
def Interval.holds (i : Interval) (e : Int) (c : Nat) (k : Int) : Bool :=
  let aboveLow := compareScaled c k i.low (e - 2)
  let belowHigh := compareScaled c k i.high (e - 2)
  (aboveLow == .gt || (i.inclusive && aboveLow == .eq)) &&
    (belowHigh == .lt || (i.inclusive && belowHigh == .eq))

/-- The exponent of the leading decimal digit of `m * 2 ^ e` (for `m > 0`): the largest `k`
with `10 ^ k ≤ m * 2 ^ e`. It is found from an estimate through `log10 2 ≈ 0.30103`, which
is never more than one too large or two too small, and checked exactly. -/
def leadingExponent (m : Nat) (e : Int) : Int :=
  let bits : Int := (Nat.log2 m : Int) + e
  let estimate := Int.fdiv (bits * 30103) 100000
  let fits (k : Int) : Bool := compareScaled 1 k m e != .gt
  if fits (estimate + 2) then estimate + 2
  else if fits (estimate + 1) then estimate + 1
  else if fits estimate then estimate
  else estimate - 1

/-- The candidate with `n` significant digits, if one lies in the interval: the grid point
below `v` or the one above, the nearer if both do, the upper one at a tie. -/
def candidate (m : Nat) (e : Int) (lead : Int) (n : Nat) : Option Scientific :=
  let k : Int := lead - n + 1
  let num := m * Nat.pow 2 e.toNat * Nat.pow 10 (-k).toNat
  let den := Nat.pow 2 (-e).toNat * Nat.pow 10 k.toNat
  let below := num / den
  let i := interval m e
  let belowIn := i.holds e below k
  let aboveIn := i.holds e (below + 1) k
  if belowIn && aboveIn then
    if 2 * num < (2 * below + 1) * den then some ⟨below, k⟩ else some ⟨below + 1, k⟩
  else if belowIn then some ⟨below, k⟩
  else if aboveIn then some ⟨below + 1, k⟩
  else none

/-- Removes trailing zero digits, raising the exponent to keep the value. -/
def Scientific.trim (s : Scientific) : Scientific :=
  go s.digits s.exponent (s.digits.log2 + 1)
where
  /-- Strips at most `fuel` zeros; a natural has fewer decimal digits than bits. -/
  go (digits : Nat) (exponent : Int) : Nat → Scientific
    | 0 => ⟨digits, exponent⟩
    | fuel + 1 =>
      if digits ≠ 0 ∧ digits % 10 = 0 then go (digits / 10) (exponent + 1) fuel
      else ⟨digits, exponent⟩

/-- The shortest decimal that reads back as `m * 2 ^ e`, nearest to it among the shortest,
without trailing zeros. Zero gives `0 * 10 ^ 0`. -/
def shortest (m : Nat) (e : Int) : Scientific :=
  if m = 0 then ⟨0, 0⟩
  else
    let lead := leadingExponent m e
    match (List.range 17).findSome? fun i => candidate m e lead (i + 1) with
    | some s => s.trim
    | none => (⟨m * Nat.pow 2 e.toNat, 0⟩ : Scientific).trim

end ComplexFormula.Decimal
