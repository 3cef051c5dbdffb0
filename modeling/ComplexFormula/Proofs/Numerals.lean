import ComplexFormula.Literal
import ComplexFormula.Proofs.Characters

/-!
# The grammar of numeric literals and the scanner

An unsigned literal is `(d+ (. d*)? | . d+) ([eE] [+-]? d+)?`: a mantissa of ASCII digits
with at most one point and at least one digit, then an optional exponent. This module
states that grammar on its own (`Mantissa`, `Exponent`, `Unsigned`) and relates the scanner
of `Literal` to it:

* a literal followed by a character that cannot continue it is scanned whole
  (`leadingLength_append`), with or without a sign in front;
* whatever the scanner accepts as a whole text is in the grammar (`unsigned_of_isLiteral`),
  so an operator inside an accepted text can only be the sign of its exponent
  (`sign_of_unsigned`);
* the value of a literal is always read (`value?_eq_some`).

The character after a literal matters: `2e` is the literal `2` followed by the name `e`,
and `2.5` continues `2`. `Stops rest` says that `rest` starts with none of the characters
that would continue a literal.
-/

namespace ComplexFormula.Literal

open Decimal (isDigit)
open Text (isWordChar)

/-- A run of ASCII digits (possibly empty). -/
def Digits (ds : List Char) : Prop := ∀ c ∈ ds, isDigit c = true

/-- The mantissa of a literal: digits, or digits around a point; at least one digit. -/
inductive Mantissa : List Char → Prop
  | whole {ds : List Char} (nonempty : ds ≠ []) (digits : Digits ds) : Mantissa ds
  | pointed {ds fs : List Char} (before : Digits ds) (after : Digits fs)
      (nonempty : ds ++ fs ≠ []) : Mantissa (ds ++ '.' :: fs)

/-- The exponent of a literal: nothing, or `e` or `E`, an optional sign and digits. -/
inductive Exponent : List Char → Prop
  | none : Exponent []
  | marked {marker : Char} {sign ds : List Char} (isMarker : marker = 'e' ∨ marker = 'E')
      (signed : sign = [] ∨ sign = ['+'] ∨ sign = ['-']) (nonempty : ds ≠ [])
      (digits : Digits ds) : Exponent (marker :: sign ++ ds)

/-- An unsigned numeric literal `(d+ (. d*)? | . d+) ([eE] [+-]? d+)?`. -/
def Unsigned (text : List Char) : Prop :=
  ∃ m x, text = m ++ x ∧ Mantissa m ∧ Exponent x

/-- A text that cannot continue a literal: it is empty or starts with a character that is no
digit, no point and no exponent marker. -/
def Stops (rest : List Char) : Prop :=
  ∀ c r, rest = c :: r → isDigit c = false ∧ c ≠ '.' ∧ c ≠ 'e' ∧ c ≠ 'E'

theorem Stops.nil : Stops [] := by
  intro c r h
  cases h

/-- A text that cannot continue a literal whose exponent part is `x`: after a marked exponent
only a digit would continue it; after a bare mantissa also a point or a marker. -/
def StopsAfter : List Char → List Char → Prop
  | [], rest => Stops rest
  | _ :: _, rest => ∀ c r, rest = c :: r → isDigit c = false

theorem Stops.after {rest : List Char} (stop : Stops rest) : ∀ x, StopsAfter x rest
  | [] => stop
  | _ :: _ => fun c r same => (stop c r same).1

theorem Digits.append {ds fs : List Char} (left : Digits ds) (right : Digits fs) :
    Digits (ds ++ fs) := by
  intro c mem
  rcases List.mem_append.mp mem with inLeft | inRight
  · exact left c inLeft
  · exact right c inRight

/-- The characters of a mantissa are digits and a point. -/
theorem Mantissa.mem {m : List Char} (mantissa : Mantissa m) {c : Char} (mem : c ∈ m) :
    isDigit c = true ∨ c = '.' := by
  cases mantissa with
  | whole _ digits => exact Or.inl (digits c mem)
  | pointed before after _ =>
    simp only [List.mem_append, List.mem_cons] at mem
    rcases mem with inBefore | rfl | inAfter
    · exact Or.inl (before c inBefore)
    · exact Or.inr rfl
    · exact Or.inl (after c inAfter)

/-- A mantissa holds a digit. -/
theorem Mantissa.exists_digit {m : List Char} (mantissa : Mantissa m) :
    ∃ d ∈ m, isDigit d = true := by
  cases mantissa with
  | whole nonempty digits =>
    obtain ⟨d, rest, rfl⟩ := List.exists_cons_of_ne_nil nonempty
    exact ⟨d, List.mem_cons_self, digits d List.mem_cons_self⟩
  | @pointed ds fs before after nonempty =>
    obtain ⟨d, rest, same⟩ := List.exists_cons_of_ne_nil nonempty
    have inEither : d ∈ ds ++ fs := by
      rw [same]
      exact List.mem_cons_self
    rcases List.mem_append.mp inEither with inDs | inFs
    · exact ⟨d, List.mem_append_left _ inDs, before d inDs⟩
    · exact ⟨d, List.mem_append_right _ (List.mem_cons_of_mem _ inFs), after d inFs⟩

/-- A mantissa starts with a digit or a point. -/
theorem Mantissa.head {m : List Char} (mantissa : Mantissa m) :
    ∃ c r, m = c :: r ∧ (isDigit c = true ∨ c = '.') := by
  have nonempty : m ≠ [] := by
    cases mantissa with
    | whole nonempty _ => exact nonempty
    | pointed _ _ _ => simp
  obtain ⟨c, r, rfl⟩ := List.exists_cons_of_ne_nil nonempty
  exact ⟨c, r, rfl, mantissa.mem (List.mem_cons_self)⟩

/-- A character that starts a literal differs from every character that is neither a digit
nor the point. -/
theorem ne_of_startsLiteral {c d : Char} (start : isDigit c = true ∨ c = '.')
    (notDigit : isDigit d = false) (notPoint : d ≠ '.') : c ≠ d := by
  rintro rfl
  rcases start with digit | rfl
  · rw [digit] at notDigit
    cases notDigit
  · exact notPoint rfl

/-! ## Digit runs -/

theorem digitRun_append {ds : List Char} (digits : Digits ds) (rest : List Char) :
    digitRun (ds ++ rest) = ds.length + digitRun rest := by
  simp only [digitRun, List.takeWhile_append_of_pos digits, List.length_append]

theorem digitRun_cons_of_not_digit {c : Char} (notDigit : isDigit c = false) (rest : List Char) :
    digitRun (c :: rest) = 0 := by
  simp [digitRun, notDigit]

theorem digitRun_le_length (cs : List Char) : digitRun cs ≤ cs.length :=
  (List.takeWhile_prefix isDigit).length_le

/-- The first `digitRun cs` characters are digits. -/
theorem digits_take_digitRun (cs : List Char) : Digits (cs.take (digitRun cs)) := by
  intro c mem
  have prefixTaken : cs.take (digitRun cs) = cs.takeWhile isDigit :=
    (List.prefix_iff_eq_take.mp (List.takeWhile_prefix isDigit)).symm
  rw [prefixTaken] at mem
  exact (List.all_eq_true.mp List.all_takeWhile) c mem

/-! ## Scanning a literal from its start -/

theorem exponentLength_of_stops {rest : List Char} (stop : Stops rest) : exponentLength rest = 0 := by
  cases rest with
  | nil => rfl
  | cons c r =>
    obtain ⟨-, -, notSmall, notCapital⟩ := stop c r rfl
    simp [exponentLength, notSmall, notCapital]

/-- After a marked exponent the scanner goes on over every digit that follows. -/
theorem exponentLength_marked_append {marker : Char} {sign ds : List Char}
    (isMarker : marker = 'e' ∨ marker = 'E') (signed : sign = [] ∨ sign = ['+'] ∨ sign = ['-'])
    (nonempty : ds ≠ []) (digits : Digits ds) (rest : List Char) :
    exponentLength ((marker :: sign ++ ds) ++ rest) =
      (marker :: sign ++ ds).length + digitRun rest := by
  have markerTest : (marker == 'e' || marker == 'E') = true := by
    rcases isMarker with rfl | rfl <;> rfl
  have run : digitRun (ds ++ rest) = ds.length + digitRun rest := digitRun_append digits rest
  have positive : ds.length + digitRun rest ≠ 0 := by
    have := List.length_pos_iff.mpr nonempty
    omega
  rcases signed with rfl | rfl | rfl
  · cases ds with
    | nil => exact absurd rfl nonempty
    | cons d ds' =>
      have notSign : d ≠ '+' ∧ d ≠ '-' := by
        have := digits d (by simp)
        constructor <;> (rintro rfl; exact absurd this (by decide))
      simp only [exponentLength, markerTest, if_true, List.nil_append, List.cons_append]
      split
      · rename_i rest' same
        exact absurd (List.cons.inj same).1 notSign.1
      · rename_i rest' same
        exact absurd (List.cons.inj same).1 notSign.2
      · simp only [List.drop_zero, ← List.cons_append, run, List.length_cons]
        rw [if_neg (by omega)]
        omega
  · simp only [exponentLength, markerTest, if_true, List.cons_append, List.nil_append,
      List.drop_succ_cons, List.drop_zero, run, positive, if_false, List.length_cons]
    omega
  · simp only [exponentLength, markerTest, if_true, List.cons_append, List.nil_append,
      List.drop_succ_cons, List.drop_zero, run, positive, if_false, List.length_cons]
    omega

theorem exponentLength_append {x : List Char} (exponent : Exponent x) {rest : List Char}
    (stop : StopsAfter x rest) : exponentLength (x ++ rest) = x.length := by
  cases exponent with
  | none => exact exponentLength_of_stops stop
  | @marked marker sign ds isMarker signed nonempty digits =>
    have restRun : digitRun rest = 0 := by
      cases rest with
      | nil => rfl
      | cons c r => exact digitRun_cons_of_not_digit (stop c r rfl) r
    rw [exponentLength_marked_append isMarker signed nonempty digits rest, restRun, Nat.add_zero]

/-- The scanner reads at least every exponent part that the text starts with. -/
theorem le_exponentLength {x : List Char} (exponent : Exponent x) (rest : List Char) :
    x.length ≤ exponentLength (x ++ rest) := by
  cases exponent with
  | none => exact Nat.zero_le _
  | @marked marker sign ds isMarker signed nonempty digits =>
    rw [exponentLength_marked_append isMarker signed nonempty digits rest]
    exact Nat.le_add_right _ _

/-- The length of the sign in front of a literal that the scanner skips: one for a `+` or `-`
when signs are allowed. -/
def signLength (cs : List Char) (signed : Bool) : Nat :=
  match cs with
  | '+' :: _ => if signed then 1 else 0
  | '-' :: _ => if signed then 1 else 0
  | _ => 0

/-- The length of the mantissa the scanner reads at the start of a text, if one starts
there. -/
def mantissaLength (body : List Char) : Option Nat :=
  match body.drop (digitRun body) with
  | '.' :: afterPoint =>
    if digitRun body = 0 ∧ digitRun afterPoint = 0 then none
    else some (digitRun body + 1 + digitRun afterPoint)
  | _ => if digitRun body = 0 then none else some (digitRun body)

/-- The scanner reads a sign, a mantissa and an exponent, one after the other. -/
theorem leadingLength_eq (cs : List Char) (signed : Bool) :
    leadingLength cs signed =
      (mantissaLength (cs.drop (signLength cs signed))).map fun length =>
        signLength cs signed + length + exponentLength (cs.drop (signLength cs signed + length)) := by
  show Option.map (fun length => length + exponentLength (cs.drop length))
      (match (cs.drop (signLength cs signed)).drop (digitRun (cs.drop (signLength cs signed))) with
       | '.' :: afterPoint =>
         if digitRun (cs.drop (signLength cs signed)) = 0 ∧ digitRun afterPoint = 0 then none
         else some (signLength cs signed + digitRun (cs.drop (signLength cs signed)) + 1 +
           digitRun afterPoint)
       | _ => if digitRun (cs.drop (signLength cs signed)) = 0 then none
         else some (signLength cs signed + digitRun (cs.drop (signLength cs signed)))) = _
  unfold mantissaLength
  generalize signLength cs signed = sl
  split <;> split <;> simp_all [Nat.add_assoc]

/-- What follows a mantissa does not continue it: no digit and no point. -/
def EndsMantissa (tail : List Char) : Prop :=
  ∀ c r, tail = c :: r → isDigit c = false ∧ c ≠ '.'

theorem endsMantissa_exponent_append {x rest : List Char} (exponent : Exponent x)
    (stop : StopsAfter x rest) : EndsMantissa (x ++ rest) := by
  intro c r same
  cases exponent with
  | none =>
    obtain ⟨notDigit, notPoint, -, -⟩ := stop c r same
    exact ⟨notDigit, notPoint⟩
  | @marked marker sign ds isMarker _ _ _ =>
    obtain ⟨rfl, -⟩ := List.cons.inj same
    rcases isMarker with rfl | rfl <;> decide

theorem mantissaLength_append {m : List Char} (mantissa : Mantissa m) {tail : List Char}
    (ends : EndsMantissa tail) : mantissaLength (m ++ tail) = some m.length := by
  have tailRun : digitRun tail = 0 := by
    cases tail with
    | nil => rfl
    | cons c r => exact digitRun_cons_of_not_digit (ends c r rfl).1 r
  cases mantissa with
  | whole nonempty digits =>
    have positive : m.length ≠ 0 := by simpa using nonempty
    unfold mantissaLength
    rw [digitRun_append digits, tailRun, Nat.add_zero, List.drop_left]
    cases tail with
    | nil => simp [positive]
    | cons c r =>
      have notPoint : c ≠ '.' := (ends c r rfl).2
      split
      · next afterPoint same => exact absurd (List.cons.inj same).1 notPoint
      · simp [positive]
  | @pointed ds fs before after nonempty =>
    have fractionRun : digitRun (fs ++ tail) = fs.length := by
      rw [digitRun_append after, tailRun, Nat.add_zero]
    have pointRun : digitRun ('.' :: (fs ++ tail)) = 0 :=
      digitRun_cons_of_not_digit (by decide) _
    have positive : ¬(ds.length = 0 ∧ fs.length = 0) := by
      intro both
      simp only [List.length_eq_zero_iff] at both
      simp [both.1, both.2] at nonempty
    unfold mantissaLength
    simp only [List.append_assoc, List.cons_append, digitRun_append before, pointRun,
      Nat.add_zero, List.drop_left, fractionRun]
    rw [if_neg positive]
    simp only [List.length_append, List.length_cons, Option.some.injEq]
    omega

theorem signLength_of_mantissa {m : List Char} (mantissa : Mantissa m) (rest : List Char)
    (signed : Bool) : signLength (m ++ rest) signed = 0 := by
  obtain ⟨c, r, rfl, start⟩ := mantissa.head
  have notPlus := ne_of_startsLiteral start (show isDigit '+' = false by decide) (by decide)
  have notMinus := ne_of_startsLiteral start (show isDigit '-' = false by decide) (by decide)
  unfold signLength
  split
  · next same => exact absurd (List.cons.inj same).1 notPlus
  · next same => exact absurd (List.cons.inj same).1 notMinus
  · rfl

/-- A mantissa and an exponent part followed by a text that cannot continue them are scanned
as one literal, whether or not signs are allowed. -/
theorem leadingLength_parts_append {m x : List Char} (mantissa : Mantissa m)
    (exponent : Exponent x) {rest : List Char} (stop : StopsAfter x rest) (signed : Bool) :
    leadingLength (m ++ x ++ rest) signed = some (m ++ x).length := by
  rw [leadingLength_eq, List.append_assoc, signLength_of_mantissa mantissa, List.drop_zero,
    mantissaLength_append mantissa (endsMantissa_exponent_append exponent stop)]
  simp only [Option.map_some, Nat.zero_add, List.drop_left, exponentLength_append exponent stop,
    List.length_append]

/-- An unsigned literal followed by a text that cannot continue it is scanned whole, whether
or not signs are allowed. -/
theorem leadingLength_append {lit : List Char} (unsigned : Unsigned lit) {rest : List Char}
    (stop : Stops rest) (signed : Bool) : leadingLength (lit ++ rest) signed = some lit.length := by
  obtain ⟨m, x, rfl, mantissa, exponent⟩ := unsigned
  exact leadingLength_parts_append mantissa exponent (stop.after x) signed

/-- With signs allowed, a sign and an unsigned literal are scanned as one literal. -/
theorem leadingLength_sign_append {s : Char} (sign : s = '+' ∨ s = '-') {lit : List Char}
    (unsigned : Unsigned lit) {rest : List Char} (stop : Stops rest) :
    leadingLength (s :: (lit ++ rest)) true = some (lit.length + 1) := by
  obtain ⟨m, x, rfl, mantissa, exponent⟩ := unsigned
  have skipped : signLength (s :: (m ++ x ++ rest)) true = 1 := by
    rcases sign with rfl | rfl <;> rfl
  rw [leadingLength_eq, skipped, List.drop_one, List.tail_cons, List.append_assoc,
    mantissaLength_append mantissa (endsMantissa_exponent_append exponent (stop.after x))]
  simp only [Option.map_some, Nat.add_comm 1, List.drop_succ_cons, List.drop_left,
    exponentLength_append exponent (stop.after x), List.length_append, Option.some.injEq]
  omega

/-- A literal starts with a digit or a point. -/
theorem Unsigned.head {lit : List Char} (unsigned : Unsigned lit) :
    ∃ c r, lit = c :: r ∧ (isDigit c = true ∨ c = '.') := by
  obtain ⟨m, x, rfl, mantissa, -⟩ := unsigned
  obtain ⟨c, r, rfl, start⟩ := mantissa.head
  exact ⟨c, r ++ x, rfl, start⟩

/-- A literal with an optional sign in front is one whole signed literal. -/
theorem isLiteral_sign_append {sign : List Char}
    (signShape : sign = [] ∨ sign = ['+'] ∨ sign = ['-']) {lit : List Char}
    (unsigned : Unsigned lit) : isLiteral (sign ++ lit) true = true := by
  obtain ⟨c, r, same, -⟩ := unsigned.head
  have whole : leadingLength (sign ++ lit) true = some (sign ++ lit).length := by
    rcases signShape with rfl | rfl | rfl
    · simpa using leadingLength_append unsigned Stops.nil true
    · simpa using leadingLength_sign_append (Or.inl rfl) unsigned Stops.nil
    · simpa using leadingLength_sign_append (Or.inr rfl) unsigned Stops.nil
  rw [isLiteral, whole]
  simp [same]

/-- An unsigned literal is one whole literal. -/
theorem isLiteral_unsigned {lit : List Char} (unsigned : Unsigned lit) :
    isLiteral lit false = true := by
  obtain ⟨c, r, same, -⟩ := unsigned.head
  have whole := leadingLength_append unsigned Stops.nil false
  rw [List.append_nil] at whole
  rw [isLiteral, whole]
  simp [same]

/-- No literal starts at a character that is neither a digit nor a point, with or without a
sign in front. -/
theorem leadingLength_eq_none {sign : List Char}
    (signShape : sign = [] ∨ sign = ['+'] ∨ sign = ['-']) {c : Char} (notDigit : isDigit c = false)
    (notPoint : c ≠ '.') (notPlus : c ≠ '+') (notMinus : c ≠ '-') (rest : List Char) :
    leadingLength (sign ++ c :: rest) true = none := by
  have skipped : signLength (sign ++ c :: rest) true = sign.length := by
    rcases signShape with rfl | rfl | rfl
    · unfold signLength
      split
      · next same => exact absurd (List.cons.inj same).1 notPlus
      · next same => exact absurd (List.cons.inj same).1 notMinus
      · rfl
    · rfl
    · rfl
  have noMantissa : mantissaLength (c :: rest) = none := by
    unfold mantissaLength
    rw [digitRun_cons_of_not_digit notDigit, List.drop_zero]
    split
    · next same => exact absurd (List.cons.inj same).1 notPoint
    · rfl
  rw [leadingLength_eq, skipped, List.drop_left, noMantissa, Option.map_none]

/-- A text that starts, after an optional sign, with a character that is neither a digit nor
a point has no value. -/
theorem value?_eq_none {sign : List Char} (signShape : sign = [] ∨ sign = ['+'] ∨ sign = ['-'])
    {c : Char} (notDigit : isDigit c = false) (notPoint : c ≠ '.') (notPlus : c ≠ '+')
    (notMinus : c ≠ '-') (rest : List Char) : value? (sign ++ c :: rest) = none := by
  have notLiteral : isLiteral (sign ++ c :: rest) true = false := by
    simp [isLiteral, leadingLength_eq_none signShape notDigit notPoint notPlus notMinus rest]
  simp [value?, notLiteral]

/-! ## What the scanner accepts -/

theorem signLength_unsigned (cs : List Char) : signLength cs false = 0 := by
  unfold signLength
  split <;> rfl

theorem nonempty_take_digitRun {cs : List Char} (positive : ¬digitRun cs = 0) :
    cs.take (digitRun cs) ≠ [] := by
  have fits := digitRun_le_length cs
  rw [← List.length_pos_iff, List.length_take]
  omega

/-- A mantissa the scanner reads is a mantissa of the grammar. -/
theorem mantissa_of_mantissaLength {body : List Char} {n : Nat}
    (read : mantissaLength body = some n) : Mantissa (body.take n) := by
  have digits := digits_take_digitRun body
  have runFits := digitRun_le_length body
  unfold mantissaLength at read
  split at read
  · next afterPoint same =>
    -- digits, a point, digits
    split at read
    · cases read
    · next notBoth =>
      obtain rfl := (Option.some.inj read).symm
      have whole : body = body.take (digitRun body) ++ '.' :: afterPoint := by
        rw [← same, List.take_append_drop]
      have fraction := digits_take_digitRun afterPoint
      have taken : body.take (digitRun body + 1 + digitRun afterPoint) =
          body.take (digitRun body) ++ '.' :: afterPoint.take (digitRun afterPoint) := by
        calc body.take (digitRun body + 1 + digitRun afterPoint)
            = (body.take (digitRun body) ++ '.' :: afterPoint).take
                (digitRun body + 1 + digitRun afterPoint) := by rw [← whole]
          _ = body.take (digitRun body) ++ '.' :: afterPoint.take (digitRun afterPoint) := by
            rw [List.take_append, List.take_of_length_le (by simp only [List.length_take]; omega),
              List.length_take,
              Nat.min_eq_left runFits, show digitRun body + 1 + digitRun afterPoint -
                digitRun body = digitRun afterPoint + 1 by omega, List.take_succ_cons]
      rw [taken]
      refine Mantissa.pointed digits fraction ?_
      intro empty
      apply notBoth
      simp only [List.append_eq_nil_iff, List.take_eq_nil_iff] at empty
      constructor
      · rcases empty.1 with zero | rfl
        · exact zero
        · rfl
      · rcases empty.2 with zero | rfl
        · exact zero
        · rfl
  · -- digits alone
    split at read
    · cases read
    · next positive =>
      obtain rfl := (Option.some.inj read).symm
      exact Mantissa.whole (nonempty_take_digitRun positive) digits

/-- The exponent part the scanner reads at the start of a text is an exponent of the
grammar. -/
theorem exponent_take_exponentLength (rest : List Char) :
    Exponent (rest.take (exponentLength rest)) := by
  cases rest with
  | nil => exact Exponent.none
  | cons marker r =>
    simp only [exponentLength]
    split
    · next isMarker =>
      have markerShape : marker = 'e' ∨ marker = 'E' := by
        simpa only [Bool.or_eq_true, beq_iff_eq] using isMarker
      -- the sign the scanner skips, then the digits it reads
      split
      · next tail =>
        split
        · exact Exponent.none
        · next positive =>
          simp only [List.drop_succ_cons, List.drop_zero] at positive ⊢
          rw [show 1 + 1 + digitRun tail = digitRun tail + 1 + 1 by omega, List.take_succ_cons,
            List.take_succ_cons]
          exact Exponent.marked markerShape (Or.inr (Or.inl rfl))
            (nonempty_take_digitRun positive) (digits_take_digitRun tail)
      · next tail =>
        split
        · exact Exponent.none
        · next positive =>
          simp only [List.drop_succ_cons, List.drop_zero] at positive ⊢
          rw [show 1 + 1 + digitRun tail = digitRun tail + 1 + 1 by omega, List.take_succ_cons,
            List.take_succ_cons]
          exact Exponent.marked markerShape (Or.inr (Or.inr rfl))
            (nonempty_take_digitRun positive) (digits_take_digitRun tail)
      · split
        · exact Exponent.none
        · next positive =>
          simp only [List.drop_zero] at positive ⊢
          rw [show 1 + 0 + digitRun r = digitRun r + 1 by omega, List.take_succ_cons]
          exact Exponent.marked markerShape (Or.inl rfl)
            (nonempty_take_digitRun positive) (digits_take_digitRun r)
    · exact Exponent.none

/-- What the scanner reads at the start of an unsigned text is an unsigned literal. -/
theorem unsigned_take_leadingLength {cs : List Char} {n : Nat}
    (found : leadingLength cs false = some n) : Unsigned (cs.take n) := by
  rw [leadingLength_eq, signLength_unsigned, List.drop_zero, Option.map_eq_some_iff] at found
  obtain ⟨length, read, rfl⟩ := found
  rw [Nat.zero_add, List.take_add]
  exact ⟨cs.take length, (cs.drop length).take (exponentLength (cs.drop length)), rfl,
    mantissa_of_mantissaLength read, exponent_take_exponentLength _⟩

/-- Whatever the scanner takes as one whole unsigned literal is in the grammar. -/
theorem unsigned_of_isLiteral {cs : List Char} (literal : isLiteral cs false = true) :
    Unsigned cs := by
  have whole : leadingLength cs false = some cs.length :=
    beq_iff_eq.mp (Bool.and_eq_true _ _ ▸ literal).2
  have taken := unsigned_take_leadingLength whole
  rwa [List.take_length] at taken

/-- The scanner reads at least every mantissa that the text starts with. -/
theorem le_mantissaLength {m : List Char} (mantissa : Mantissa m) (tail : List Char) :
    ∃ length, mantissaLength (m ++ tail) = some length ∧ m.length ≤ length := by
  cases mantissa with
  | whole nonempty digits =>
    have run : digitRun (m ++ tail) = m.length + digitRun tail := digitRun_append digits tail
    have positive : digitRun (m ++ tail) ≠ 0 := by
      have := List.length_pos_iff.mpr nonempty
      omega
    unfold mantissaLength
    split
    · rw [if_neg (fun both => positive both.1)]
      exact ⟨_, rfl, by omega⟩
    · rw [if_neg positive]
      exact ⟨_, rfl, by omega⟩
  | @pointed ds fs before after nonempty =>
    have fractionRun : digitRun (fs ++ tail) = fs.length + digitRun tail :=
      digitRun_append after tail
    have pointRun : digitRun ('.' :: (fs ++ tail)) = 0 :=
      digitRun_cons_of_not_digit (by decide) _
    have positive : ¬(ds.length = 0 ∧ digitRun (fs ++ tail) = 0) := by
      intro both
      have emptyDs : ds = [] := List.length_eq_zero_iff.mp both.1
      have emptyFs : fs = [] := List.length_eq_zero_iff.mp (by omega)
      simp [emptyDs, emptyFs] at nonempty
    unfold mantissaLength
    simp only [List.append_assoc, List.cons_append, digitRun_append before, pointRun,
      Nat.add_zero, List.drop_left]
    rw [if_neg positive]
    refine ⟨_, rfl, ?_⟩
    simp only [List.length_append, List.length_cons]
    omega

/-- The scanner reads at least every unsigned literal that the text starts with. -/
theorem le_leadingLength {cs u : List Char} (unsigned : Unsigned u) (start : u <+: cs)
    (signed : Bool) : ∃ n, leadingLength cs signed = some n ∧ u.length ≤ n := by
  obtain ⟨m, x, rfl, mantissa, exponent⟩ := unsigned
  obtain ⟨rest, rfl⟩ := start
  rw [leadingLength_eq, List.append_assoc,
    signLength_of_mantissa mantissa (x ++ rest) signed, List.drop_zero]
  cases exponent with
  | none =>
    obtain ⟨length, read, long⟩ := le_mantissaLength mantissa ([] ++ rest)
    rw [read, Option.map_some]
    exact ⟨_, rfl, by simp only [List.append_nil]; omega⟩
  | @marked marker sign ds isMarker signedExponent nonempty digits =>
    -- the marker ends the mantissa, and the exponent is read whole
    have ends : EndsMantissa ((marker :: sign ++ ds) ++ rest) := by
      intro c r same
      simp only [List.cons_append] at same
      obtain ⟨rfl, -⟩ := List.cons.inj same
      rcases isMarker with rfl | rfl <;> decide
    rw [mantissaLength_append mantissa ends, Option.map_some, Nat.zero_add, List.drop_left]
    have exponentRead := le_exponentLength
      (Exponent.marked isMarker signedExponent nonempty digits) rest
    exact ⟨_, rfl, by simp only [List.length_append] at exponentRead ⊢; omega⟩

/-- The characters of an unsigned literal: digits, a point, an exponent marker and the
exponent's sign. -/
theorem Unsigned.mem {lit : List Char} (unsigned : Unsigned lit) {c : Char}
    (mem : c ∈ lit) :
    isDigit c = true ∨ c = '.' ∨ c = 'e' ∨ c = 'E' ∨ c = '+' ∨ c = '-' := by
  obtain ⟨m, x, rfl, mantissa, exponent⟩ := unsigned
  rcases List.mem_append.mp mem with inMantissa | inExponent
  · rcases mantissa.mem inMantissa with digit | point
    · exact Or.inl digit
    · exact Or.inr (Or.inl point)
  · cases exponent with
    | none => cases inExponent
    | marked isMarker signed _ digits =>
      rcases List.mem_cons.mp inExponent with rfl | inRest
      · rcases isMarker with rfl | rfl <;> simp
      · rcases List.mem_append.mp inRest with inSign | inDigits
        · rcases signed with rfl | rfl | rfl <;> simp_all
        · exact Or.inl (digits c inDigits)

/-- The sign the scanner skips is a plus, a minus or nothing. -/
theorem signLength_shape (cs : List Char) (signed : Bool) :
    cs.take (signLength cs signed) = [] ∨ cs.take (signLength cs signed) = ['+'] ∨
      cs.take (signLength cs signed) = ['-'] := by
  cases signed <;> unfold signLength <;> split <;> simp

/-- A text that does not start with a sign has no sign for the scanner to skip. -/
theorem signLength_of_head {c : Char} (notPlus : c ≠ '+') (notMinus : c ≠ '-')
    (rest : List Char) (signed : Bool) : signLength (c :: rest) signed = 0 := by
  unfold signLength
  split
  · next same => exact absurd (List.cons.inj same).1 notPlus
  · next same => exact absurd (List.cons.inj same).1 notMinus
  · rfl

/-- Whether signs are allowed does not matter to a text that starts with no sign. -/
theorem leadingLength_of_head {c : Char} (notPlus : c ≠ '+') (notMinus : c ≠ '-')
    (rest : List Char) : leadingLength (c :: rest) true = leadingLength (c :: rest) false := by
  rw [leadingLength_eq, leadingLength_eq, signLength_of_head notPlus notMinus,
    signLength_of_head notPlus notMinus]

theorem signLength_le_length (cs : List Char) (signed : Bool) : signLength cs signed ≤ cs.length := by
  cases signed <;> unfold signLength <;> split <;> simp

theorem mantissaLength_le_length {body : List Char} {n : Nat} (read : mantissaLength body = some n) :
    n ≤ body.length := by
  have runFits := digitRun_le_length body
  unfold mantissaLength at read
  split at read
  · next afterPoint atPoint =>
    have lengths := congrArg List.length atPoint
    have pointRun := digitRun_le_length afterPoint
    simp only [List.length_drop, List.length_cons] at lengths
    split at read
    · cases read
    · cases read
      omega
  · split at read
    · cases read
    · cases read
      omega

theorem exponentLength_le_length (rest : List Char) : exponentLength rest ≤ rest.length := by
  cases rest with
  | nil => simp [exponentLength]
  | cons marker r =>
    simp only [exponentLength, List.length_cons]
    split
    · split
      · next tail =>
        have run := digitRun_le_length tail
        split <;> simp only [List.length_cons, List.drop_succ_cons, List.drop_zero] at * <;> omega
      · next tail =>
        have run := digitRun_le_length tail
        split <;> simp only [List.length_cons, List.drop_succ_cons, List.drop_zero] at * <;> omega
      · have run := digitRun_le_length r
        split <;> simp only [List.drop_zero] at * <;> omega
    · omega

/-- The scanner reads within the text. -/
theorem leadingLength_le_length {cs : List Char} {signed : Bool} {n : Nat}
    (found : leadingLength cs signed = some n) : n ≤ cs.length := by
  rw [leadingLength_eq, Option.map_eq_some_iff] at found
  obtain ⟨length, read, rfl⟩ := found
  have signFits := signLength_le_length cs signed
  have mantissaFits := mantissaLength_le_length read
  have exponentFits := exponentLength_le_length (cs.drop (signLength cs signed + length))
  simp only [List.length_drop] at mantissaFits exponentFits
  omega

/-- What the scanner reads is an unsigned literal with an optional sign in front. -/
theorem signed_take_leadingLength {cs : List Char} {signed : Bool} {n : Nat}
    (found : leadingLength cs signed = some n) :
    ∃ sign u, cs.take n = sign ++ u ∧ (sign = [] ∨ sign = ['+'] ∨ sign = ['-']) ∧ Unsigned u := by
  rw [leadingLength_eq, Option.map_eq_some_iff] at found
  obtain ⟨length, read, rfl⟩ := found
  refine ⟨_, _, ?_, signLength_shape cs signed, _, _, rfl, mantissa_of_mantissaLength read,
    exponent_take_exponentLength (cs.drop (signLength cs signed + length))⟩
  rw [List.take_add, List.take_add, List.append_assoc]

/-- A text with a value is a literal with an optional sign in front. -/
theorem signed_of_value? {cs : List Char} {z : ComplexFloat} (valued : value? cs = some z) :
    ∃ sign u, cs = sign ++ u ∧ (sign = [] ∨ sign = ['+'] ∨ sign = ['-']) ∧ Unsigned u := by
  unfold value? at valued
  split at valued
  · next literal =>
    simp only [isLiteral, Bool.and_eq_true, beq_iff_eq] at literal
    obtain ⟨sign, u, same, shape, unsigned⟩ := signed_take_leadingLength literal.2
    rw [List.take_length] at same
    exact ⟨sign, u, same, shape, unsigned⟩
  · cases valued

/-- A text holding a character that no signed literal holds has no value. -/
theorem value?_eq_none_of_mem {cs : List Char} {c : Char} (mem : c ∈ cs)
    (foreign : ¬(isDigit c = true ∨ c = '.' ∨ c = 'e' ∨ c = 'E' ∨ c = '+' ∨ c = '-')) :
    value? cs = none := by
  cases valued : value? cs with
  | none => rfl
  | some z =>
    obtain ⟨sign, u, rfl, shape, unsigned⟩ := signed_of_value? valued
    rcases List.mem_append.mp mem with inSign | inLiteral
    · rcases shape with rfl | rfl | rfl <;> simp_all
    · exact absurd (unsigned.mem inLiteral) foreign

/-- An operator character is neither a digit nor a point nor an exponent marker. -/
theorem literalChars_of_isOperatorChar {o : Char} (operator : isOperatorChar o = true) :
    isDigit o = false ∧ o ≠ '.' ∧ o ≠ 'e' ∧ o ≠ 'E' := by
  simp only [isOperatorChar, Bool.or_eq_true, beq_iff_eq] at operator
  rcases operator with (((rfl | rfl) | rfl) | rfl) | rfl <;> decide

/-- The only operator a literal may hold is the sign of its exponent: right after the
exponent marker, which follows the mantissa, and followed by the exponent's digits. -/
theorem sign_of_unsigned {A B : List Char} {o : Char} (operator : isOperatorChar o = true)
    (unsigned : Unsigned (A ++ o :: B)) :
    (o = '+' ∨ o = '-') ∧ Digits B ∧
      ∃ M marker, A = M ++ [marker] ∧ (marker = 'e' ∨ marker = 'E') ∧ Mantissa M := by
  obtain ⟨notDigit, notPoint, notSmall, notCapital⟩ := literalChars_of_isOperatorChar operator
  have notInMantissa : ∀ {m}, Mantissa m → o ∉ m := fun mantissa mem => by
    rcases mantissa.mem mem with digit | point
    · rw [digit] at notDigit
      cases notDigit
    · exact notPoint point
  have notInDigits : ∀ {ds}, Digits ds → o ∉ ds := fun digits mem => by
    rw [digits o mem] at notDigit
    cases notDigit
  obtain ⟨m, x, same, mantissa, exponent⟩ := unsigned
  rcases List.append_eq_append_iff.mp same with ⟨as, rfl, tail⟩ | ⟨bs, rfl, tail⟩
  · -- the operator would stand in the mantissa or be the exponent marker
    cases as with
    | nil =>
      cases exponent with
      | none => cases tail
      | marked isMarker _ _ _ =>
        obtain ⟨rfl, -⟩ := List.cons.inj tail
        rcases isMarker with rfl | rfl <;> contradiction
    | cons a as' =>
      obtain ⟨rfl, -⟩ := List.cons.inj tail
      exact (notInMantissa mantissa (List.mem_append_right _ List.mem_cons_self)).elim
  · cases exponent with
    | none => simp at tail
    | @marked marker sign ds isMarker signed _ digits =>
      cases bs with
      | nil =>
        obtain ⟨rfl, -⟩ := List.cons.inj tail
        rcases isMarker with rfl | rfl <;> contradiction
      | cons b bs' =>
        obtain ⟨rfl, afterMarker⟩ := List.cons.inj tail
        -- after the marker: the sign, then the digits
        rcases List.append_eq_append_iff.mp afterMarker with ⟨as, -, inDigits⟩ | ⟨cs, inSign, rest⟩
        · exact absurd (by simp [inDigits]) (notInDigits digits)
        · cases cs with
          | nil =>
            rw [List.nil_append] at rest
            exact (notInDigits digits (rest ▸ List.mem_cons_self)).elim
          | cons c cs' =>
            obtain ⟨rfl, rfl⟩ := List.cons.inj rest
            rcases signed with rfl | rfl | rfl
            · simp at inSign
            · obtain ⟨rfl, rfl, rfl⟩ : bs' = [] ∧ o = '+' ∧ cs' = [] := by
                cases bs' <;> simp_all
              exact ⟨Or.inl rfl, digits, m, marker, by simp, isMarker, mantissa⟩
            · obtain ⟨rfl, rfl, rfl⟩ : bs' = [] ∧ o = '-' ∧ cs' = [] := by
                cases bs' <;> simp_all
              exact ⟨Or.inr rfl, digits, m, marker, by simp, isMarker, mantissa⟩

/-- A literal ends with a digit or a point. -/
theorem Unsigned.getLast? {lit : List Char} (unsigned : Unsigned lit) {c : Char}
    (last : lit.getLast? = some c) : isDigit c = true ∨ c = '.' := by
  obtain ⟨m, x, rfl, mantissa, exponent⟩ := unsigned
  cases exponent with
  | none =>
    rw [List.append_nil] at last
    exact mantissa.mem (List.mem_of_getLast? last)
  | marked _ _ nonempty digits =>
    rw [List.getLast?_append, List.getLast?_append, List.getLast?_eq_some_getLast nonempty] at last
    exact Or.inl (digits c (by simp at last; rw [← last]; exact List.getLast_mem nonempty))

/-! ## Scanning a literal from its end -/

theorem trailingLength_le {cs : List Char} {n : Nat} (found : trailingLength cs = some n) :
    n ≤ cs.length := by
  induction cs with
  | nil => cases found
  | cons c rest inductionHypothesis =>
    unfold trailingLength at found
    split at found
    · cases found
      simp
    · have := inductionHypothesis found
      simp only [List.length_cons]
      omega

/-- A text that ends with neither a digit nor a point ends with no literal. -/
theorem trailingLength_eq_none {cs : List Char}
    (last : ∀ c, cs.getLast? = some c → isDigit c = false ∧ c ≠ '.') :
    trailingLength cs = none := by
  induction cs with
  | nil => rfl
  | cons c rest inductionHypothesis =>
    have notLiteral : isLiteral (c :: rest) false = false := by
      cases literal : isLiteral (c :: rest) false with
      | false => rfl
      | true =>
        obtain ⟨d, lastIs⟩ := Option.isSome_iff_exists.mp (show (c :: rest).getLast?.isSome by simp)
        obtain ⟨notDigit, notPoint⟩ := last d lastIs
        rcases (unsigned_of_isLiteral literal).getLast? lastIs with digit | point
        · rw [digit] at notDigit
          cases notDigit
        · exact absurd point notPoint
    unfold trailingLength
    rw [notLiteral]
    simp only [Bool.false_eq_true, if_false]
    apply inductionHypothesis
    intro d lastIs
    cases rest with
    | nil => cases lastIs
    | cons r rs => exact last d (by simpa [List.getLast?_cons_cons] using lastIs)

/-- The literal a text ends with, when no text in front of it extends it to a longer literal:
it is scanned whole. -/
theorem trailingLength_append {P u : List Char} (unsigned : Unsigned u)
    (separate : ∀ front, front ≠ [] → front <:+ P → isLiteral (front ++ u) false = false) :
    trailingLength (P ++ u) = some u.length := by
  induction P with
  | nil =>
    obtain ⟨c, r, same, -⟩ := unsigned.head
    have literal := isLiteral_unsigned unsigned
    rw [same] at literal ⊢
    simp [trailingLength, literal]
  | cons p P inductionHypothesis =>
    have notLiteral := separate (p :: P) (by simp) (List.suffix_refl _)
    rw [List.cons_append] at notLiteral
    rw [List.cons_append, trailingLength, notLiteral]
    simp only [Bool.false_eq_true, if_false]
    exact inductionHypothesis fun front nonempty suffix =>
      separate front nonempty (suffix.trans (List.suffix_cons p P))

/-- When no text in front of `u` extends it to a longer literal, the literal the text ends
with lies within `u`. -/
theorem trailingLength_append_le {P u : List Char}
    (separate : ∀ front, front ≠ [] → front <:+ P → isLiteral (front ++ u) false = false)
    {n : Nat} (found : trailingLength (P ++ u) = some n) : n ≤ u.length := by
  induction P with
  | nil => exact trailingLength_le found
  | cons p P inductionHypothesis =>
    have notLiteral := separate (p :: P) (by simp) (List.suffix_refl _)
    rw [List.cons_append] at notLiteral
    rw [List.cons_append, trailingLength, notLiteral] at found
    simp only [Bool.false_eq_true, if_false] at found
    exact inductionHypothesis (fun front nonempty suffix =>
      separate front nonempty (suffix.trans (List.suffix_cons p P))) found

/-- The scanner from the end finds a literal: the text ends with an unsigned literal as long
as the length it reports. -/
theorem unsigned_of_trailingLength {cs : List Char} {n : Nat} (found : trailingLength cs = some n) :
    Unsigned (cs.drop (cs.length - n)) := by
  induction cs with
  | nil => cases found
  | cons c rest inductionHypothesis =>
    unfold trailingLength at found
    split at found
    · next literal =>
      obtain rfl := (Option.some.inj found).symm
      rw [List.length_cons, Nat.sub_self, List.drop_zero]
      exact unsigned_of_isLiteral literal
    · have fits := trailingLength_le found
      rw [List.length_cons, show rest.length + 1 - n = rest.length - n + 1 by omega,
        List.drop_succ_cons]
      exact inductionHypothesis found

/-- The scanner from the end finds the longest literal the text ends with. -/
theorem le_trailingLength {cs u : List Char} (unsigned : Unsigned u) (suffix : u <:+ cs) :
    ∃ n, trailingLength cs = some n ∧ u.length ≤ n := by
  induction cs with
  | nil =>
    obtain ⟨c, r, same, -⟩ := unsigned.head
    rw [List.eq_nil_of_suffix_nil suffix] at same
    cases same
  | cons c rest inductionHypothesis =>
    unfold trailingLength
    split
    · exact ⟨_, rfl, by simpa using suffix.length_le⟩
    · next notLiteral =>
      rcases List.suffix_cons_iff.mp suffix with whole | inRest
      · rw [← whole, isLiteral_unsigned unsigned] at notLiteral
        exact (notLiteral rfl).elim
      · exact inductionHypothesis inRest

/-! ## Reading the value of a literal -/

theorem readExponent_isSome {x : List Char} (exponent : Exponent x) :
    (Decimal.readExponent x).isSome = true := by
  cases exponent with
  | none => rfl
  | @marked marker sign ds isMarker signed nonempty digits =>
    have markerTest : (marker == 'e' || marker == 'E') = true := by
      rcases isMarker with rfl | rfl <;> rfl
    have allDigits : ds.all isDigit = true := List.all_eq_true.mpr digits
    have filled : ds.isEmpty = false := List.isEmpty_eq_false_iff.mpr nonempty
    rcases signed with rfl | rfl | rfl
    · obtain ⟨d, ds', rfl⟩ := List.exists_cons_of_ne_nil nonempty
      have digit := digits d (by simp)
      have notPlus : d ≠ '+' := by rintro rfl; exact absurd digit (by decide)
      have notMinus : d ≠ '-' := by rintro rfl; exact absurd digit (by decide)
      simp only [List.cons_append, List.nil_append, Decimal.readExponent, markerTest, if_true]
      split
      · next same => exact absurd (List.cons.inj same).1 notPlus
      · next same => exact absurd (List.cons.inj same).1 notMinus
      · simp [filled, allDigits]
    · simp [List.cons_append, Decimal.readExponent, markerTest, filled, allDigits]
    · simp [List.cons_append, Decimal.readExponent, markerTest, filled, allDigits]

theorem readUnsigned_isSome {lit : List Char} (unsigned : Unsigned lit) :
    (Decimal.readUnsigned lit).isSome = true := by
  obtain ⟨m, x, rfl, mantissa, exponent⟩ := unsigned
  have stopsWhole : ∀ c r, x = c :: r → isDigit c = false ∧ c ≠ '.' := by
    intro c r same
    cases exponent with
    | none => cases same
    | @marked marker sign ds isMarker _ _ _ =>
      obtain ⟨rfl, -⟩ := List.cons.inj same
      rcases isMarker with rfl | rfl <;> decide
  have xTakes : x.takeWhile isDigit = [] ∧ x.dropWhile isDigit = x := by
    cases x with
    | nil => exact ⟨rfl, rfl⟩
    | cons c r =>
      have notDigit := (stopsWhole c r rfl).1
      simp [notDigit]
  have readsExponent := readExponent_isSome exponent
  cases mantissa with
  | whole nonempty digits =>
    have filled : m.isEmpty = false := List.isEmpty_eq_false_iff.mpr nonempty
    unfold Decimal.readUnsigned
    simp only [List.takeWhile_append_of_pos digits, List.dropWhile_append_of_pos digits,
      xTakes.1, xTakes.2, List.append_nil]
    cases x with
    | nil => simp [filled, readsExponent]
    | cons c r =>
      have notPoint := (stopsWhole c r rfl).2
      split
      · next same => exact absurd (List.cons.inj same).1 notPoint
      · simp only [filled, Bool.false_and, Bool.false_eq_true, if_false, Option.isSome_map]
        exact readsExponent
  | @pointed ds fs before after nonempty =>
    have pointNotDigit : isDigit '.' = false := by decide
    have notBoth : (ds.isEmpty && fs.isEmpty) = false := by
      cases ds <;> cases fs <;> simp_all
    unfold Decimal.readUnsigned
    simp only [List.append_assoc, List.cons_append, List.takeWhile_append_of_pos before,
      List.dropWhile_append_of_pos before, List.takeWhile_cons, List.dropWhile_cons,
      pointNotDigit, Bool.false_eq_true, if_false, List.append_nil,
      List.takeWhile_append_of_pos after, List.dropWhile_append_of_pos after, xTakes.1,
      xTakes.2, notBoth, Option.isSome_map]
    exact readsExponent

/-- Lowering the case of a literal keeps its first character. -/
theorem lowerAscii_of_startsLiteral {c : Char} (start : isDigit c = true ∨ c = '.')
    (r : List Char) : Decimal.lowerAscii (c :: r) = c :: Decimal.lowerAscii r := by
  have notUpper : ¬('A' ≤ c ∧ c ≤ 'Z') := by
    rintro ⟨low, -⟩
    have letter : 0x41 ≤ c.toNat := low
    rcases start with digit | rfl
    · have := Text.toNat_of_isDigit digit
      omega
    · exact absurd letter (by decide)
  simp [Decimal.lowerAscii, notUpper]

/-- Once the sign is read off, the body of a literal is read as a number, never as a name of
infinity or of NaN. -/
theorem readWord?_body_isSome (negative : Bool) {lit : List Char} (unsigned : Unsigned lit) :
    (let word := Decimal.lowerAscii lit
      if word == "inf".toList || word == "infinity".toList then
        some (if negative then -Binary64.Word.infinity else Binary64.Word.infinity)
      else if word == "nan".toList then
        some (if negative then -Binary64.Word.nan else Binary64.Word.nan)
      else (Decimal.readUnsigned lit).map fun (mantissa, exponent) =>
        Binary64.Word.ofFloat (Decimal.ofDecimal negative mantissa exponent)).isSome = true := by
  obtain ⟨c, r, rfl, start⟩ := unsigned.head
  -- every name of a special value starts with `i` or `n`, which no literal starts with
  have notName : ∀ d rest, d = 'i' ∨ d = 'n' →
      (Decimal.lowerAscii (c :: r) == d :: rest) = false := by
    intro d rest letter
    have differs : c ≠ d := by
      rcases letter with rfl | rfl <;> exact ne_of_startsLiteral start (by decide) (by decide)
    simp [lowerAscii_of_startsLiteral start, differs]
  have inf : (Decimal.lowerAscii (c :: r) == "inf".toList) = false :=
    notName 'i' ['n', 'f'] (Or.inl rfl)
  have infinity : (Decimal.lowerAscii (c :: r) == "infinity".toList) = false :=
    notName 'i' ['n', 'f', 'i', 'n', 'i', 't', 'y'] (Or.inl rfl)
  have nan : (Decimal.lowerAscii (c :: r) == "nan".toList) = false :=
    notName 'n' ['a', 'n'] (Or.inr rfl)
  simp only [inf, infinity, nan, Bool.or_false, Bool.false_eq_true, if_false, Option.isSome_map]
  exact readUnsigned_isSome unsigned

/-- The reader reads a literal with an optional sign in front, and the value of that text is
the number read. -/
theorem value?_eq_some {sign : List Char} (signShape : sign = [] ∨ sign = ['+'] ∨ sign = ['-'])
    {lit : List Char} (unsigned : Unsigned lit) :
    ∃ w, Decimal.readWord? (sign ++ lit) = some w ∧
      value? (sign ++ lit) = some (ComplexFloat.ofReal w) := by
  have reads : (Decimal.readWord? (sign ++ lit)).isSome = true := by
    rcases signShape with rfl | rfl | rfl
    · obtain ⟨c, r, same, start⟩ := unsigned.head
      unfold Decimal.readWord?
      rw [List.nil_append, same]
      split
      next negative body pick =>
        split at pick
        · next rest equal =>
          exact absurd (List.cons.inj equal).1 (ne_of_startsLiteral start (by decide) (by decide))
        · next rest equal =>
          exact absurd (List.cons.inj equal).1 (ne_of_startsLiteral start (by decide) (by decide))
        · obtain ⟨rfl, rfl⟩ := Prod.mk.inj pick
          rw [← same]
          exact readWord?_body_isSome false unsigned
    · exact readWord?_body_isSome false unsigned
    · exact readWord?_body_isSome true unsigned
  obtain ⟨w, read⟩ := Option.isSome_iff_exists.mp reads
  refine ⟨w, read, ?_⟩
  rw [value?, isLiteral_sign_append signShape unsigned, if_pos rfl, read, Option.map_some]

end ComplexFormula.Literal
