import ComplexFormula.Proofs.Utf8
import ComplexFormula.Proofs.Powers
import ComplexFormula.Resolve.Bytes

/-!
# The byte scanners find character positions

Each scanner of `Resolve/Bytes` returns the byte offset of what the matching character scanner
of the resolvers returns, or the same count where all it reads is ASCII:

* the literal scanners count the same (`leadingLen_eq`, `trailingLen_eq`), since a literal is
  ASCII;
* the exponent-sign test never fails: the mantissa it finds by stepping back over raw bytes
  starts after a whole character, even right after a multibyte one
  (`isCharBoundary_mantissaStart`), and at a character position it answers what
  `Literal.isExponentSign` answers (`isExponentSign_byteOffset`);
* the additive split of the bytes is the byte offset of the split of the characters
  (`additiveSplitIndex_eq`);
* the operands of a power and the function name before a bracket are found at the byte
  offsets of the ones the resolvers find (`trailingAtomLen_eq`, `leadingAtomLen_eq`,
  `functionSuffix?_eq`), since names found at the end or the start of the bytes are found
  there as characters.
-/

namespace ComplexFormula.Bytes

open Text (utf8 byteOffset Reads)

/-! ## Byte tests that read character tests -/

/-- The character a byte is on its own has the byte's code. -/
theorem toNat_ofNat_toNat (b : UInt8) : (Char.ofNat b.toNat).toNat = b.toNat := by
  rw [Char.toNat_ofNat, if_pos (Or.inl (by have := b.toNat_lt; omega))]

theorem lt_of_isDigit {b : UInt8} (digit : isDigit b = true) : b < 0x80 := by
  simp only [isDigit, Bool.and_eq_true, decide_eq_true_eq, UInt8.le_iff_toNat_le] at digit
  rw [UInt8.lt_iff_toNat_lt]
  simp only [UInt8.reduceToNat] at digit ⊢
  omega

theorem isDigit_reads : Reads isDigit Decimal.isDigit := by
  apply Reads.of_ascii
  · intro c digit
    have := Text.toNat_of_isDigit digit
    omega
  · intro b digit
    exact lt_of_isDigit digit
  · decide

theorem isSign_reads : Reads isSign isSignChar :=
  (Reads.ascii '+' (by decide)).or (Reads.ascii '-' (by decide))

theorem isMarker_reads : Reads isMarker fun c => c == 'e' || c == 'E' :=
  (Reads.ascii 'e' (by decide)).or (Reads.ascii 'E' (by decide))

theorem point_reads : Reads (· == 0x2E) (· == '.') := Reads.ascii '.' (by decide)

theorem lt_of_isMantissa {b : UInt8} (mantissa : isMantissa b = true) : b < 0x80 := by
  simp only [isMantissa, Bool.or_eq_true, beq_iff_eq] at mantissa
  rcases mantissa with digit | rfl
  · exact lt_of_isDigit digit
  · decide

theorem isMantissa_reads : Reads isMantissa mantissaChar := isDigit_reads.or point_reads

theorem isOperator_reads : Reads isOperator isOperatorChar := by
  apply Reads.of_ascii
  · intro c operator
    simp only [isOperatorChar, Bool.or_eq_true, beq_iff_eq] at operator
    rcases operator with ((((rfl | rfl) | rfl) | rfl) | rfl) <;> decide
  · intro b operator
    have code := toNat_ofNat_toNat b
    simp only [isOperator, isOperatorChar, Bool.or_eq_true, beq_iff_eq] at operator
    rw [UInt8.lt_iff_toNat_lt]
    rcases operator with ((((same | same) | same) | same) | same) <;>
      rw [same] at code <;> simp at code ⊢ <;> omega
  · decide

/-! ## ASCII text -/

/-- ASCII text has one byte per character. -/
theorem length_utf8_of_ascii {cs : List Char} (ascii : ∀ c ∈ cs, c.toNat < 0x80) :
    (utf8 cs).length = cs.length := by
  induction cs with
  | nil => rfl
  | cons c cs inductionHypothesis =>
    rw [Text.utf8_cons, List.length_append, Text.utf8EncodeChar_of_lt (ascii c List.mem_cons_self),
      inductionHypothesis fun d mem => ascii d (List.mem_cons_of_mem c mem)]
    simp only [List.length_cons, List.length_nil]
    omega

theorem byteOffset_of_ascii {cs : List Char} {k : Nat} (ascii : ∀ c ∈ cs.take k, c.toNat < 0x80)
    (inside : k ≤ cs.length) : byteOffset cs k = k := by
  rw [byteOffset, length_utf8_of_ascii ascii, List.length_take]
  omega

/-- At an offset that is still a character position, the bytes left encode the characters
left. -/
theorem drop_utf8_of_offset {cs : List Char} {k : Nat} (offset : byteOffset cs k = k) :
    (utf8 cs).drop k = utf8 (cs.drop k) := by
  have dropped := Text.drop_utf8_byteOffset cs k
  rwa [offset] at dropped

/-- Past an ASCII character, an offset that is a character position stays one. -/
theorem byteOffset_succ_of_offset {cs : List Char} {k : Nat} {c : Char}
    (offset : byteOffset cs k = k) (found : cs[k]? = some c) (ascii : c.toNat < 0x80) :
    byteOffset cs (k + 1) = k + 1 := by
  rw [Text.byteOffset_succ_of_lt found ascii, offset]

theorem ascii_of_digits {ds : List Char} (digits : Literal.Digits ds) : ∀ c ∈ ds, c.toNat < 0x80 :=
  fun c mem => by
    have := Text.toNat_of_isDigit (digits c mem)
    omega

/-- What the literal scanner reads is ASCII. -/
theorem ascii_take_leadingLength {cs : List Char} {signed : Bool} {n : Nat}
    (found : Literal.leadingLength cs signed = some n) : ∀ c ∈ cs.take n, c.toNat < 0x80 := by
  obtain ⟨sign, u, taken, signShape, unsigned⟩ := Literal.signed_take_leadingLength found
  intro c mem
  rw [taken, List.mem_append] at mem
  rcases mem with inSign | inLiteral
  · rcases signShape with rfl | rfl | rfl <;> simp at inSign <;> subst inSign <;> decide
  · rcases unsigned.mem inLiteral with digit | rfl | rfl | rfl | rfl | rfl
    · have := Text.toNat_of_isDigit digit
      omega
    all_goals decide

section Reads

variable {p : UInt8 → Bool} {q : Char → Bool} (reads : Reads p q)
include reads

theorem holdsAt_byteOffset (cs : List Char) (k : Nat) :
    holdsAt (utf8 cs) (byteOffset cs k) p = (cs[k]?.map q).getD false := by
  rw [holdsAt, reads.getElem?_utf8]

theorem holdsAt_of_offset {cs : List Char} {k : Nat} (offset : byteOffset cs k = k) :
    holdsAt (utf8 cs) k p = (cs[k]?.map q).getD false := by
  have held := holdsAt_byteOffset reads cs k
  rwa [offset] at held

/-- The last byte of a character reads the character too. -/
theorem holdsAt_last {cs : List Char} {j : Nat} {c : Char} (found : cs[j]? = some c) :
    holdsAt (utf8 cs) (byteOffset cs (j + 1) - 1) p = q c := by
  have encoded : utf8 (cs.take (j + 1)) = utf8 (cs.take j) ++ String.utf8EncodeChar c := by
    rw [List.take_add_one, found, Option.toList_some, Text.utf8_append, Text.utf8_cons,
      Text.utf8_nil, List.append_nil]
  obtain ⟨b, last⟩ : ∃ b, (String.utf8EncodeChar c).getLast? = some b :=
    ⟨_, List.getLast?_eq_some_getLast String.utf8EncodeChar_ne_nil⟩
  have positive : 0 < byteOffset cs (j + 1) := by
    rw [byteOffset, encoded, List.length_append]
    have := String.utf8EncodeChar_ne_nil (c := c)
    have := List.length_pos_of_ne_nil this
    omega
  have atLast : (utf8 cs)[byteOffset cs (j + 1) - 1]? = some b := by
    rw [← List.getElem?_take_of_lt (Nat.sub_lt positive Nat.one_pos), Text.take_utf8_byteOffset,
      byteOffset, ← List.getLast?_eq_getElem?, encoded, List.getLast?_append, last,
      Option.some_or]
  rw [holdsAt, atLast, Option.map_some, Option.getD_some]
  exact reads c b (List.mem_of_getLast? last)

end Reads

/-! ## Literals -/

theorem digitRun_utf8 (cs : List Char) : digitRun (utf8 cs) = Literal.digitRun cs := by
  rw [digitRun, isDigit_reads.takeWhile_utf8, length_utf8_of_ascii]
  · rfl
  · exact ascii_of_digits fun c mem => List.mem_takeWhile_imp mem

/-- A run of digits leaves offsets character positions. -/
theorem byteOffset_add_digitRun {cs : List Char} {k : Nat} (offset : byteOffset cs k = k) :
    byteOffset cs (k + Literal.digitRun (cs.drop k)) = k + Literal.digitRun (cs.drop k) := by
  rw [Text.byteOffset_add, offset,
    byteOffset_of_ascii (ascii_of_digits (Literal.digits_take_digitRun _))
      (Literal.digitRun_le_length _)]

theorem signLength_utf8 (cs : List Char) (signed : Bool) :
    signLength (utf8 cs) signed = Literal.signLength cs signed := by
  rw [signLength, holdsAt_of_offset isSign_reads (Text.byteOffset_zero cs)]
  cases cs with
  | nil => cases signed <;> rfl
  | cons c rest =>
    simp only [List.getElem?_cons_zero, Option.map_some, Option.getD_some]
    by_cases plus : c = '+'
    · subst plus
      cases signed <;> rfl
    by_cases minus : c = '-'
    · subst minus
      cases signed <;> rfl
    have notSign : isSignChar c = false := by simp [isSignChar, plus, minus]
    rw [Literal.signLength_of_head plus minus]
    simp only [notSign, Bool.and_false, Bool.false_eq_true, if_false]

theorem mantissaLength_utf8 (body : List Char) :
    mantissaLength (utf8 body) = Literal.mantissaLength body := by
  have wholeOffset := byteOffset_add_digitRun (Text.byteOffset_zero body)
  simp only [Nat.zero_add, List.drop_zero] at wholeOffset
  rw [mantissaLength, digitRun_utf8, holdsAt_of_offset point_reads wholeOffset]
  -- the character scanner matches on what follows the digits
  cases after : body.drop (Literal.digitRun body) with
  | nil =>
    have atWhole : body[Literal.digitRun body]? = none := by rw [← List.head?_drop, after]; rfl
    have charSide : Literal.mantissaLength body =
        if Literal.digitRun body = 0 then none else some (Literal.digitRun body) := by
      unfold Literal.mantissaLength
      rw [after]
    simp only [atWhole, Option.map_none, Option.getD_none, Bool.false_eq_true, if_false, charSide]
  | cons c afterPoint =>
    have atWhole : body[Literal.digitRun body]? = some c := by rw [← List.head?_drop, after]; rfl
    rw [atWhole]
    by_cases point : c = '.'
    · subst point
      have pointOffset := byteOffset_succ_of_offset wholeOffset atWhole (by decide)
      have rest : body.drop (Literal.digitRun body + 1) = afterPoint := by
        rw [← List.drop_drop, after]; rfl
      have charSide : Literal.mantissaLength body =
          if Literal.digitRun body = 0 ∧ Literal.digitRun afterPoint = 0 then none
          else some (Literal.digitRun body + 1 + Literal.digitRun afterPoint) := by
        unfold Literal.mantissaLength
        rw [after]
        split
        · next same => rw [(List.cons.inj same).2]
        · next notPoint => exact absurd rfl (notPoint afterPoint)
      simp only [Option.map_some, beq_self_eq_true, Option.getD_some, if_true,
        drop_utf8_of_offset pointOffset, rest, digitRun_utf8, charSide]
    · have notPoint : (c == '.') = false := by simpa using point
      have charSide : Literal.mantissaLength body =
          if Literal.digitRun body = 0 then none else some (Literal.digitRun body) := by
        unfold Literal.mantissaLength
        rw [after]
        split
        · next same => exact absurd (List.cons.inj same).1 point
        · rfl
      simp only [Option.map_some, notPoint, Option.getD_some, Bool.false_eq_true, if_false,
        charSide]

/-- The sign a literal scanner skips is ASCII. -/
theorem byteOffset_signLength (cs : List Char) (signed : Bool) :
    byteOffset cs (Literal.signLength cs signed) = Literal.signLength cs signed := by
  apply byteOffset_of_ascii _ (Literal.signLength_le_length cs signed)
  rcases Literal.signLength_shape cs signed with shape | shape | shape <;> rw [shape] <;>
    intro c mem <;> simp only [List.mem_singleton, List.not_mem_nil] at mem <;> subst mem <;> decide

/-- The sign after an exponent marker is skipped as the sign in front of a signed literal. -/
theorem exponentLength_cons (marker : Char) (rest : List Char) :
    Literal.exponentLength (marker :: rest) =
      if (marker == 'e' || marker == 'E') = true then
        if Literal.digitRun (rest.drop (Literal.signLength rest true)) = 0 then 0
        else 1 + Literal.signLength rest true +
          Literal.digitRun (rest.drop (Literal.signLength rest true))
      else 0 := by
  cases rest with
  | nil => rfl
  | cons c tail =>
    by_cases plus : c = '+'
    · subst plus
      rfl
    by_cases minus : c = '-'
    · subst minus
      rfl
    rw [Literal.signLength_of_head plus minus]
    simp [Literal.exponentLength, plus, minus]
theorem exponentLength_utf8 (rest : List Char) :
    exponentLength (utf8 rest) = Literal.exponentLength rest := by
  cases rest with
  | nil => rfl
  | cons marker rest =>
    rw [exponentLength, holdsAt_of_offset isMarker_reads (Text.byteOffset_zero _)]
    simp only [List.getElem?_cons_zero, Option.map_some, Option.getD_some]
    rw [exponentLength_cons]
    by_cases marked : (marker == 'e' || marker == 'E') = true
    · have ascii : marker.toNat < 0x80 := by
        simp only [Bool.or_eq_true, beq_iff_eq] at marked
        rcases marked with rfl | rfl <;> decide
      have markerOffset : byteOffset (marker :: rest) 1 = 1 :=
        byteOffset_succ_of_offset (Text.byteOffset_zero _) rfl ascii
      -- the sign after the marker is read as the sign in front of a signed literal
      have signByte : (if holdsAt (utf8 (marker :: rest)) 1 isSign then 1 else 0) =
          Literal.signLength rest true := by
        rw [holdsAt_of_offset isSign_reads markerOffset, ← signLength_utf8, signLength,
          holdsAt_of_offset isSign_reads (Text.byteOffset_zero rest)]
        rfl
      have exponentOffset : byteOffset (marker :: rest) (1 + Literal.signLength rest true) =
          1 + Literal.signLength rest true := by
        rw [Text.byteOffset_add, markerOffset, List.drop_one, List.tail_cons,
          byteOffset_signLength]
      have afterSign : (marker :: rest).drop (1 + Literal.signLength rest true) =
          rest.drop (Literal.signLength rest true) := by
        rw [Nat.add_comm, List.drop_succ_cons]
      simp only [marked, if_true, signByte, drop_utf8_of_offset exponentOffset, afterSign,
        digitRun_utf8]
    · simp only [marked, Bool.false_eq_true, if_false]

theorem leadingLen_eq (text : List Char) (signed : Bool) :
    leadingLen text signed = Literal.leadingLength text signed := by
  rw [Literal.leadingLength_eq]
  simp only [leadingLen, signLength_utf8, drop_utf8_of_offset (byteOffset_signLength text signed),
    mantissaLength_utf8]
  cases read : Literal.mantissaLength (text.drop (Literal.signLength text signed)) with
  | none => rfl
  | some length =>
    -- the sign and the mantissa are ASCII
    have mantissaOffset : byteOffset text (Literal.signLength text signed + length) =
        Literal.signLength text signed + length := by
      rw [Text.byteOffset_add, byteOffset_signLength,
        byteOffset_of_ascii _ (Literal.mantissaLength_le_length read)]
      intro c mem
      rcases (Literal.mantissa_of_mantissaLength read).mem mem with digit | rfl
      · have := Text.toNat_of_isDigit digit
        omega
      · decide
    simp only [Option.map_some, drop_utf8_of_offset mantissaOffset, exponentLength_utf8]

theorem isLiteral_eq (text : List Char) (signed : Bool) :
    isLiteral text signed = Literal.isLiteral text signed := by
  rw [isLiteral, Literal.isLiteral, leadingLen_eq]
  congr 1
  cases found : Literal.leadingLength text signed with
  | none => rfl
  | some n =>
    -- a whole literal is ASCII, one byte per character; a shorter one is no whole text
    have fits := Literal.leadingLength_le_length found
    by_cases whole : n = text.length
    · subst whole
      have ascii := ascii_take_leadingLength found
      rw [List.take_length] at ascii
      rw [length_utf8_of_ascii ascii]
    · have longer := Text.length_le_length_utf8 text
      have short : n ≠ (utf8 text).length := by omega
      simp only [Option.some_beq_some, whole, short, beq_false_of_ne, Ne, not_false_eq_true]

/-- The scanner for trailing literals tries the suffixes from the longest. -/
theorem trailingLength_eq_find? (cs : List Char) :
    Literal.trailingLength cs = ((List.range cs.length).find? fun k =>
      Literal.isLiteral (cs.drop k) false).map (cs.length - ·) := by
  induction cs with
  | nil => rfl
  | cons c rest inductionHypothesis =>
    rw [Literal.trailingLength, List.length_cons, List.range_succ_eq_map, List.find?_cons,
      List.drop_zero]
    cases literal : Literal.isLiteral (c :: rest) false with
    | true => simp
    | false =>
      simp only [Bool.false_eq_true, if_false, inductionHypothesis, List.find?_map, Option.map_map]
      simp [Function.comp_def]

/-- The literal a text ends with, in bytes: the bytes from the offset where it starts. -/
theorem trailingLen_eq (text : List Char) :
    trailingLen text = (Literal.trailingLength text).map fun n =>
      (utf8 text).length - byteOffset text (text.length - n) := by
  rw [trailingLen, trailingLength_eq_find?]
  simp only [isLiteral_eq, Option.map_map]
  cases found : (List.range text.length).find? fun k => Literal.isLiteral (text.drop k) false with
  | none => rfl
  | some k =>
    have inside : k < text.length := List.mem_range.mp (List.mem_of_find?_eq_some found)
    simp only [Option.map_some, Function.comp_apply, Option.some.injEq]
    rw [Nat.sub_sub_self (Nat.le_of_lt inside)]

/-! ## The exponent sign -/

theorem holdsAt_eq_true {bytes : List UInt8} {i : Nat} {p : UInt8 → Bool} :
    holdsAt bytes i p = true ↔ ∃ x, bytes[i]? = some x ∧ p x = true := by
  cases found : bytes[i]? <;> simp [holdsAt, found]

theorem lt_of_isMarker {b : UInt8} (marker : isMarker b = true) : b < 0x80 := by
  simp only [isMarker, Bool.or_eq_true, beq_iff_eq] at marker
  rcases marker with rfl | rfl <;> decide

theorem lt_of_isSign {b : UInt8} (sign : isSign b = true) : b < 0x80 := by
  simp only [isSign, Bool.or_eq_true, beq_iff_eq] at sign
  rcases sign with rfl | rfl <;> decide

theorem toNat_lt_of_isSignChar {σ : Char} (sign : isSignChar σ = true) : σ.toNat < 0x80 := by
  simp only [isSignChar, Bool.or_eq_true, beq_iff_eq] at sign
  rcases sign with rfl | rfl <;> decide

theorem isCharBoundary_of_getElem? {bytes : List UInt8} {b : Nat} {x : UInt8}
    (found : bytes[b]? = some x) (ascii : x < 0x80) : Text.isCharBoundary bytes b = true := by
  unfold Text.isCharBoundary
  simp [found, Text.startsChar, ascii]

theorem le_length_of_isCharBoundary {bytes : List UInt8} {b : Nat}
    (boundary : Text.isCharBoundary bytes b = true) : b ≤ bytes.length := by
  unfold Text.isCharBoundary at boundary
  cases found : bytes[b]? with
  | none =>
    simp only [found, Bool.or_eq_true, beq_iff_eq] at boundary
    omega
  | some x => exact Nat.le_of_lt (List.getElem?_eq_some_iff.mp found).1

/-- Stepping back over mantissa bytes from a character boundary stops at a character boundary:
every byte stepped over is ASCII, so the last one starts a character. -/
theorem isCharBoundary_mantissaStart {bytes : List UInt8} {mantissaEnd : Nat}
    (boundary : Text.isCharBoundary bytes mantissaEnd = true) :
    Text.isCharBoundary bytes (mantissaStart bytes mantissaEnd) = true := by
  have within := le_length_of_isCharBoundary boundary
  set run := (bytes.take mantissaEnd).reverse.takeWhile isMantissa with runDef
  obtain ⟨front, split⟩ : ∃ front, bytes.take mantissaEnd = front ++ run.reverse :=
    ⟨_, by rw [← List.reverse_append, List.takeWhile_append_dropWhile, List.reverse_reverse]⟩
  have lengths : mantissaEnd = front.length + run.length := by
    have := congrArg List.length split
    simp only [List.length_take, List.length_append, List.length_reverse] at this
    omega
  have start : mantissaStart bytes mantissaEnd = front.length := by
    rw [mantissaStart, ← runDef]
    omega
  rw [start]
  cases reversed : run.reverse with
  | nil =>
    rw [List.reverse_eq_nil_iff] at reversed
    rw [reversed, List.length_nil, Nat.add_zero] at lengths
    rwa [← lengths]
  | cons x rest =>
    -- the first byte of the mantissa is ASCII, so a character starts there
    have mantissaByte : isMantissa x = true :=
      List.mem_takeWhile_imp (List.mem_reverse.mp (by rw [reversed]; exact List.mem_cons_self))
    apply isCharBoundary_of_getElem? _ (lt_of_isMantissa mantissaByte)
    rw [← List.take_append_drop mantissaEnd bytes, split, reversed, List.append_assoc,
      List.getElem?_append_right (Nat.le_refl _), Nat.sub_self]
    rfl


/-- The exponent-sign test never fails: the text is cut before the mantissa at a character
boundary, also where the character before the mantissa takes several bytes. -/
theorem isExponentSign_ok (text : List Char) (idx : Nat) :
    ∃ answer, isExponentSign text idx = .ok answer := by
  unfold isExponentSign
  dsimp only
  split
  · exact ⟨false, rfl⟩
  · next guard =>
    split
    · exact ⟨false, rfl⟩
    · split
      · exact ⟨false, rfl⟩
      · -- the marker byte is ASCII, so the mantissa ends at a character boundary
        have marked : holdsAt (utf8 text) (idx - 1) isMarker = true := by
          simp only [Bool.or_eq_true, decide_eq_true_eq, Bool.not_eq_true', not_or,
            Bool.not_eq_false] at guard
          exact guard.2
        obtain ⟨x, found, marker⟩ := holdsAt_eq_true.mp marked
        have mantissaEnds := isCharBoundary_of_getElem? found (lt_of_isMarker marker)
        obtain ⟨k, inside, offset⟩ :=
          (Text.isCharBoundary_iff text _).mp (isCharBoundary_mantissaStart mantissaEnds)
        rw [← offset, Text.charPosition?_byteOffset text inside]
        dsimp only
        split <;> exact ⟨_, rfl⟩

-- the mantissa `2` starts right after the two bytes of `λ`, and `λ2` is one name
example : isExponentSign "λ2e-1".toList 4 = .ok false := by decide

/-- The run of mantissa characters that ends at position `j`, read over bytes: it starts at the
byte offset of its first character, its bytes encode it, and the text before it ends with the
character right before the run. -/
theorem mantissa_utf8 (cs : List Char) {j : Nat} (inside : j ≤ cs.length) :
    let run := (cs.take j).reverse.takeWhile mantissaChar
    mantissaStart (utf8 cs) (byteOffset cs j) = byteOffset cs (j - run.length) ∧
      ((utf8 cs).take (byteOffset cs j)).drop (byteOffset cs (j - run.length)) =
        utf8 run.reverse ∧
      (cs.take (j - run.length)).reverse = (cs.take j).reverse.drop run.length := by
  intro run
  obtain ⟨front, split⟩ : ∃ front, cs.take j = front ++ run.reverse :=
    ⟨_, by rw [← List.reverse_append, List.takeWhile_append_dropWhile, List.reverse_reverse]⟩
  have lengths : j = front.length + run.length := by
    have := congrArg List.length split
    simp only [List.length_take, List.length_append, List.length_reverse] at this
    omega
  have before : cs.take (j - run.length) = front := by
    have shorter : (cs.take j).take front.length = cs.take front.length := by
      rw [List.take_take]
      congr 1
      omega
    rw [show j - run.length = front.length by omega, ← shorter, split, List.take_left]
  -- the run is ASCII, one byte per character
  have runAscii : ∀ c ∈ run.reverse, c.toNat < 0x80 := by
    intro c mem
    have := List.mem_takeWhile_imp (List.mem_reverse.mp mem)
    simp only [mantissaChar, Bool.or_eq_true, beq_iff_eq] at this
    rcases this with digit | rfl
    · have := Text.toNat_of_isDigit digit
      omega
    · decide
  have runBytes : ((utf8 (cs.take j)).reverse.takeWhile isMantissa).length = run.length := by
    rw [isMantissa_reads.reverse_takeWhile_utf8]
    exact length_utf8_of_ascii fun c mem => runAscii c (List.mem_reverse.mpr mem)
  have frontBytes : byteOffset cs (j - run.length) = (utf8 front).length := by
    rw [byteOffset, before]
  have wholeBytes : byteOffset cs j = (utf8 front).length + run.length := by
    rw [byteOffset, split, Text.utf8_append, List.length_append, length_utf8_of_ascii runAscii,
      List.length_reverse]
  refine ⟨?_, ?_, ?_⟩
  · rw [mantissaStart, Text.take_utf8_byteOffset, runBytes, frontBytes, wholeBytes]
    omega
  · rw [Text.take_utf8_byteOffset, split, Text.utf8_append, frontBytes, List.drop_left]
  · rw [before, ← List.reverse_reverse front]
    have reversed : (cs.take j).reverse = run ++ front.reverse := by
      rw [split, List.reverse_append, List.reverse_reverse]
    rw [reversed, List.drop_left, List.reverse_reverse]

/-- An offset is zero only at the start. -/
theorem byteOffset_eq_zero_iff {cs : List Char} {k : Nat} (inside : k ≤ cs.length) :
    byteOffset cs k = 0 ↔ k = 0 := by
  constructor
  · intro zero
    by_contra positive
    have := Text.byteOffset_lt_byteOffset (Nat.pos_of_ne_zero positive) inside
    rw [Text.byteOffset_zero] at this
    omega
  · rintro rfl
    rfl

/-- At a character position whose character is ASCII, the exponent-sign test over bytes
answers what the test over characters answers. -/
theorem isExponentSign_byteOffset {text : List Char} {k : Nat} {σ : Char}
    (found : text[k]? = some σ) (ascii : σ.toNat < 0x80) :
    isExponentSign text (byteOffset text k) = .ok (Literal.isExponentSign text k) := by
  have inside := (List.getElem?_eq_some_iff.mp found).1
  cases k with
  | zero => rfl
  | succ j =>
    obtain ⟨m, before⟩ : ∃ m, text[j]? = some m := ⟨_, List.getElem?_eq_getElem (by omega)⟩
    have markerByte := holdsAt_last isMarker_reads before
    by_cases marked : (m == 'e' || m == 'E') = true
    · have mAscii : m.toNat < 0x80 := by
        simp only [Bool.or_eq_true, beq_iff_eq] at marked
        rcases marked with rfl | rfl <;> decide
      have offsetSign : byteOffset text (j + 1) = byteOffset text j + 1 :=
        Text.byteOffset_succ_of_lt before mAscii
      have offsetNext : byteOffset text (j + 1 + 1) = byteOffset text j + 1 + 1 := by
        rw [Text.byteOffset_succ_of_lt found ascii, offsetSign]
      have startsAt : decide (byteOffset text j + 1 < 2) = !decide (1 ≤ j) := by
        have zero := @byteOffset_eq_zero_iff text j (by omega)
        rw [Bool.eq_iff_iff, decide_eq_true_iff, Bool.not_eq_true', decide_eq_false_iff_not]
        constructor
        · intro small
          have := zero.mp (by omega)
          omega
        · intro notFirst
          have := zero.mpr (by omega)
          omega
      obtain ⟨start, mantissaBytes, beforeMantissa⟩ := mantissa_utf8 text (j := j) (by omega)
      -- the characters around the sign, as the character test reads them
      have decomposed : text = text.take j ++ m :: σ :: text.drop (j + 1 + 1) := by
        have rest : text.drop j = m :: σ :: text.drop (j + 1 + 1) := by
          rw [List.drop_eq_getElem_cons (by omega), List.drop_eq_getElem_cons (by omega),
            (List.getElem?_eq_some_iff.mp before).2, (List.getElem?_eq_some_iff.mp found).2]
        rw [← rest, List.take_append_drop]
      have charSide := @isExponentSign_at (text.take j) (text.drop (j + 1 + 1)) m σ
      rw [← decomposed, List.length_take_of_le (by omega)] at charSide
      have nextDigit : holdsAt (utf8 text) (byteOffset text j + 1 + 1) isDigit =
          ((text.drop (j + 1 + 1)).head?.map Decimal.isDigit).getD false := by
        rw [← offsetNext, holdsAt_byteOffset isDigit_reads, List.head?_drop]
      rw [charSide, offsetSign]
      unfold isExponentSign
      dsimp only
      rw [Nat.add_sub_cancel, startsAt, holdsAt_byteOffset isMarker_reads, before, Option.map_some,
        Option.getD_some, marked, nextDigit, start, mantissaBytes, isDigit_reads.any_utf8,
        List.any_reverse, Text.charPosition?_byteOffset text (by omega)]
      dsimp only
      -- the character before the mantissa, read from the end of the text before it
      rw [← List.head?_reverse, beforeMantissa]
      generalize (text.take j).reverse.drop
        ((text.take j).reverse.takeWhile mantissaChar).length = D
      cases decide (1 ≤ j) <;>
        cases ((text.drop (j + 1 + 1)).head?.map Decimal.isDigit).getD false <;>
        cases ((text.take j).reverse.takeWhile mantissaChar).any Decimal.isDigit <;> cases D <;> rfl
    · have notSmall : m ≠ 'e' := fun same => by simp [same] at marked
      have notCapital : m ≠ 'E' := fun same => by simp [same] at marked
      have charSide : Literal.isExponentSign text (j + 1) = false := by
        simp [Literal.isExponentSign, before, notSmall, notCapital]
      rw [charSide]
      unfold isExponentSign
      simp only [markerByte, marked]
      simp
      rfl

/-! ## The additive split -/

/-- The test `additiveSplitIndex` makes at a byte offset, with the answer of the exponent-sign
test, which never fails. -/
def splitTest (text : List Char) (idx : Nat) : Bool :=
  holdsAt (utf8 text) idx isSign && !holdsAt (utf8 text) (idx - 1) isOperator &&
    !((isExponentSign text idx).toOption.getD false)

/-- The search for the additive split never fails, and finds the last byte offset, neither the
first nor the last, that passes `splitTest`. -/
theorem additiveSplitIndex_eq_find? (text : List Char) :
    additiveSplitIndex text = .ok (if (utf8 text).length < 3 then none
      else ((List.range ((utf8 text).length - 2)).reverse.map (· + 1)).find? (splitTest text)) := by
  have pointwise : (fun idx => if holdsAt (utf8 text) idx isSign &&
        !holdsAt (utf8 text) (idx - 1) isOperator then (!·) <$> isExponentSign text idx
      else (pure false : Except Nat Bool)) = fun idx => pure (splitTest text idx) := by
    funext idx
    obtain ⟨answer, answered⟩ := isExponentSign_ok text idx
    unfold splitTest
    rw [answered]
    cases holdsAt (utf8 text) idx isSign && !holdsAt (utf8 text) (idx - 1) isOperator <;> rfl
  unfold additiveSplitIndex
  dsimp only
  split
  · rfl
  · rw [pointwise, List.findM?_pure]
    rfl

/-- At a character position, the byte test is the character test. -/
theorem splitTest_byteOffset (text : List Char) (k : Nat) :
    splitTest text (byteOffset text k) = isAdditiveSplit text k := by
  unfold splitTest isAdditiveSplit
  rw [holdsAt_byteOffset isSign_reads]
  cases found : text[k]? with
  | none => rfl
  | some σ =>
    cases sign : isSignChar σ with
    | false => simp [sign]
    | true =>
      -- a sign is ASCII, so the exponent-sign tests agree there
      have ascii := toNat_lt_of_isSignChar sign
      have operatorBefore : holdsAt (utf8 text) (byteOffset text k - 1) isOperator =
          (text[k - 1]?.map isOperatorChar).getD false := by
        cases k with
        | zero => exact holdsAt_byteOffset isOperator_reads text 0
        | succ j =>
          obtain ⟨c, before⟩ : ∃ c, text[j]? = some c :=
            ⟨_, List.getElem?_eq_getElem (by have := (List.getElem?_eq_some_iff.mp found).1; omega)⟩
          rw [holdsAt_last isOperator_reads before, Nat.add_sub_cancel, before]
          rfl
      rw [operatorBefore, isExponentSign_byteOffset found ascii]
      rfl

/-- A byte offset that passes the test is the offset of a character position. -/
theorem exists_of_splitTest {text : List Char} {idx : Nat} (holds : splitTest text idx = true) :
    ∃ k ≤ text.length, byteOffset text k = idx := by
  obtain ⟨x, found, sign⟩ : ∃ x, (utf8 text)[idx]? = some x ∧ isSign x = true := by
    unfold splitTest at holds
    simp only [Bool.and_eq_true] at holds
    exact holdsAt_eq_true.mp holds.1.1
  exact (Text.isCharBoundary_iff text idx).mp (isCharBoundary_of_getElem? found (lt_of_isSign sign))

/-- A split character is a sign, one byte long. -/
theorem byteOffset_succ_of_isAdditiveSplit {text : List Char} {k : Nat}
    (split : isAdditiveSplit text k = true) :
    k < text.length ∧ byteOffset text (k + 1) = byteOffset text k + 1 := by
  unfold isAdditiveSplit at split
  simp only [Bool.and_eq_true] at split
  cases found : text[k]? with
  | none => simp [found] at split
  | some σ =>
    have sign : isSignChar σ = true := by simpa [found] using split.1.1
    exact ⟨(List.getElem?_eq_some_iff.mp found).1,
      Text.byteOffset_succ_of_lt found (toNat_lt_of_isSignChar sign)⟩

/-- A split position lies strictly inside the characters, neither first nor last, exactly when
its byte offset lies strictly inside the bytes. -/
theorem byteOffset_inside_iff_of_isAdditiveSplit {text : List Char} {k : Nat}
    (split : isAdditiveSplit text k = true) :
    1 ≤ byteOffset text k ∧ byteOffset text k ≤ (utf8 text).length - 2 ↔
      1 ≤ k ∧ k + 2 ≤ text.length := by
  obtain ⟨inside, next⟩ := byteOffset_succ_of_isAdditiveSplit split
  have zero := @byteOffset_eq_zero_iff text k (by omega)
  have last := @Text.byteOffset_lt_byteOffset_iff text (k + 1) text.length (Nat.le_refl _)
  rw [next, Text.byteOffset_length] at last
  constructor
  · rintro ⟨low, high⟩
    refine ⟨?_, ?_⟩
    · by_contra first
      have := zero.mpr (by omega)
      omega
    · have := last.mp (by omega)
      omega
  · rintro ⟨low, high⟩
    refine ⟨?_, ?_⟩
    · by_contra first
      have := zero.mp (by omega)
      omega
    · have := last.mpr (by omega)
      omega

/-- The additive split of the bytes is the byte offset of the additive split of the characters,
and the search never fails. -/
theorem additiveSplitIndex_eq (text : List Char) :
    additiveSplitIndex text = .ok ((additiveSplit? text).map (byteOffset text)) := by
  rw [additiveSplitIndex_eq_find?]
  congr 1
  split
  · next short =>
    -- a text of fewer than three bytes has fewer than three characters
    have fewer := Text.length_le_length_utf8 text
    symm
    rw [Option.map_eq_none_iff, additiveSplit?_eq_none]
    intro j low high
    omega
  · apply Option.ext
    intro idx
    rw [find?_descending, Option.map_eq_some_iff]
    constructor
    · rintro ⟨low, high, holds, later⟩
      obtain ⟨k, inside, rfl⟩ := exists_of_splitTest holds
      rw [splitTest_byteOffset] at holds
      obtain ⟨kLow, kHigh⟩ := (byteOffset_inside_iff_of_isAdditiveSplit holds).mp ⟨low, high⟩
      refine ⟨k, (additiveSplit?_eq_some_iff text k).mpr ⟨kLow, kHigh, holds, ?_⟩, rfl⟩
      intro j after below
      cases split : isAdditiveSplit text j with
      | false => rfl
      | true =>
        obtain ⟨jLow, jHigh⟩ :=
          (byteOffset_inside_iff_of_isAdditiveSplit split).mpr ⟨by omega, below⟩
        have beyond := (@Text.byteOffset_lt_byteOffset_iff text k j (by omega)).mpr after
        have := later (byteOffset text j) beyond jHigh
        rw [splitTest_byteOffset, split] at this
        cases this
    · rintro ⟨k, found, rfl⟩
      obtain ⟨kLow, kHigh, holds, later⟩ := (additiveSplit?_eq_some_iff text k).mp found
      obtain ⟨low, high⟩ := (byteOffset_inside_iff_of_isAdditiveSplit holds).mpr ⟨kLow, kHigh⟩
      refine ⟨low, high, by rw [splitTest_byteOffset]; exact holds, ?_⟩
      intro idx after below
      cases passes : splitTest text idx with
      | false => rfl
      | true =>
        obtain ⟨j, inside, rfl⟩ := exists_of_splitTest passes
        rw [splitTest_byteOffset] at passes
        have beyond := (Text.byteOffset_lt_byteOffset_iff inside).mp after
        obtain ⟨-, jHigh⟩ := (byteOffset_inside_iff_of_isAdditiveSplit passes).mp ⟨by omega, below⟩
        rw [later j beyond jHigh] at passes
        cases passes

-- the sign is the fourth character and its fifth byte
example : additiveSplitIndex "λ2e-1".toList = .ok (some 4) := by decide

/-! ## Power operands -/

theorem longest_map_of_monotone {f : Nat → Nat} (monotone : Monotone f) (lengths : List Nat) :
    longest (lengths.map f) = (longest lengths).map f := by
  cases found : longest lengths with
  | none =>
    rw [List.max?_eq_none_iff.mp found]
    rfl
  | some L =>
    obtain ⟨mem, bound⟩ := List.max?_eq_some_iff.mp found
    refine longest_eq_some (List.mem_map_of_mem mem) ?_
    intro l listed
    obtain ⟨m, inLengths, rfl⟩ := List.mem_map.mp listed
    exact monotone (bound m inLengths)

theorem largerLength_map_of_monotone {f : Nat → Nat} (monotone : Monotone f)
    (x y : Option Nat) : largerLength (x.map f) (y.map f) = (largerLength x y).map f := by
  cases x <;> cases y <;> simp [largerLength, monotone.map_max]

/-- The base of a power, in bytes: the bytes from the offset where the base the resolvers find
starts. -/
theorem trailingAtomLen_eq (scope : Scope) (w : Workspace) (head : List Char) :
    trailingAtomLen (atomNames scope w) head = (trailingAtomLength scope w head).map fun n =>
      (utf8 head).length - byteOffset head (head.length - n) := by
  set suffixBytes := fun n => (utf8 head).length - byteOffset head (head.length - n)
  have monotone : Monotone suffixBytes := by
    intro n n' le
    have := Text.byteOffset_mono head (show head.length - n' ≤ head.length - n by omega)
    simp only [suffixBytes]
    omega
  -- a name the bytes end with is a name the characters end with, as long as its bytes
  have sameTest : ∀ name : List Char,
      (utf8 name).isSuffixOf (utf8 head) = name.isSuffixOf head := by
    intro name
    rw [Bool.eq_iff_iff, List.isSuffixOf_iff_suffix, List.isSuffixOf_iff_suffix,
      Text.suffix_utf8_iff]
  have nameBytes : ∀ name ∈ (atomNames scope w).filter (·.isSuffixOf head),
      (utf8 name).length = suffixBytes name.length := fun name listed =>
    Text.length_utf8_of_suffix (List.isSuffixOf_iff_suffix.mp (List.mem_filter.mp listed).2)
  unfold trailingAtomLen trailingAtomLength
  rw [trailingLen_eq, List.filter_congr fun name _ => sameTest name, List.map_congr_left nameBytes,
    ← largerLength_map_of_monotone monotone, ← longest_map_of_monotone monotone, List.map_map]
  rfl

/-- The sign an exponent may start with is the sign a signed literal starts with. -/
theorem leadingAtomLength_eq (scope : Scope) (w : Workspace) (tail : List Char) :
    leadingAtomLength scope w tail = largerLength (Literal.leadingLength tail true)
      (longest (((atomNames scope w).filter (·.isPrefixOf (tail.drop
        (Literal.signLength tail true)))).map (Literal.signLength tail true + ·.length))) := by
  unfold leadingAtomLength
  cases tail with
  | nil => rfl
  | cons c rest =>
    by_cases plus : c = '+'
    · subst plus
      rfl
    by_cases minus : c = '-'
    · subst minus
      rfl
    have notSign : isSignChar c = false := by simp [isSignChar, plus, minus]
    rw [Literal.signLength_of_head plus minus]
    simp only [notSign, Bool.false_eq_true, if_false]

/-- The exponent of a power, in bytes: the byte offset where the exponent the resolvers find
ends. -/
theorem leadingAtomLen_eq (scope : Scope) (w : Workspace) (tail : List Char) :
    leadingAtomLen (atomNames scope w) tail = (leadingAtomLength scope w tail).map
      (byteOffset tail) := by
  have signByte : (if holdsAt (utf8 tail) 0 isSign then 1 else 0) =
      Literal.signLength tail true := by
    rw [← signLength_utf8, signLength, Bool.true_and]
  have signOffset := byteOffset_signLength tail true
  have samePrefix : ∀ name : List Char,
      (utf8 name).isPrefixOf ((utf8 tail).drop (Literal.signLength tail true)) =
        name.isPrefixOf (tail.drop (Literal.signLength tail true)) := by
    intro name
    rw [drop_utf8_of_offset signOffset, Bool.eq_iff_iff, List.isPrefixOf_iff_prefix,
      List.isPrefixOf_iff_prefix, Text.prefix_utf8_iff]
  have nameBytes : ∀ name ∈ (atomNames scope w).filter
      (·.isPrefixOf (tail.drop (Literal.signLength tail true))),
      Literal.signLength tail true + (utf8 name).length =
        byteOffset tail (Literal.signLength tail true + name.length) := by
    intro name listed
    obtain ⟨rest, spelled⟩ := List.isPrefixOf_iff_prefix.mp (List.mem_filter.mp listed).2
    rw [Text.byteOffset_add, signOffset, ← spelled, byteOffset, List.take_left]
  -- a literal is ASCII, so its byte length is its length
  have literalBytes : (Literal.leadingLength tail true).map (byteOffset tail) =
      Literal.leadingLength tail true := by
    cases found : Literal.leadingLength tail true with
    | none => rfl
    | some n =>
      rw [Option.map_some, byteOffset_of_ascii (ascii_take_leadingLength found)
        (Literal.leadingLength_le_length found)]
  unfold leadingAtomLen
  dsimp only
  rw [leadingAtomLength_eq, signByte, leadingLen_eq,
    List.filter_congr fun name _ => samePrefix name,
    List.map_congr_left nameBytes]
  conv_lhs => rw [← literalBytes]
  rw [← largerLength_map_of_monotone (Text.byteOffset_mono tail),
    ← longest_map_of_monotone (Text.byteOffset_mono tail), List.map_map]
  rfl

/-! ## Brackets and function names -/

/-- From a `(` at a character position, the search for its closing bracket never fails, and
finds the byte offset of the `)` the resolvers find. -/
theorem closingBracketIndex_byteOffset (text : List Char) {k : Nat} (inside : k ≤ text.length) :
    closingBracketIndex text (byteOffset text k) =
      .ok ((closingOffset (text.drop k) 0 0).map fun offset => byteOffset text (k + offset)) := by
  unfold closingBracketIndex
  rw [Text.charPosition?_byteOffset text inside]
  simp only [Text.byteOffset_add]
  rfl

/-- Function names are ASCII, one byte per character. -/
theorem length_utf8_name (f : UnaryFn) : (utf8 f.name.toList).length = f.name.length := by
  cases f <;> rfl

theorem eq_of_name {f g : UnaryFn} (same : f.name.toList = g.name.toList) : f = g := by
  have named : ∀ h : UnaryFn, UnaryFn.ofName? h.name = some h := by
    intro h
    cases h <;> rfl
  have sameName : f.name = g.name := String.toList_inj.mp same
  have := named f
  rw [sameName, named g, Option.some.injEq] at this
  exact this.symm

/-- The function name a text ends with, found over bytes, is the one found over characters:
names the bytes end with are names the characters end with, and two such names as long are the
same name, so it does not matter which of them the search keeps. -/
theorem functionSuffix?_eq (text : List Char) : functionSuffix? text = UnaryFn.suffixOf? text := by
  unfold functionSuffix? UnaryFn.suffixOf?
  have start : ∀ g, (none : Option UnaryFn) = some g → g.name.toList <:+ text :=
    fun _ absurd => by cases absurd
  revert start
  generalize (none : Option UnaryFn) = best
  generalize UnaryFn.all = fs
  -- the best function so far is always named by an end of the text
  induction fs generalizing best with
  | nil => exact fun _ => rfl
  | cons f rest inductionHypothesis =>
    intro named
    rw [List.foldl_cons, List.foldl_cons]
    have sameTest :
        (utf8 f.name.toList).isSuffixOf (utf8 text) = f.name.toList.isSuffixOf text := by
      rw [Bool.eq_iff_iff, List.isSuffixOf_iff_suffix, List.isSuffixOf_iff_suffix,
        Text.suffix_utf8_iff]
    rw [sameTest]
    cases suffix : f.name.toList.isSuffixOf text with
    | false =>
      exact inductionHypothesis best named
    | true =>
      have own : f.name.toList <:+ text := List.isSuffixOf_iff_suffix.mp suffix
      cases best with
      | none => exact inductionHypothesis (some f) fun g chosen => by cases chosen; exact own
      | some g =>
        have other := named g rfl
        show List.foldl _ (if (utf8 g.name.toList).length ≤ (utf8 f.name.toList).length
            then some f else some g) rest =
          List.foldl _ (if g.name.length < f.name.length then some f else some g) rest
        rw [length_utf8_name, length_utf8_name]
        by_cases longer : g.name.length < f.name.length
        · rw [if_pos (Nat.le_of_lt longer), if_pos longer]
          exact inductionHypothesis (some f) fun h chosen => by cases chosen; exact own
        · by_cases equal : g.name.length = f.name.length
          · -- two names the text ends with, as long as each other, are the same name
            have same : g = f := by
              apply eq_of_name
              have lengths : g.name.toList.length = f.name.toList.length := by
                rw [String.length_toList, String.length_toList, equal]
              rcases List.suffix_or_suffix_of_suffix other own with gf | fg
              · exact gf.eq_of_length lengths
              · exact (fg.eq_of_length lengths.symm).symm
            subst same
            rw [if_pos (Nat.le_refl _), if_neg longer]
            exact inductionHypothesis (some g) named
          · rw [if_neg (by omega), if_neg longer]
            exact inductionHypothesis (some g) named

end ComplexFormula.Bytes
