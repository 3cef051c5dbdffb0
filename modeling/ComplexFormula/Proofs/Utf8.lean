import Mathlib
import ComplexFormula.Text.Utf8

/-!
# Byte offsets of UTF-8 text

A character is encoded in one to four bytes: an ASCII character in one byte below `0x80`, any
other in a leading byte from `0xC0` on and continuation bytes from `0x80` to `0xBF`
(`utf8EncodeChar_shape`). So the cuts of the bytes that a cut of the characters gives are
exactly the character boundaries (`isCharBoundary_iff`), and the encoding synchronizes: an
encoded text found in an encoded text, at its end or anywhere, is found there as characters
(`suffix_utf8_iff`, `occurs_utf8`).

The byte scanners test bytes where the resolvers test characters. A byte test that
answers for every byte of a character's encoding what a character test answers for the
character (`Reads`) scans the bytes as the character test scans the characters, and finds the
byte offset of what the character test finds (`Reads.findIdx?_utf8`, `Reads.takeWhile_utf8`).
-/

namespace ComplexFormula.Text

/-! ## The encoding of one character -/

/-- The four lengths of an encoding, with their bytes. -/
theorem utf8EncodeChar_shape (c : Char) :
    (c.toNat ≤ 0x7f ∧ String.utf8EncodeChar c = [UInt8.ofNat c.toNat]) ∨
    (0x7f < c.toNat ∧ c.toNat ≤ 0x7ff ∧ String.utf8EncodeChar c =
      [UInt8.ofNat (c.toNat / 64 % 32 + 192), UInt8.ofNat (c.toNat % 64 + 128)]) ∨
    (0x7ff < c.toNat ∧ c.toNat ≤ 0xffff ∧ String.utf8EncodeChar c =
      [UInt8.ofNat (c.toNat / 4096 % 16 + 224), UInt8.ofNat (c.toNat / 64 % 64 + 128),
        UInt8.ofNat (c.toNat % 64 + 128)]) ∨
    (0xffff < c.toNat ∧ String.utf8EncodeChar c =
      [UInt8.ofNat (c.toNat / 262144 % 8 + 240), UInt8.ofNat (c.toNat / 4096 % 64 + 128),
        UInt8.ofNat (c.toNat / 64 % 64 + 128), UInt8.ofNat (c.toNat % 64 + 128)]) := by
  have encoded : String.utf8EncodeChar c =
      if c.toNat ≤ 0x7f then [UInt8.ofNat c.toNat]
      else if c.toNat ≤ 0x7ff then
        [UInt8.ofNat (c.toNat / 64 % 32 + 192), UInt8.ofNat (c.toNat % 64 + 128)]
      else if c.toNat ≤ 0xffff then
        [UInt8.ofNat (c.toNat / 4096 % 16 + 224), UInt8.ofNat (c.toNat / 64 % 64 + 128),
          UInt8.ofNat (c.toNat % 64 + 128)]
      else
        [UInt8.ofNat (c.toNat / 262144 % 8 + 240), UInt8.ofNat (c.toNat / 4096 % 64 + 128),
          UInt8.ofNat (c.toNat / 64 % 64 + 128), UInt8.ofNat (c.toNat % 64 + 128)] := rfl
  rw [encoded]
  by_cases one : c.toNat ≤ 0x7f
  · exact Or.inl ⟨one, if_pos one⟩
  by_cases two : c.toNat ≤ 0x7ff
  · exact Or.inr (Or.inl ⟨by omega, two, by rw [if_neg one, if_pos two]⟩)
  by_cases three : c.toNat ≤ 0xffff
  · exact Or.inr (Or.inr (Or.inl ⟨by omega, three, by rw [if_neg one, if_neg two, if_pos three]⟩))
  exact Or.inr (Or.inr (Or.inr ⟨by omega, by rw [if_neg one, if_neg two, if_neg three]⟩))

/-- An ASCII character is its own byte. -/
theorem utf8EncodeChar_of_lt {c : Char} (ascii : c.toNat < 0x80) :
    String.utf8EncodeChar c = [UInt8.ofNat c.toNat] := by
  rcases utf8EncodeChar_shape c with ⟨-, encoded⟩ | ⟨wide, -⟩ | ⟨wide, -⟩ | ⟨wide, -⟩
  · exact encoded
  all_goals omega

/-- Every byte of a character beyond ASCII is beyond ASCII. -/
theorem le_of_mem_utf8EncodeChar {c : Char} (wide : 0x80 ≤ c.toNat) {b : UInt8}
    (mem : b ∈ String.utf8EncodeChar c) : 0x80 ≤ b := by
  rcases utf8EncodeChar_shape c with ⟨narrow, -⟩ | ⟨-, -, encoded⟩ | ⟨-, -, encoded⟩ | ⟨-, encoded⟩
  · omega
  all_goals
    rw [encoded] at mem
    simp only [List.mem_cons, List.not_mem_nil, or_false] at mem
    rw [UInt8.le_iff_toNat_le]
  · rcases mem with rfl | rfl <;> simp <;> omega
  · rcases mem with rfl | rfl | rfl <;> simp <;> omega
  · rcases mem with rfl | rfl | rfl | rfl <;> simp <;> omega

/-- Only the first byte of an encoding starts a character. -/
theorem startsChar_getElem_utf8EncodeChar (c : Char) (i : Nat)
    (inside : i < (String.utf8EncodeChar c).length) :
    startsChar (String.utf8EncodeChar c)[i] = (i == 0) := by
  rcases utf8EncodeChar_shape c with ⟨narrow, encoded⟩ | ⟨low, high, encoded⟩ |
      ⟨low, high, encoded⟩ | ⟨low, encoded⟩ <;>
  · simp only [encoded, List.length_cons, List.length_nil] at inside ⊢
    rcases i with _ | _ | _ | _ | i <;>
      simp [startsChar, UInt8.lt_iff_toNat_lt, UInt8.le_iff_toNat_le] at inside ⊢ <;> omega

theorem startsChar_head_utf8EncodeChar (c : Char) :
    ∃ x rest, String.utf8EncodeChar c = x :: rest ∧ startsChar x = true := by
  obtain ⟨x, rest, encoded⟩ := List.exists_cons_of_ne_nil (String.utf8EncodeChar_ne_nil (c := c))
  refine ⟨x, rest, encoded, ?_⟩
  have first := startsChar_getElem_utf8EncodeChar c 0 (by rw [encoded]; simp)
  simpa [encoded] using first

/-- The bytes of a character after its first continue it. -/
theorem startsChar_tail_utf8EncodeChar (c : Char) :
    ∀ x ∈ (String.utf8EncodeChar c).tail, startsChar x = false := by
  intro x mem
  obtain ⟨i, inside, rfl⟩ := List.getElem_of_mem mem
  have later :=
    startsChar_getElem_utf8EncodeChar c (i + 1) (by rw [List.length_tail] at inside; omega)
  rw [List.getElem_tail]
  simpa using later

/-! ## Byte offsets -/

@[simp] theorem utf8_nil : utf8 [] = [] := rfl

@[simp] theorem utf8_cons (c : Char) (cs : List Char) :
    utf8 (c :: cs) = String.utf8EncodeChar c ++ utf8 cs := rfl

@[simp] theorem utf8_append (xs ys : List Char) : utf8 (xs ++ ys) = utf8 xs ++ utf8 ys := by
  simp [utf8]

theorem length_utf8_cons (c : Char) (cs : List Char) :
    (utf8 (c :: cs)).length = c.utf8Size + (utf8 cs).length := by
  simp

/-- Every character takes at least one byte. -/
theorem length_le_length_utf8 (cs : List Char) : cs.length ≤ (utf8 cs).length := by
  induction cs with
  | nil => exact Nat.le_refl 0
  | cons c cs inductionHypothesis =>
    have := c.utf8Size_pos
    rw [length_utf8_cons, List.length_cons]
    omega

@[simp] theorem byteOffset_zero (cs : List Char) : byteOffset cs 0 = 0 := rfl

@[simp] theorem byteOffset_nil (k : Nat) : byteOffset [] k = 0 := by
  simp [byteOffset]

theorem byteOffset_cons_succ (c : Char) (cs : List Char) (k : Nat) :
    byteOffset (c :: cs) (k + 1) = c.utf8Size + byteOffset cs k := by
  simp [byteOffset]

theorem byteOffset_length (cs : List Char) : byteOffset cs cs.length = (utf8 cs).length := by
  simp [byteOffset]

theorem utf8_eq_append (cs : List Char) (k : Nat) :
    utf8 cs = utf8 (cs.take k) ++ utf8 (cs.drop k) := by
  rw [← utf8_append, List.take_append_drop]

theorem take_utf8_byteOffset (cs : List Char) (k : Nat) :
    (utf8 cs).take (byteOffset cs k) = utf8 (cs.take k) := by
  rw [utf8_eq_append cs k, byteOffset, List.take_left]

theorem drop_utf8_byteOffset (cs : List Char) (k : Nat) :
    (utf8 cs).drop (byteOffset cs k) = utf8 (cs.drop k) := by
  rw [utf8_eq_append cs k, byteOffset, List.drop_left]

/-- The offset of a position `k` past `j` adds the offset of `k` in the text after `j`. -/
theorem byteOffset_add (cs : List Char) (j k : Nat) :
    byteOffset cs (j + k) = byteOffset cs j + byteOffset (cs.drop j) k := by
  rw [byteOffset, byteOffset, byteOffset, List.take_add, utf8_append, List.length_append]

theorem byteOffset_mono (cs : List Char) : Monotone (byteOffset cs) := by
  intro j k le
  obtain ⟨d, rfl⟩ := Nat.exists_eq_add_of_le le
  rw [byteOffset_add]
  exact Nat.le_add_right _ _

/-- Each character takes at least one byte, so offsets grow with positions. -/
theorem byteOffset_lt_byteOffset {cs : List Char} {j k : Nat} (before : j < k)
    (inside : k ≤ cs.length) : byteOffset cs j < byteOffset cs k := by
  induction cs generalizing j k with
  | nil => simp at inside; omega
  | cons c cs inductionHypothesis =>
    obtain ⟨k, rfl⟩ : ∃ k', k = k' + 1 := ⟨k - 1, by omega⟩
    rw [byteOffset_cons_succ]
    cases j with
    | zero => have := c.utf8Size_pos; simp; omega
    | succ j =>
      rw [byteOffset_cons_succ]
      have := inductionHypothesis (show j < k by omega) (by simp at inside; omega)
      omega

theorem byteOffset_injective {cs : List Char} {j k : Nat} (insideJ : j ≤ cs.length)
    (insideK : k ≤ cs.length) (same : byteOffset cs j = byteOffset cs k) : j = k := by
  rcases Nat.lt_trichotomy j k with before | equal | after
  · exact absurd same (Nat.ne_of_lt (byteOffset_lt_byteOffset before insideK))
  · exact equal
  · exact absurd same.symm (Nat.ne_of_lt (byteOffset_lt_byteOffset after insideJ))

theorem byteOffset_lt_byteOffset_iff {cs : List Char} {j k : Nat} (inside : k ≤ cs.length) :
    byteOffset cs j < byteOffset cs k ↔ j < k := by
  constructor
  · intro smaller
    by_contra notBefore
    exact absurd (byteOffset_mono cs (Nat.le_of_not_lt notBefore)) (Nat.not_le_of_lt smaller)
  · intro before
    exact byteOffset_lt_byteOffset before inside

/-- After an ASCII character the offset moves on by one. -/
theorem byteOffset_succ_of_lt {cs : List Char} {k : Nat} {c : Char} (found : cs[k]? = some c)
    (ascii : c.toNat < 0x80) : byteOffset cs (k + 1) = byteOffset cs k + 1 := by
  have inside : k < cs.length := (List.getElem?_eq_some_iff.mp found).1
  rw [byteOffset, byteOffset, List.take_add_one, found, Option.toList_some, utf8_append,
    List.length_append, utf8_cons, utf8_nil, List.append_nil, utf8EncodeChar_of_lt ascii,
    List.length_singleton]

/-! ## Character boundaries -/

theorem startsChar_head_utf8 {cs : List Char} {x : UInt8} (first : (utf8 cs).head? = some x) :
    startsChar x = true := by
  cases cs with
  | nil => cases first
  | cons c cs =>
    obtain ⟨y, rest, encoded, starts⟩ := startsChar_head_utf8EncodeChar c
    rw [utf8_cons, encoded, List.cons_append, List.head?_cons, Option.some.injEq] at first
    exact first ▸ starts

/-- Past the encoding of a first character, the boundaries are those of the rest. -/
theorem isCharBoundary_cons_of_le (c : Char) (cs : List Char) {b : Nat}
    (after : c.utf8Size ≤ b) :
    isCharBoundary (utf8 (c :: cs)) b = isCharBoundary (utf8 cs) (b - c.utf8Size) := by
  obtain ⟨d, rfl⟩ : ∃ d, b = c.utf8Size + d := ⟨b - c.utf8Size, by omega⟩
  have positive := c.utf8Size_pos
  rw [Nat.add_sub_cancel_left, utf8_cons]
  unfold isCharBoundary
  rw [List.getElem?_append_right (by simp), String.length_utf8EncodeChar,
    Nat.add_sub_cancel_left, List.length_append, String.length_utf8EncodeChar]
  cases d with
  | zero =>
    -- the offset right after the first character is the start of the rest
    cases found : (utf8 cs)[0]? with
    | none => simp_all
    | some x =>
      have starts := startsChar_head_utf8 (by rw [List.head?_eq_getElem?]; exact found)
      simp [starts]
  | succ d =>
    have notStart : (c.utf8Size + (d + 1) == 0) = false := by simp
    rw [notStart, show (d + 1 == 0) = false from rfl, Bool.false_or, Bool.false_or]
    cases (utf8 cs)[d + 1]? with
    | none => exact Bool.eq_iff_iff.mpr (by simp)
    | some x => rfl

/-- Inside the encoding of a first character, no offset is a boundary. -/
theorem isCharBoundary_cons_of_lt (c : Char) (cs : List Char) {b : Nat} (positive : 0 < b)
    (inside : b < c.utf8Size) : isCharBoundary (utf8 (c :: cs)) b = false := by
  have continuing := startsChar_getElem_utf8EncodeChar c b (by simpa using inside)
  unfold isCharBoundary
  rw [utf8_cons, List.getElem?_append_left (by simpa using inside),
    List.getElem?_eq_getElem (by simpa using inside)]
  simp only [continuing]
  simp
  omega

/-- The character boundaries of the bytes are exactly the byte offsets of character
positions. -/
theorem isCharBoundary_iff (cs : List Char) (b : Nat) :
    isCharBoundary (utf8 cs) b = true ↔ ∃ k ≤ cs.length, byteOffset cs k = b := by
  induction cs generalizing b with
  | nil =>
    simp only [utf8_nil, isCharBoundary, List.getElem?_nil, List.length_nil, Bool.or_self,
      beq_iff_eq, byteOffset_nil, Nat.le_zero]
    exact ⟨fun start => ⟨0, rfl, start.symm⟩, fun ⟨_, _, start⟩ => start.symm⟩
  | cons c cs inductionHypothesis =>
    by_cases start : b = 0
    · subst start
      exact ⟨fun _ => ⟨0, Nat.zero_le _, rfl⟩, fun _ => by simp [isCharBoundary]⟩
    by_cases within : b < c.utf8Size
    · -- inside the first character's bytes: no boundary, and no position lands there
      rw [isCharBoundary_cons_of_lt c cs (Nat.pos_of_ne_zero start) within]
      simp only [Bool.false_eq_true, false_iff, not_exists, not_and]
      intro k _ lands
      cases k with
      | zero => exact start lands.symm
      | succ k => rw [byteOffset_cons_succ] at lands; omega
    · rw [isCharBoundary_cons_of_le c cs (by omega), inductionHypothesis]
      constructor
      · rintro ⟨k, inside, lands⟩
        exact ⟨k + 1, by simpa using inside, by rw [byteOffset_cons_succ]; omega⟩
      · rintro ⟨k, inside, lands⟩
        cases k with
        | zero => exact absurd lands.symm start
        | succ k =>
          rw [byteOffset_cons_succ] at lands
          exact ⟨k, by simpa using inside, by omega⟩

theorem isCharBoundary_byteOffset (cs : List Char) {k : Nat} (inside : k ≤ cs.length) :
    isCharBoundary (utf8 cs) (byteOffset cs k) = true :=
  (isCharBoundary_iff cs _).mpr ⟨k, inside, rfl⟩

theorem charPosition?_byteOffset (cs : List Char) {k : Nat} (inside : k ≤ cs.length) :
    charPosition? cs (byteOffset cs k) = some k := by
  unfold charPosition?
  rw [List.find?_eq_some_iff_getElem]
  refine ⟨by simp, k, by simp; omega, by simp, fun j before => ?_⟩
  simp only [List.getElem_range, Bool.not_eq_true', beq_eq_false_iff_ne, ne_eq]
  exact Nat.ne_of_lt (byteOffset_lt_byteOffset before inside)

/-- A byte offset is read back as a character position exactly at a character boundary. -/
theorem charPosition?_eq_some_iff (cs : List Char) (b k : Nat) :
    charPosition? cs b = some k ↔ k ≤ cs.length ∧ byteOffset cs k = b := by
  constructor
  · intro found
    have mem := List.mem_of_find?_eq_some found
    have hit := List.find?_some found
    simp only [List.mem_range, beq_iff_eq] at mem hit
    exact ⟨by omega, hit⟩
  · rintro ⟨inside, rfl⟩
    exact charPosition?_byteOffset cs inside

theorem charPosition?_isSome_iff (cs : List Char) (b : Nat) :
    (charPosition? cs b).isSome = isCharBoundary (utf8 cs) b := by
  cases found : charPosition? cs b with
  | none =>
    symm
    rw [Option.isSome_none, Bool.eq_false_iff, ne_eq, isCharBoundary_iff]
    rintro ⟨k, inside, rfl⟩
    rw [charPosition?_byteOffset cs inside] at found
    cases found
  | some k =>
    obtain ⟨inside, rfl⟩ := (charPosition?_eq_some_iff cs b k).mp found
    exact (isCharBoundary_byteOffset cs inside).symm

/-! ## The encoding is injective and synchronizes -/

theorem utf8Encode_eq (cs : List Char) : cs.utf8Encode = (utf8 cs).toByteArray := rfl

theorem utf8_injective {xs ys : List Char} (same : utf8 xs = utf8 ys) : xs = ys := by
  have encoded : xs.utf8Encode = ys.utf8Encode := by rw [utf8Encode_eq, utf8Encode_eq, same]
  have decoded := congrArg ByteArray.utf8Decode? encoded
  rw [List.utf8Decode?_utf8Encode, List.utf8Decode?_utf8Encode, Option.some.injEq] at decoded
  simpa using congrArg Array.toList decoded

/-- Where encoded characters follow some bytes, those bytes end at a character boundary. -/
theorem isCharBoundary_of_append {front : List UInt8} {xs ys : List Char}
    (spelled : front ++ utf8 xs = utf8 ys) : isCharBoundary (utf8 ys) front.length = true := by
  unfold isCharBoundary
  rw [← spelled, List.getElem?_append_right (Nat.le_refl _), Nat.sub_self,
    ← List.head?_eq_getElem?]
  cases first : (utf8 xs).head? with
  | none =>
    rw [List.head?_eq_none_iff] at first
    simp [first]
  | some x => simp [startsChar_head_utf8 first]

/-- Encoded characters that end an encoded text end it as characters. -/
theorem suffix_utf8_iff (xs ys : List Char) : utf8 xs <:+ utf8 ys ↔ xs <:+ ys := by
  constructor
  · rintro ⟨front, spelled⟩
    obtain ⟨k, -, lands⟩ := (isCharBoundary_iff ys _).mp (isCharBoundary_of_append spelled)
    have rest : utf8 (ys.drop k) = utf8 xs := by
      rw [← drop_utf8_byteOffset, lands, ← spelled, List.drop_left]
    exact ⟨ys.take k, by rw [← utf8_injective rest, List.take_append_drop]⟩
  · rintro ⟨front, rfl⟩
    exact ⟨utf8 front, (utf8_append front xs).symm⟩

/-- The bytes of a name a text ends with are the bytes from the offset where the name starts. -/
theorem length_utf8_of_suffix {name text : List Char} (suffix : name <:+ text) :
    (utf8 name).length = (utf8 text).length - byteOffset text (text.length - name.length) := by
  obtain ⟨front, rfl⟩ := suffix
  simp only [List.length_append, Nat.add_sub_cancel, byteOffset, List.take_left, utf8_append]
  omega

/-- The offsets of the positions of a text before a cut are its own. -/
theorem byteOffset_take (cs : List Char) {j k : Nat} (before : j ≤ k) :
    byteOffset (cs.take k) j = byteOffset cs j := by
  rw [byteOffset, byteOffset, List.take_take, Nat.min_eq_left before]

/-- Encoded characters that start an encoded text start it as characters. -/
theorem prefix_utf8_iff (xs ys : List Char) : utf8 xs <+: utf8 ys ↔ xs <+: ys := by
  constructor
  · rintro ⟨rest, spelled⟩
    apply List.isPrefix_of_utf8Encode_append_eq_utf8Encode rest.toByteArray
    rw [utf8Encode_eq, utf8Encode_eq, ← List.toByteArray_append, spelled]
  · rintro ⟨rest, rfl⟩
    exact ⟨utf8 rest, (utf8_append xs rest).symm⟩

/-- Encoded characters found at a byte offset of an encoded text are found there as characters,
and the offset is a character boundary. -/
theorem occurs_utf8 {xs ys : List Char} {rest : List UInt8} {b : Nat} (nonempty : xs ≠ [])
    (found : (utf8 ys).drop b = utf8 xs ++ rest) :
    ∃ k ≤ ys.length, byteOffset ys k = b ∧ xs <+: ys.drop k := by
  obtain ⟨x, xs', rfl⟩ := List.exists_cons_of_ne_nil nonempty
  obtain ⟨y, encodedRest, encoded, starts⟩ := startsChar_head_utf8EncodeChar x
  have inside : b < (utf8 ys).length := by
    by_contra outside
    rw [List.drop_eq_nil_of_le (by omega), utf8_cons, encoded] at found
    cases found
  have boundary : isCharBoundary (utf8 ys) b = true := by
    unfold isCharBoundary
    rw [← List.head?_drop, found, utf8_cons, encoded]
    simp [starts]
  obtain ⟨k, within, rfl⟩ := (isCharBoundary_iff ys b).mp boundary
  refine ⟨k, within, rfl, List.isPrefix_of_utf8Encode_append_eq_utf8Encode rest.toByteArray ?_⟩
  rw [utf8Encode_eq, utf8Encode_eq, ← List.toByteArray_append, ← found, drop_utf8_byteOffset]

/-! ## Byte tests that read character tests -/

/-- A byte test reads a character test when it answers, on every byte of the encoding of a
character, what the character test answers for the character. -/
def Reads (p : UInt8 → Bool) (q : Char → Bool) : Prop :=
  ∀ c, ∀ b ∈ String.utf8EncodeChar c, p b = q c

/-- A byte test reads a character test when both hold only of ASCII and agree on it. -/
theorem Reads.of_ascii {p : UInt8 → Bool} {q : Char → Bool}
    (narrowChar : ∀ c, q c = true → c.toNat < 0x80) (narrowByte : ∀ b, p b = true → b < 0x80)
    (table : ∀ n : Fin 0x80, p (UInt8.ofNat n) = q (Char.ofNat n)) : Reads p q := by
  intro c b mem
  by_cases small : c.toNat < 0x80
  · rw [utf8EncodeChar_of_lt small, List.mem_singleton] at mem
    rw [mem]
    simpa only [Char.ofNat_toNat] using table ⟨c.toNat, small⟩
  · have high := le_of_mem_utf8EncodeChar (by omega) mem
    cases holds : q c with
    | true => exact absurd (narrowChar c holds) small
    | false =>
      cases accepts : p b with
      | false => rfl
      | true =>
        have := narrowByte b accepts
        rw [UInt8.lt_iff_toNat_lt] at this
        rw [UInt8.le_iff_toNat_le] at high
        simp at this high
        omega

/-- The byte test for an ASCII character's byte reads the test for the character. -/
theorem Reads.ascii (c₀ : Char) (small : c₀.toNat < 0x80) :
    Reads (· == UInt8.ofNat c₀.toNat) (· == c₀) := by
  have byteCode : ∀ m, m < 0x80 → (UInt8.ofNat m).toNat = m := fun m below => by
    rw [UInt8.toNat_ofNat']
    omega
  apply Reads.of_ascii
  · intro c same
    rw [beq_iff_eq] at same
    rwa [same]
  · intro b same
    rw [beq_iff_eq] at same
    rw [same, UInt8.lt_iff_toNat_lt, byteCode _ small]
    simp only [UInt8.reduceToNat]
    omega
  · intro n
    have charCode : (Char.ofNat n).toNat = n := by
      rw [Char.toNat_ofNat, if_pos (Or.inl (by omega))]
    apply Bool.eq_iff_iff.mpr
    rw [beq_iff_eq, beq_iff_eq, ← UInt8.toNat_inj, byteCode _ n.isLt, byteCode _ small,
      ← Char.toNat_inj, charCode]

theorem Reads.or {p p' : UInt8 → Bool} {q q' : Char → Bool} (reads : Reads p q)
    (reads' : Reads p' q') : Reads (fun b => p b || p' b) (fun c => q c || q' c) :=
  fun c b mem => by
    show (p b || p' b) = (q c || q' c)
    rw [reads c b mem, reads' c b mem]

section Reads

variable {p : UInt8 → Bool} {q : Char → Bool} (reads : Reads p q)
include reads

theorem Reads.takeWhile_utf8 (cs : List Char) :
    (utf8 cs).takeWhile p = utf8 (cs.takeWhile q) := by
  induction cs with
  | nil => rfl
  | cons c cs inductionHypothesis =>
    rw [utf8_cons, List.takeWhile_cons]
    cases holds : q c with
    | true =>
      rw [List.takeWhile_append_of_pos fun b mem => (reads c b mem).trans holds,
        inductionHypothesis]
      simp
    | false =>
      obtain ⟨x, rest, encoded, -⟩ := startsChar_head_utf8EncodeChar c
      have rejects : p x = false := (reads c x (by rw [encoded]; simp)).trans holds
      simp [encoded, rejects]

theorem Reads.reverse_takeWhile_utf8 (cs : List Char) :
    ((utf8 cs).reverse.takeWhile p).length = (utf8 (cs.reverse.takeWhile q)).length := by
  induction cs using List.reverseRecOn with
  | nil => rfl
  | append_singleton cs c inductionHypothesis =>
    rw [utf8_append, List.reverse_append, List.reverse_append]
    simp only [utf8_cons, utf8_nil, List.append_nil, List.reverse_singleton,
      List.singleton_append, List.takeWhile_cons]
    cases holds : q c with
    | true =>
      rw [List.takeWhile_append_of_pos fun b mem =>
          (reads c b (List.mem_reverse.mp mem)).trans holds]
      simp [inductionHypothesis]
    | false =>
      obtain ⟨y, front, reversed⟩ := List.exists_cons_of_ne_nil
        (List.reverse_ne_nil_iff.mpr (String.utf8EncodeChar_ne_nil (c := c)))
      have rejects : p y = false :=
        (reads c y (List.mem_reverse.mp (by rw [reversed]; simp))).trans holds
      simp [reversed, rejects]

theorem Reads.findIdx?_utf8 (cs : List Char) :
    (utf8 cs).findIdx? p = (cs.findIdx? q).map (byteOffset cs) := by
  induction cs with
  | nil => rfl
  | cons c cs inductionHypothesis =>
    rw [utf8_cons, List.findIdx?_cons]
    cases holds : q c with
    | true =>
      obtain ⟨x, rest, encoded, -⟩ := startsChar_head_utf8EncodeChar c
      have accepts : p x = true := (reads c x (by rw [encoded]; simp)).trans holds
      simp [encoded, List.findIdx?_cons, accepts]
    | false =>
      rw [List.findIdx?_append, List.findIdx?_eq_none_iff.mpr fun b mem =>
        (reads c b mem).trans holds, inductionHypothesis]
      simp [Option.map_map, Function.comp_def, byteOffset_cons_succ, Nat.add_comm]

theorem Reads.getElem?_utf8 (cs : List Char) (k : Nat) :
    (utf8 cs)[byteOffset cs k]?.map p = cs[k]?.map q := by
  rw [← List.head?_drop, drop_utf8_byteOffset, ← List.head?_drop]
  cases dropped : cs.drop k with
  | nil => rfl
  | cons c rest =>
    obtain ⟨x, encodedRest, encoded, -⟩ := startsChar_head_utf8EncodeChar c
    simp [encoded, reads c x (by rw [encoded]; simp)]

theorem Reads.any_utf8 (cs : List Char) : (utf8 cs).any p = cs.any q := by
  induction cs with
  | nil => rfl
  | cons c cs inductionHypothesis =>
    rw [utf8_cons, List.any_append, inductionHypothesis, List.any_cons]
    congr 1
    obtain ⟨x, rest, encoded, -⟩ := startsChar_head_utf8EncodeChar c
    rw [Bool.eq_iff_iff, List.any_eq_true]
    constructor
    · rintro ⟨b, mem, accepts⟩
      exact (reads c b mem).symm.trans accepts
    · intro holds
      exact ⟨x, by rw [encoded]; simp, (reads c x (by rw [encoded]; simp)).trans holds⟩

end Reads

end ComplexFormula.Text
