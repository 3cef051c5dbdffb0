import Mathlib
import ComplexFormula.Proofs.ReadingBack

/-!
# Working text as characters and placeholders

The passes of the resolver rewrite text in which the parts already resolved stand as
placeholders `|_n_|`. Read as a list of pieces, a working text is a sequence of characters
and placeholders (`Piece.join`), and its *shape* (`Piece.shape`) keeps the characters and
shows each placeholder as one bar. A placeholder is made of bars, underscores and digits,
and it starts and ends with a bar; every scan the resolvers make either stops at a bar or
passes over a placeholder as a whole. So what a scan finds depends on the shape only: a
position it finds in the text is where the piece it finds in the shape starts
(`Piece.offset`), and a length it measures covers whole pieces.

This module proves that of each scan the resolvers make: the searches for brackets and
operators, the bracket depth, the function name before a group, the split of a sum, the
operands of a power, and the entity a leaf is split around. A scan that looks for a name
finds it in the characters after the last placeholder or before the first one, where it
reads the text as if nothing were pending.
-/

namespace ComplexFormula

/-- A piece of working text: a character, or a placeholder by its number. -/
inductive Piece where
  | char (c : Char)
  | held (n : Nat)
deriving DecidableEq

namespace Piece

/-- The characters a piece stands for. -/
def text : Piece → List Char
  | char c => [c]
  | held n => placeholderText n

/-- What a scan sees of a piece: its character, or a bar for a placeholder. -/
def glyph : Piece → Char
  | char c => c
  | held _ => '|'

/-- The number of a placeholder. -/
def number? : Piece → Option Nat
  | char _ => none
  | held n => some n

/-- The text of a list of pieces. -/
def join (ps : List Piece) : List Char := ps.flatMap text

/-- One glyph for each piece. -/
def shape (ps : List Piece) : List Char := ps.map glyph

/-- The numbers of the placeholders among the pieces, in order. -/
def numbers (ps : List Piece) : List Nat := ps.filterMap number?

/-- Where the piece at index `k` starts in the text. -/
def offset (ps : List Piece) (k : Nat) : Nat := (join (ps.take k)).length

/-! ## Texts and shapes of lists of pieces -/

@[simp] theorem text_char (c : Char) : (char c).text = [c] := rfl
@[simp] theorem text_held (n : Nat) : (held n).text = placeholderText n := rfl
@[simp] theorem glyph_char (c : Char) : (char c).glyph = c := rfl
@[simp] theorem glyph_held (n : Nat) : (held n).glyph = '|' := rfl

@[simp] theorem join_nil : join [] = [] := rfl

@[simp] theorem join_cons (p : Piece) (ps : List Piece) : join (p :: ps) = p.text ++ join ps :=
  List.flatMap_cons

@[simp] theorem join_append (ps qs : List Piece) : join (ps ++ qs) = join ps ++ join qs :=
  List.flatMap_append

@[simp] theorem shape_nil : shape [] = [] := rfl

@[simp] theorem shape_cons (p : Piece) (ps : List Piece) : shape (p :: ps) = p.glyph :: shape ps :=
  rfl

@[simp] theorem shape_append (ps qs : List Piece) : shape (ps ++ qs) = shape ps ++ shape qs :=
  List.map_append

@[simp] theorem length_shape (ps : List Piece) : (shape ps).length = ps.length :=
  List.length_map _

@[simp] theorem numbers_nil : numbers [] = [] := rfl

@[simp] theorem numbers_append (ps qs : List Piece) :
    numbers (ps ++ qs) = numbers ps ++ numbers qs :=
  List.filterMap_append

@[simp] theorem numbers_char_cons (c : Char) (ps : List Piece) :
    numbers (char c :: ps) = numbers ps := rfl

@[simp] theorem numbers_held_cons (n : Nat) (ps : List Piece) :
    numbers (held n :: ps) = n :: numbers ps := rfl

@[simp] theorem join_map_char (cs : List Char) : join (cs.map char) = cs := by
  induction cs with
  | nil => rfl
  | cons c cs inductionHypothesis => simp [inductionHypothesis]

@[simp] theorem shape_map_char (cs : List Char) : shape (cs.map char) = cs := by
  simp [shape, Function.comp_def]

@[simp] theorem numbers_map_char (cs : List Char) : numbers (cs.map char) = [] := by
  induction cs with
  | nil => rfl
  | cons c cs inductionHypothesis => simpa using inductionHypothesis

theorem text_ne_nil (p : Piece) : p.text ≠ [] := by
  cases p <;> simp [placeholderText]

theorem join_eq_nil_iff {ps : List Piece} : join ps = [] ↔ ps = [] := by
  cases ps with
  | nil => simp
  | cons p ps => simp [text_ne_nil p]

/-- A list of pieces ends with its characters after the last placeholder. -/
theorem exists_trailing_chars (ps : List Piece) :
    ∃ (front : List Piece) (cs : List Char), ps = front ++ cs.map char ∧
      (front = [] ∨ ∃ n, front.getLast? = some (held n)) := by
  induction ps using List.reverseRecOn with
  | nil => exact ⟨[], [], rfl, Or.inl rfl⟩
  | append_singleton ps p inductionHypothesis =>
    cases p with
    | held n => exact ⟨ps ++ [held n], [], by simp, Or.inr ⟨n, by simp⟩⟩
    | char c =>
      obtain ⟨front, cs, rfl, ending⟩ := inductionHypothesis
      exact ⟨front, cs ++ [c], by simp, ending⟩

/-- A list of pieces starts with its characters before the first placeholder. -/
theorem exists_leading_chars (ps : List Piece) :
    ∃ (cs : List Char) (back : List Piece), ps = cs.map char ++ back ∧
      (back = [] ∨ ∃ n rest, back = held n :: rest) := by
  induction ps with
  | nil => exact ⟨[], [], rfl, Or.inl rfl⟩
  | cons p ps inductionHypothesis =>
    cases p with
    | held n => exact ⟨[], held n :: ps, rfl, Or.inr ⟨n, ps, rfl⟩⟩
    | char c =>
      obtain ⟨cs, back, rfl, starting⟩ := inductionHypothesis
      exact ⟨c :: cs, back, rfl, starting⟩

/-! ## Offsets -/

theorem join_take_append_drop (ps : List Piece) (k : Nat) :
    join (ps.take k) ++ join (ps.drop k) = join ps := by
  rw [← join_append, List.take_append_drop]

theorem take_join (ps : List Piece) (k : Nat) : (join ps).take (offset ps k) = join (ps.take k) := by
  conv => lhs; rw [← join_take_append_drop ps k]
  exact List.take_left' rfl

theorem drop_join (ps : List Piece) (k : Nat) : (join ps).drop (offset ps k) = join (ps.drop k) := by
  conv => lhs; rw [← join_take_append_drop ps k]
  exact List.drop_left' rfl

@[simp] theorem offset_zero (ps : List Piece) : offset ps 0 = 0 := by
  simp [offset]

theorem offset_cons_succ (p : Piece) (ps : List Piece) (k : Nat) :
    offset (p :: ps) (k + 1) = p.text.length + offset ps k := by
  simp [offset]

theorem offset_of_length_le {ps : List Piece} {k : Nat} (beyond : ps.length ≤ k) :
    offset ps k = (join ps).length := by
  rw [offset, List.take_of_length_le beyond]

/-- The offsets of the pieces grow with their indices. -/
theorem offset_lt_offset {ps : List Piece} {k k' : Nat} (before : k < k') (inside : k < ps.length) :
    offset ps k < offset ps k' := by
  induction ps generalizing k k' with
  | nil => simp at inside
  | cons p ps inductionHypothesis =>
    obtain ⟨j', rfl⟩ : ∃ j', k' = j' + 1 := ⟨k' - 1, by omega⟩
    rw [offset_cons_succ]
    cases k with
    | zero =>
      have := List.length_pos_iff.mpr (text_ne_nil p)
      simp only [offset_zero]
      omega
    | succ j =>
      rw [offset_cons_succ]
      have := inductionHypothesis (show j < j' by omega) (show j < ps.length by simpa using inside)
      omega

theorem offset_le_offset {ps : List Piece} {k k' : Nat} (before : k ≤ k') :
    offset ps k ≤ offset ps k' := by
  rw [offset, offset, ← List.take_append_drop k (ps.take k'), List.take_take, Nat.min_eq_left before,
    join_append, List.length_append]
  exact Nat.le_add_right _ _

/-- The text at the start of a piece shows its glyph. -/
theorem getElem?_join_offset (ps : List Piece) (k : Nat) :
    (join ps)[offset ps k]? = (shape ps)[k]? := by
  induction ps generalizing k with
  | nil => simp [offset]
  | cons p ps inductionHypothesis =>
    cases k with
    | zero => cases p <;> simp [placeholderText]
    | succ k =>
      rw [offset_cons_succ, join_cons, List.getElem?_append_right (Nat.le_add_right _ _),
        Nat.add_sub_cancel_left, inductionHypothesis, shape_cons, List.getElem?_cons_succ]

theorem text_getLast? (p : Piece) : p.text.getLast? = some p.glyph := by
  cases p with
  | char c => rfl
  | held n =>
    rw [text_held, placeholderText, show ['_', '|'] = ['_'] ++ ['|'] from rfl,
      ← List.append_assoc, List.getLast?_concat, glyph_held]

theorem text_head? (p : Piece) : p.text.head? = some p.glyph := by
  cases p <;> simp [placeholderText]

/-- A list of pieces around the piece at index `k`. -/
theorem eq_take_cons_drop {ps : List Piece} {k : Nat} {p : Piece} (found : ps[k]? = some p) :
    ps = ps.take k ++ p :: ps.drop (k + 1) := by
  obtain ⟨inside, rfl⟩ := List.getElem?_eq_some_iff.mp found
  conv => lhs; rw [← List.take_append_drop k ps, List.drop_eq_getElem_cons inside]

theorem offset_succ {ps : List Piece} {k : Nat} {p : Piece} (found : ps[k]? = some p) :
    offset ps (k + 1) = offset ps k + p.text.length := by
  have inside := (List.getElem?_eq_some_iff.mp found).1
  rw [offset, List.take_add_one, found, Option.toList_some, join_append, List.length_append,
    join_cons, join_nil, List.append_nil]
  rfl

/-- The text right before a piece shows the glyph of the piece before it. -/
theorem getElem?_join_offset_pred (ps : List Piece) {k : Nat} (inside : k ≤ ps.length) :
    (join ps)[offset ps k - 1]? = (shape ps)[k - 1]? := by
  cases k with
  | zero => simpa using getElem?_join_offset ps 0
  | succ k =>
    obtain ⟨p, found⟩ : ∃ p, ps[k]? = some p := ⟨ps[k], List.getElem?_eq_getElem (by omega)⟩
    have positive := List.length_pos_iff.mpr (text_ne_nil p)
    have split : join ps = join (ps.take k) ++ (p.text ++ join (ps.drop (k + 1))) := by
      conv => lhs; rw [eq_take_cons_drop found]
      simp
    have last : (join ps)[offset ps k + (p.text.length - 1)]? = some p.glyph := by
      rw [split, List.getElem?_append_right (by rw [offset]; omega),
        show offset ps k + (p.text.length - 1) - (join (ps.take k)).length =
          p.text.length - 1 by rw [offset]; omega,
        List.getElem?_append_left (by omega), ← List.getLast?_eq_getElem?, text_getLast?]
    rw [offset_succ found, show offset ps k + p.text.length - 1 = offset ps k + (p.text.length - 1)
      by omega, last, Nat.add_sub_cancel, shape, List.getElem?_map, found, Option.map_some]

/-! ## Scans that pass over placeholders -/

/-- A test that no character of a placeholder passes: no bar, underscore or digit. -/
def Quiet (q : Char → Bool) : Prop :=
  ∀ c, (c = '|' ∨ c = '_' ∨ c.isDigit = true) → q c = false

theorem Quiet.bar {q : Char → Bool} (quiet : Quiet q) : q '|' = false :=
  quiet '|' (Or.inl rfl)

theorem Quiet.placeholderText {q : Char → Bool} (quiet : Quiet q) (n : Nat) :
    ∀ c ∈ placeholderText n, q c = false :=
  fun c mem => quiet c (mem_placeholderText mem)

/-- A test for one character other than a bar, an underscore or a digit is quiet. -/
theorem quiet_beq {d : Char} (notBar : d ≠ '|') (notUnderscore : d ≠ '_')
    (notDigit : d.isDigit = false) : Quiet (· == d) := by
  rintro c (rfl | rfl | digit)
  · simpa using notBar.symm
  · simpa using notUnderscore.symm
  · have : c ≠ d := fun same => by rw [same, notDigit] at digit; cases digit
    simpa using this

/-- A search for a quiet test finds the start of the piece it finds in the shape. -/
theorem findIdx?_join {q : Char → Bool} (quiet : Quiet q) (ps : List Piece) :
    (join ps).findIdx? q = ((shape ps).findIdx? q).map (offset ps) := by
  induction ps with
  | nil => rfl
  | cons p ps inductionHypothesis =>
    cases p with
    | char c =>
      rw [join_cons, text_char, List.singleton_append, shape_cons, glyph_char, List.findIdx?_cons,
        List.findIdx?_cons, inductionHypothesis]
      split
      · simp
      · simp only [Option.map_map]
        congr 1
    | held n =>
      have skipped : (placeholderText n).findIdx? q = none :=
        List.findIdx?_eq_none_iff.mpr (quiet.placeholderText n)
      rw [join_cons, text_held, List.findIdx?_append, skipped, Option.none_or, shape_cons,
        glyph_held, List.findIdx?_cons, if_neg (by simp [quiet.bar]), inductionHypothesis,
        Option.map_map, Option.map_map]
      congr 1
      funext k
      simp [offset_cons_succ, Nat.add_comm]

/-- A quiet test passes some character of the text exactly when it passes some glyph. -/
theorem any_join {q : Char → Bool} (quiet : Quiet q) (ps : List Piece) :
    (join ps).any q = (shape ps).any q := by
  induction ps with
  | nil => rfl
  | cons p ps inductionHypothesis =>
    cases p with
    | char c => simp [inductionHypothesis]
    | held n =>
      have skipped : (placeholderText n).any q = false :=
        List.any_eq_false.mpr fun c mem => by simp [quiet.placeholderText n c mem]
      simp [skipped, quiet.bar, inductionHypothesis]

theorem getLast?_join (ps : List Piece) : (join ps).getLast? = (shape ps).getLast? := by
  induction ps using List.reverseRecOn with
  | nil => rfl
  | append_singleton ps p inductionHypothesis =>
    rw [join_append, join_cons, join_nil, List.append_nil, List.getLast?_append, text_getLast?,
      shape_append, shape_cons, shape_nil, List.getLast?_concat, Option.some_or]

theorem head?_join (ps : List Piece) : (join ps).head? = (shape ps).head? := by
  cases ps with
  | nil => rfl
  | cons p ps => rw [join_cons, List.head?_append, text_head?, Option.some_or, shape_cons,
      List.head?_cons]

/-! ## Bracket depth -/

/-- The search for a closing bracket counts from where it starts. -/
theorem closingOffset_shift (cs : List Char) (depth pos shift : Nat) :
    closingOffset cs depth (pos + shift) = (closingOffset cs depth pos).map (· + shift) := by
  induction cs generalizing depth pos with
  | nil => rfl
  | cons c cs inductionHypothesis =>
    rw [closingOffset, closingOffset]
    split
    · rw [show pos + shift + 1 = (pos + 1) + shift by omega, inductionHypothesis]
    · split
      · split
        · rfl
        · rw [show pos + shift + 1 = (pos + 1) + shift by omega, inductionHypothesis]
      · rw [show pos + shift + 1 = (pos + 1) + shift by omega, inductionHypothesis]

/-- The bracket that closes a group is found at the start of the piece found in the shape. -/
theorem closingOffset_join (ps : List Piece) (depth : Nat) :
    closingOffset (join ps) depth 0 = (closingOffset (shape ps) depth 0).map (offset ps) := by
  induction ps generalizing depth with
  | nil => rfl
  | cons p ps inductionHypothesis =>
    -- after the first piece the search goes on from the length of its text
    have onwards : ∀ depth', closingOffset (join ps) depth' p.text.length =
        (closingOffset (shape ps) depth' 1).map (offset (p :: ps)) := by
      intro depth'
      rw [show p.text.length = 0 + p.text.length from (Nat.zero_add _).symm, closingOffset_shift,
        inductionHypothesis, show (1 : Nat) = 0 + 1 from rfl, closingOffset_shift,
        Option.map_map, Option.map_map]
      congr 1
      funext k
      simp [offset_cons_succ, Nat.add_comm]
    cases p with
    | char c =>
      rw [join_cons, text_char, List.singleton_append, shape_cons, glyph_char, closingOffset,
        closingOffset]
      split
      · exact onwards _
      · split
        · split
          · simp
          · exact onwards _
        · exact onwards _
    | held n =>
      have roundFree : ∀ d ∈ ['(', ')'], d ∉ placeholderText n := by
        intro d listed mem
        have := mem_placeholderText mem
        simp only [List.mem_cons, List.not_mem_nil, or_false] at listed
        rcases listed with rfl | rfl <;> rcases this with h | h | h <;> simp_all
      rw [join_cons, text_held, closingOffset_roundFree (roundFree '(' (by simp))
        (roundFree ')' (by simp)), Nat.zero_add, shape_cons, glyph_held,
        closingOffset_other (by decide) (by decide)]
      exact onwards _

/-! ## Names next to placeholders -/

/-- A name without bars that ends a text after a bar ends the part after the bar. -/
theorem suffix_append_iff_of_bar {name X Y : List Char} (noBar : '|' ∉ name)
    (ending : ∀ c, X.getLast? = some c → c = '|') : name <:+ X ++ Y ↔ name <:+ Y := by
  refine ⟨fun suffix => ?_, fun suffix => suffix.trans (List.suffix_append X Y)⟩
  obtain ⟨pre, same⟩ := suffix
  rcases List.append_eq_append_iff.mp same with ⟨a, rfl, rfl⟩ | ⟨c, rfl, rfl⟩
  · cases a using List.reverseRecOn with
    | nil => exact List.suffix_refl Y
    | append_singleton a x =>
      have isBar := ending x (by simp)
      subst isBar
      exact absurd (by simp) noBar
  · exact List.suffix_append c name

/-- A name without bars that starts a text before a bar starts the part before the bar. -/
theorem prefix_append_iff_of_bar {name X Y : List Char} (noBar : '|' ∉ name)
    (starting : ∀ c, Y.head? = some c → c = '|') : name <+: X ++ Y ↔ name <+: X := by
  refine ⟨fun leading => ?_, fun leading => leading.trans (List.prefix_append X Y)⟩
  obtain ⟨post, same⟩ := leading
  rcases List.append_eq_append_iff.mp same with ⟨a, rfl, rfl⟩ | ⟨c, rfl, rfl⟩
  · exact List.prefix_append name a
  · cases c with
    | nil => simp
    | cons x c =>
      have isBar := starting x (by simp)
      subst isBar
      exact absurd (by simp) noBar

/-- Before the characters after the last placeholder, the text ends with a bar or is empty. -/
theorem getLast?_join_front {front : List Piece}
    (ending : front = [] ∨ ∃ n, front.getLast? = some (held n)) :
    ∀ c, (join front).getLast? = some c → c = '|' := by
  intro c last
  rw [getLast?_join] at last
  rcases ending with rfl | ⟨n, held⟩
  · cases last
  · rw [shape, List.getLast?_map, held, Option.map_some, glyph_held] at last
    exact (Option.some.inj last).symm

theorem getLast?_shape_front {front : List Piece}
    (ending : front = [] ∨ ∃ n, front.getLast? = some (held n)) :
    ∀ c, (shape front).getLast? = some c → c = '|' := by
  intro c last
  rw [← getLast?_join] at last
  exact getLast?_join_front ending c last

/-- A name without bars ends the text exactly when it ends the shape. -/
theorem suffix_join_iff {name : List Char} (noBar : '|' ∉ name) (ps : List Piece) :
    name <:+ join ps ↔ name <:+ shape ps := by
  obtain ⟨front, cs, rfl, ending⟩ := exists_trailing_chars ps
  rw [join_append, shape_append, join_map_char, shape_map_char,
    suffix_append_iff_of_bar noBar (getLast?_join_front ending),
    suffix_append_iff_of_bar noBar (getLast?_shape_front ending)]

/-- A name without bars that ends the text is made of the last pieces, all characters. -/
theorem eq_append_of_suffix_join {name : List Char} (noBar : '|' ∉ name) {ps : List Piece}
    (suffix : name <:+ join ps) : ∃ front, ps = front ++ name.map char := by
  obtain ⟨front, cs, rfl, ending⟩ := exists_trailing_chars ps
  rw [join_append, join_map_char, suffix_append_iff_of_bar noBar (getLast?_join_front ending)]
    at suffix
  obtain ⟨pre, rfl⟩ := suffix
  exact ⟨front ++ pre.map char, by simp⟩

end Piece

/-- The function named before a group is read off the shape. -/
theorem UnaryFn.suffixOf?_join (ps : List Piece) :
    UnaryFn.suffixOf? (Piece.join ps) = UnaryFn.suffixOf? (Piece.shape ps) := by
  have same : ∀ f : UnaryFn, f.name.toList.isSuffixOf (Piece.join ps) =
      f.name.toList.isSuffixOf (Piece.shape ps) := by
    intro f
    rw [Bool.eq_iff_iff, List.isSuffixOf_iff_suffix, List.isSuffixOf_iff_suffix]
    exact Piece.suffix_join_iff (List.count_eq_zero.mp (UnaryFn.count_bar_name f)) ps
  unfold UnaryFn.suffixOf?
  simp only [same]

namespace Piece

/-! ## Splitting a sum -/

/-- Read back from the end, a scan that stops at bars passes the same run of characters in
the text as in the shape, and stops at the same character. -/
theorem reverse_takeWhile_join {q : Char → Bool} (stops : q '|' = false) (ps : List Piece) :
    (join ps).reverse.takeWhile q = (shape ps).reverse.takeWhile q ∧
      (join ps).reverse[((join ps).reverse.takeWhile q).length]? =
        (shape ps).reverse[((shape ps).reverse.takeWhile q).length]? := by
  induction ps using List.reverseRecOn with
  | nil => exact ⟨rfl, rfl⟩
  | append_singleton ps p inductionHypothesis =>
    obtain ⟨run, stop⟩ := inductionHypothesis
    cases p with
    | held n =>
      have reversed : (placeholderText n).reverse =
          '|' :: (['|', '_'] ++ Nat.toDigits 10 n ++ ['_']).reverse := by
        simp [placeholderText]
      simp [reversed, stops]
    | char c =>
      cases passes : q c with
      | false => simp [passes]
      | true => simpa [passes] using ⟨run, stop⟩

theorem getElem?_join_eq_loud {ps : List Piece} {i : Nat} {c : Char} (found : (join ps)[i]? = some c)
    (loud : ¬(c = '|' ∨ c = '_' ∨ c.isDigit = true)) :
    ∃ k, k < ps.length ∧ ps[k]? = some (char c) ∧ i = offset ps k := by
  induction ps generalizing i with
  | nil => simp at found
  | cons p ps inductionHypothesis =>
    rw [join_cons] at found
    by_cases inFirst : i < p.text.length
    · rw [List.getElem?_append_left inFirst] at found
      cases p with
      | held n => exact absurd (mem_placeholderText (List.mem_of_getElem? found)) loud
      | char d =>
        obtain rfl : i = 0 := by simpa using inFirst
        obtain rfl : d = c := by simpa using found
        exact ⟨0, by simp, rfl, rfl⟩
    · rw [List.getElem?_append_right (by omega)] at found
      obtain ⟨k, inside, atK, position⟩ := inductionHypothesis found
      exact ⟨k + 1, by simpa using inside, by simpa using atK, by rw [offset_cons_succ]; omega⟩

/-- The exponent-sign test reads the two characters before the position, the one after it
and the run of digits and points further back, so it gives the same in the text and in the
shape at a character piece. -/
theorem isExponentSign_join {ps : List Piece} {k : Nat} {σ : Char} (found : ps[k]? = some (char σ)) :
    Literal.isExponentSign (join ps) (offset ps k) = Literal.isExponentSign (shape ps) k := by
  have inside := (List.getElem?_eq_some_iff.mp found).1
  cases k with
  | zero => simp [Literal.isExponentSign]
  | succ j =>
    obtain ⟨p, before⟩ : ∃ p, ps[j]? = some p := ⟨ps[j], List.getElem?_eq_getElem (by omega)⟩
    have previous := getElem?_join_offset_pred ps (Nat.le_of_lt inside)
    rw [Nat.add_sub_cancel, shape, List.getElem?_map, before, Option.map_some] at previous
    cases p with
    | held n =>
      -- a placeholder right before the sign: no exponent marker in either
      unfold Literal.isExponentSign
      rw [previous, Nat.add_sub_cancel, shape, List.getElem?_map, before, Option.map_some,
        glyph_held]
      simp
    | char m =>
      -- a character before the sign: compare the exponent-sign test around it
      have split : ps = ps.take j ++ char m :: char σ :: ps.drop (j + 2) := by
        obtain ⟨firstInside, first⟩ := List.getElem?_eq_some_iff.mp before
        obtain ⟨secondInside, second⟩ := List.getElem?_eq_some_iff.mp found
        conv => lhs; rw [← List.take_append_drop j ps, List.drop_eq_getElem_cons firstInside,
          List.drop_eq_getElem_cons secondInside, first, second]
      have joined : join ps = join (ps.take j) ++ m :: σ :: join (ps.drop (j + 2)) := by
        conv => lhs; rw [split]
        simp
      have shaped : shape ps = shape (ps.take j) ++ m :: σ :: shape (ps.drop (j + 2)) := by
        conv => lhs; rw [split]
        simp
      have position : offset ps (j + 1) = (join (ps.take j)).length + 1 := by
        rw [offset_succ before, text_char, List.length_singleton]
        rfl
      have shapePosition : j + 1 = (shape (ps.take j)).length + 1 := by
        simp only [length_shape, List.length_take]
        omega
      obtain ⟨run, stop⟩ := reverse_takeWhile_join (q := mantissaChar) (by decide) (ps.take j)
      have marker : (1 ≤ (join (ps.take j)).length) ↔ (1 ≤ (shape (ps.take j)).length) := by
        rw [Nat.one_le_iff_ne_zero, Nat.one_le_iff_ne_zero, Ne, Ne, List.length_eq_zero_iff,
          List.length_eq_zero_iff, join_eq_nil_iff, shape, List.map_eq_nil_iff]
      rw [position, joined, isExponentSign_at, shapePosition, shaped, isExponentSign_at,
        head?_join, run, decide_eq_decide.mpr marker]
      congr 1
      -- the test ends with the character where the run of digits and points stops
      have stopAt : ((join (ps.take j)).reverse.drop
            ((shape (ps.take j)).reverse.takeWhile mantissaChar).length).head? =
          ((shape (ps.take j)).reverse.drop
            ((shape (ps.take j)).reverse.takeWhile mantissaChar).length).head? := by
        rw [List.head?_drop, List.head?_drop]
        rw [run] at stop
        exact stop
      generalize (join (ps.take j)).reverse.drop
        ((shape (ps.take j)).reverse.takeWhile mantissaChar).length = after at stopAt ⊢
      generalize (shape (ps.take j)).reverse.drop
        ((shape (ps.take j)).reverse.takeWhile mantissaChar).length = after' at stopAt ⊢
      cases after with
      | nil =>
        cases after' with
        | nil => rfl
        | cons c' rest' => cases stopAt
      | cons c rest =>
        cases after' with
        | nil => cases stopAt
        | cons c' rest' =>
          obtain rfl : c = c' := Option.some.inj stopAt
          rfl

/-- The test for a split of a sum gives the same at the start of a piece as in the shape. -/
theorem isAdditiveSplit_join {ps : List Piece} {k : Nat} (inside : k < ps.length) :
    isAdditiveSplit (join ps) (offset ps k) = isAdditiveSplit (shape ps) k := by
  obtain ⟨p, found⟩ : ∃ p, ps[k]? = some p := ⟨ps[k], List.getElem?_eq_getElem inside⟩
  have atK := getElem?_join_offset ps k
  have shapeAtK : (shape ps)[k]? = some p.glyph := by
    rw [shape, List.getElem?_map, found, Option.map_some]
  cases p with
  | held n =>
    rw [glyph_held] at shapeAtK
    rw [shapeAtK] at atK
    rw [isAdditiveSplit_of_not_sign atK (by decide), isAdditiveSplit_of_not_sign shapeAtK (by decide)]
  | char σ =>
    unfold isAdditiveSplit
    rw [atK, getElem?_join_offset_pred ps (Nat.le_of_lt inside), isExponentSign_join found]

/-- A text without a split reads the test false at each position between its ends. -/
theorem isAdditiveSplit_of_additiveSplit?_eq_none {text : List Char}
    (noneFound : additiveSplit? text = none) {j : Nat} (low : 1 ≤ j) (high : j + 2 ≤ text.length) :
    isAdditiveSplit text j = false := by
  unfold additiveSplit? at noneFound
  have missing := List.find?_eq_none.mp noneFound j (by
    simp only [List.mem_map, List.mem_reverse, List.mem_range]
    exact ⟨j - 1, by omega, by omega⟩)
  simpa using missing

/-- A position where the text splits into a sum is the start of a character piece. -/
theorem exists_offset_of_isAdditiveSplit {ps : List Piece} {i : Nat}
    (split : isAdditiveSplit (join ps) i = true) :
    ∃ k, k < ps.length ∧ i = offset ps k ∧ isAdditiveSplit (shape ps) k = true := by
  obtain ⟨c, atI, sign⟩ := exists_sign_of_isAdditiveSplit split
  have loud : ¬(c = '|' ∨ c = '_' ∨ c.isDigit = true) := by
    rintro (rfl | rfl | digit)
    · cases sign
    · cases sign
    · simp only [isSignChar, Bool.or_eq_true, beq_iff_eq] at sign
      rcases sign with rfl | rfl <;> cases digit
  obtain ⟨k, inside, -, rfl⟩ := getElem?_join_eq_loud atI loud
  exact ⟨k, inside, rfl, (isAdditiveSplit_join inside) ▸ split⟩

/-- The shape of a text splits into a sum only at a character piece: a placeholder shows a
bar, which is no sign. -/
theorem exists_char_of_isAdditiveSplit {ps : List Piece} {k : Nat}
    (split : isAdditiveSplit (shape ps) k = true) : ∃ σ, ps[k]? = some (char σ) := by
  obtain ⟨c, atK, sign⟩ := exists_sign_of_isAdditiveSplit split
  rw [shape, List.getElem?_map] at atK
  obtain ⟨p, found, rfl⟩ := Option.map_eq_some_iff.mp atK
  cases p with
  | held n => cases sign
  | char σ => exact ⟨σ, found⟩

/-- A sum splits at the start of the piece where its shape splits. -/
theorem additiveSplit?_join (ps : List Piece) :
    additiveSplit? (join ps) = (additiveSplit? (shape ps)).map (offset ps) := by
  have lengthJoin : offset ps ps.length = (join ps).length := offset_of_length_le (Nat.le_refl _)
  -- a split of the text at a later piece lies before the last piece
  have inRange : ∀ {k j : Nat}, k < ps.length → j = offset ps k → j + 2 ≤ (join ps).length →
      isAdditiveSplit (join ps) j = true → k + 2 ≤ ps.length := by
    intro k j inside position room split
    rw [position, isAdditiveSplit_join inside] at split
    obtain ⟨σ, found⟩ := exists_char_of_isAdditiveSplit split
    have next := offset_succ found
    by_contra short
    have last : offset ps (k + 1) = (join ps).length :=
      offset_of_length_le (by omega)
    simp only [text_char, List.length_singleton] at next
    omega
  cases found : additiveSplit? (shape ps) with
  | none =>
    refine additiveSplit?_eq_none fun j low high => ?_
    by_contra split
    rw [Bool.not_eq_false] at split
    obtain ⟨k, inside, position, shapeSplit⟩ := exists_offset_of_isAdditiveSplit split
    have positive : 1 ≤ k := by
      by_contra zero
      obtain rfl : k = 0 := by omega
      simp at position
      omega
    have room := inRange inside position high split
    rw [isAdditiveSplit_of_additiveSplit?_eq_none found positive (by simpa using room)] at shapeSplit
    cases shapeSplit
  | some k =>
    obtain ⟨low, high, holds, later⟩ := (additiveSplit?_eq_some_iff _ k).mp found
    simp only [length_shape] at high later
    have inside : k < ps.length := by omega
    have split : isAdditiveSplit (join ps) (offset ps k) = true := by
      rw [isAdditiveSplit_join inside, holds]
    rw [Option.map_some]
    refine (additiveSplit?_eq_some_iff _ _).mpr ⟨?_, ?_, split, fun j above room => ?_⟩
    · have := offset_lt_offset (show 0 < k by omega) (show 0 < ps.length by omega)
      rw [offset_zero] at this
      omega
    · obtain ⟨σ, atK⟩ := exists_char_of_isAdditiveSplit holds
      have afterNext := offset_lt_offset (show k + 1 < ps.length by omega) (show k + 1 < ps.length by omega)
      have next := offset_succ atK
      simp only [text_char, List.length_singleton] at next
      omega
    · by_contra splits
      rw [Bool.not_eq_false] at splits
      obtain ⟨k', inside', position, shapeSplit⟩ := exists_offset_of_isAdditiveSplit splits
      have laterPiece : k < k' := by
        by_contra notLater
        have : offset ps k' ≤ offset ps k := offset_le_offset (by omega)
        omega
      have room' := inRange inside' position room splits
      rw [later k' laterPiece (by omega)] at shapeSplit
      cases shapeSplit

end Piece

end ComplexFormula

namespace ComplexFormula.Literal
open Decimal (isDigit)

theorem digitRun_append_bar {B Z : List Char} (stop : ∀ c, Z.head? = some c → c = '|') :
    digitRun (B ++ Z) = digitRun B := by
  have none : Z.takeWhile isDigit = [] := by
    cases Z with
    | nil => rfl
    | cons z Z =>
      obtain rfl := stop z rfl
      simp [show isDigit '|' = false by decide]
  unfold digitRun
  rw [List.takeWhile_append]
  split
  · next whole => rw [none, List.append_nil, ← whole]
  · rfl

theorem exponentLength_append_bar {E Z : List Char} (stop : ∀ c, Z.head? = some c → c = '|') :
    exponentLength (E ++ Z) = exponentLength E := by
  cases E with
  | nil =>
    cases Z with
    | nil => rfl
    | cons z Z =>
      obtain rfl := stop z rfl
      simp [exponentLength]
  | cons marker rest =>
    cases rest with
    | nil =>
      cases Z with
      | nil => rfl
      | cons z Z =>
        obtain rfl := stop z rfl
        simp [exponentLength, digitRun, show isDigit '|' = false by decide]
    | cons r rest =>
      have tailRun : digitRun (rest ++ Z) = digitRun rest := digitRun_append_bar stop
      have wholeRun : digitRun (r :: (rest ++ Z)) = digitRun (r :: rest) := by
        rw [← List.cons_append]
        exact digitRun_append_bar stop
      simp only [List.cons_append, exponentLength]
      split
      · split <;> split <;> simp_all
      · rfl

theorem mantissaLength_append_bar {B Z : List Char} (stop : ∀ c, Z.head? = some c → c = '|') :
    mantissaLength (B ++ Z) = mantissaLength B := by
  have afterRun : (B ++ Z).drop (digitRun B) = B.drop (digitRun B) ++ Z :=
    List.drop_append_of_le_length (digitRun_le_length B)
  unfold mantissaLength
  rw [digitRun_append_bar stop, afterRun]
  generalize B.drop (digitRun B) = D
  cases D with
  | nil =>
    cases Z with
    | nil => rfl
    | cons z Z =>
      obtain rfl := stop z rfl
      rfl
  | cons c rest =>
    have restRun : digitRun (rest ++ Z) = digitRun rest := digitRun_append_bar stop
    by_cases point : c = '.'
    · subst point
      simp only [List.cons_append, restRun]
    · simp only [List.cons_append]
      split <;> split <;> simp_all

theorem signLength_append_bar {Y Z : List Char} (stop : ∀ c, Z.head? = some c → c = '|')
    (signed : Bool) : signLength (Y ++ Z) signed = signLength Y signed := by
  cases Y with
  | nil =>
    cases Z with
    | nil => rfl
    | cons z Z =>
      obtain rfl := stop z rfl
      exact signLength_of_head (by decide) (by decide) Z signed
  | cons y Y =>
    by_cases plus : y = '+'
    · subst plus
      rfl
    · by_cases minus : y = '-'
      · subst minus
        rfl
      · rw [List.cons_append, signLength_of_head plus minus, signLength_of_head plus minus]

/-- The scan of a literal from the start of a text stops at a bar as at the end of the text. -/
theorem leadingLength_append_bar {Y Z : List Char} (stop : ∀ c, Z.head? = some c → c = '|')
    (signed : Bool) : leadingLength (Y ++ Z) signed = leadingLength Y signed := by
  rw [leadingLength_eq, leadingLength_eq, signLength_append_bar stop,
    List.drop_append_of_le_length (signLength_le_length Y signed), mantissaLength_append_bar stop]
  cases read : mantissaLength (Y.drop (signLength Y signed)) with
  | none => rfl
  | some length =>
    have fits := mantissaLength_le_length read
    have signFits := signLength_le_length Y signed
    rw [List.length_drop] at fits
    simp only [Option.map_some]
    rw [List.drop_append_of_le_length (by omega), exponentLength_append_bar stop]

/-- A literal holds no bar. -/
theorem isLiteral_of_bar {cs : List Char} (barred : '|' ∈ cs) : isLiteral cs false = false := by
  cases literal : isLiteral cs false with
  | false => rfl
  | true =>
    rcases (unsigned_of_isLiteral literal).mem barred with digit | same | same | same | same | same
    · exact absurd digit (by decide)
    all_goals exact absurd same (by decide)

/-- The scan for the literal a text ends with stops at a bar as at the start of the text. -/
theorem trailingLength_append_bar {X cs : List Char} (ending : ∀ c, X.getLast? = some c → c = '|') :
    trailingLength (X ++ cs) = trailingLength cs := by
  induction X with
  | nil => rfl
  | cons x X inductionHypothesis =>
    have barred : '|' ∈ x :: X := by
      obtain ⟨c, last⟩ : ∃ c, (x :: X).getLast? = some c := ⟨_, List.getLast?_eq_getLast_of_ne_nil (by simp)⟩
      rw [← ending c last]
      exact List.mem_of_getLast? last
    rw [List.cons_append, trailingLength, if_neg (by
      rw [← List.cons_append, isLiteral_of_bar (List.mem_append_left cs barred)]; decide)]
    apply inductionHypothesis
    intro c last
    exact ending c (by
      cases X with
      | nil => cases last
      | cons y X => rw [List.getLast?_cons_cons]; exact last)

end ComplexFormula.Literal

namespace ComplexFormula

/-- The longest of some lengths depends only on which lengths there are. -/
theorem longest_congr {xs ys : List Nat} (same : ∀ l, l ∈ xs ↔ l ∈ ys) :
    longest xs = longest ys := by
  unfold longest
  cases found : xs.max? with
  | none =>
    have empty : xs = [] := List.max?_eq_none_iff.mp found
    have emptyToo : ys = [] := List.eq_nil_iff_forall_not_mem.mpr fun l inY => by
      have := (same l).mpr inY
      rw [empty] at this
      cases this
    rw [emptyToo]
    rfl
  | some m =>
    obtain ⟨mem, bound⟩ := List.max?_eq_some_iff.mp found
    exact (List.max?_eq_some_iff.mpr ⟨(same m).mp mem, fun l inY => bound l ((same l).mpr inY)⟩).symm

theorem mem_atomNames_of_initial {scope : Scope} (w : Workspace) {name : List Char}
    (listed : name ∈ atomNames scope Workspace.initial) : name ∈ atomNames scope w := by
  simp only [atomNames, Workspace.initial, List.map_nil, List.nil_append, List.mem_filter,
    List.mem_append] at listed ⊢
  obtain ⟨constant | declared, filled⟩ := listed
  · exact ⟨Or.inl (Or.inr constant), filled⟩
  · exact ⟨Or.inr declared, filled⟩

theorem mem_atomNames_initial {scope : Scope} {w : Workspace} {name : List Char}
    (listed : name ∈ atomNames scope w) (notKey : name ∉ w.pending.map (·.1)) :
    name ∈ atomNames scope Workspace.initial := by
  simp only [atomNames, Workspace.initial, List.map_nil, List.nil_append, List.mem_filter,
    List.mem_append] at listed ⊢
  obtain ⟨(key | constant) | declared, filled⟩ := listed
  · exact absurd key notKey
  · exact ⟨Or.inl constant, filled⟩
  · exact ⟨Or.inr declared, filled⟩

end ComplexFormula

namespace ComplexFormula

/-- Nothing is a base at the start of a text. -/
theorem trailingAtomLength_nil (scope : Scope) (w : Workspace) : trailingAtomLength scope w [] = none := by
  have noNames : ((atomNames scope w).filter (·.isSuffixOf [])).map List.length = [] := by
    rw [List.map_eq_nil_iff, List.filter_eq_nil_iff]
    intro name listed suffix
    have empty := List.eq_nil_of_suffix_nil (List.isSuffixOf_iff_suffix.mp suffix)
    subst empty
    simp [atomNames] at listed
  unfold trailingAtomLength
  rw [noNames]
  rfl

section AtomLengths

variable {scope : Scope} (wf : scope.WellFormed) {w : Workspace} (keys : w.Placeholders)
include wf keys

/-- A name of the scope, not a placeholder, holds no bar. -/
theorem bar_not_mem_of_atomName {name : List Char} (listed : name ∈ atomNames scope w)
    (notHeld : ∀ k, name ≠ placeholderText k) : '|' ∉ name := by
  rcases atomNames_shape wf keys listed with ⟨k, rfl⟩ | named
  · exact absurd rfl (notHeld k)
  · exact Text.not_mem_identifier named (by simp [Text.punctuation])

/-- The base a text ends with, when its last characters follow a bar, is read from those
characters alone, as if nothing were pending. -/
theorem trailingAtomLength_after_bar {X cs : List Char}
    (ending : ∀ c, X.getLast? = some c → c = '|') (nonempty : cs ≠ []) (noBar : '|' ∉ cs) :
    trailingAtomLength scope w (X ++ cs) = trailingAtomLength scope Workspace.initial cs := by
  -- no placeholder ends the text: it ends with a character of `cs`
  have notKey : ∀ k, ¬placeholderText k <:+ X ++ cs := by
    intro k suffix
    obtain ⟨pre, same⟩ := suffix
    have last := congrArg List.getLast? same
    rw [getLast?_append_placeholderText, List.getLast?_append,
      List.getLast?_eq_getLast_of_ne_nil nonempty, Option.some_or] at last
    exact noBar ((Option.some.inj last) ▸ List.getLast_mem nonempty)
  unfold trailingAtomLength
  rw [Literal.trailingLength_append_bar ending]
  congr 1
  apply longest_congr
  intro l
  simp only [List.mem_map, List.mem_filter, List.isSuffixOf_iff_suffix]
  constructor
  · rintro ⟨name, ⟨listed, suffix⟩, rfl⟩
    have notHeld : ∀ k, name ≠ placeholderText k := fun k same => notKey k (same ▸ suffix)
    have noBarName := bar_not_mem_of_atomName wf keys listed notHeld
    refine ⟨name, ⟨mem_atomNames_initial listed fun key => ?_,
      (Piece.suffix_append_iff_of_bar noBarName ending).mp suffix⟩, rfl⟩
    obtain ⟨entry, held, rfl⟩ := List.mem_map.mp key
    obtain ⟨k, isKey⟩ := keys entry held
    exact notHeld k isKey
  · rintro ⟨name, ⟨listed, suffix⟩, rfl⟩
    exact ⟨name, ⟨mem_atomNames_of_initial w listed, suffix.trans (List.suffix_append X cs)⟩, rfl⟩

/-- The names a text starts with, when its first characters come before a bar, are the names
of the scope that those characters start with. -/
theorem mem_atomNames_prefix_before_bar {A Z : List Char}
    (starting : ∀ c, Z.head? = some c → c = '|') (noBar : '|' ∉ A) (reaching : A = [] → Z = [])
    {name : List Char} :
    (name ∈ atomNames scope w ∧ name <+: A ++ Z) ↔
      (name ∈ atomNames scope Workspace.initial ∧ name <+: A) := by
  constructor
  · rintro ⟨listed, leading⟩
    -- no placeholder starts the text: it starts with a character of `A`, or it is empty
    have notHeld : ∀ k, name ≠ placeholderText k := by
      rintro k rfl
      cases A with
      | nil =>
        rw [reaching rfl, List.nil_append] at leading
        exact absurd (List.eq_nil_of_prefix_nil leading) (by simp [placeholderText])
      | cons a A =>
        rw [placeholderText_eq, List.cons_append, List.cons_prefix_cons] at leading
        exact noBar (leading.1 ▸ List.mem_cons_self)
    have noBarName := bar_not_mem_of_atomName wf keys listed notHeld
    refine ⟨mem_atomNames_initial listed fun key => ?_,
      (Piece.prefix_append_iff_of_bar noBarName starting).mp leading⟩
    obtain ⟨entry, held, rfl⟩ := List.mem_map.mp key
    obtain ⟨k, isKey⟩ := keys entry held
    exact notHeld k isKey
  · rintro ⟨listed, leading⟩
    exact ⟨mem_atomNames_of_initial w listed, leading.trans (List.prefix_append A Z)⟩

/-- The exponent a text starts with, when its first characters come before a bar, is read
from those characters alone, as if nothing were pending; a sign in front must not stand right
before the bar. -/
theorem leadingAtomLength_before_bar {cs Z : List Char}
    (starting : ∀ c, Z.head? = some c → c = '|') (noBar : '|' ∉ cs)
    (separated : Z ≠ [] → ∃ c rest, cs = c :: rest ∧ (isSignChar c = true → rest ≠ [])) :
    leadingAtomLength scope w (cs ++ Z) = leadingAtomLength scope Workspace.initial cs := by
  cases cs with
  | nil =>
    obtain rfl : Z = [] := by
      by_contra nonempty
      obtain ⟨c, rest, same, -⟩ := separated nonempty
      cases same
    unfold leadingAtomLength
    simp only [List.append_nil, List.drop_zero]
    congr 1
    apply longest_congr
    intro l
    simp only [List.mem_map, List.mem_filter, List.isPrefixOf_iff_prefix]
    constructor
    · rintro ⟨name, ⟨listed, leading⟩, rfl⟩
      exact ⟨name, (mem_atomNames_prefix_before_bar wf keys starting (by simp)
        (fun _ => rfl)).mp ⟨listed, by simpa using leading⟩, rfl⟩
    · rintro ⟨name, ⟨listed, leading⟩, rfl⟩
      exact ⟨name, ⟨mem_atomNames_of_initial w listed, leading⟩, rfl⟩
  | cons c rest =>
    have literal := Literal.leadingLength_append_bar (Y := c :: rest) starting true
    have noBarRest : '|' ∉ rest := fun mem => noBar (List.mem_cons_of_mem c mem)
    unfold leadingAtomLength
    simp only [List.cons_append] at literal ⊢
    rw [literal]
    congr 1
    apply longest_congr
    intro l
    simp only [List.mem_map, List.mem_filter, List.isPrefixOf_iff_prefix]
    cases sign : isSignChar c with
    | true =>
      have reaching : rest = [] → Z = [] := by
        intro empty
        by_contra nonempty
        obtain ⟨d, more, same, room⟩ := separated nonempty
        obtain ⟨rfl, rfl⟩ := List.cons.inj same
        exact room sign empty
      simp only [if_true, List.drop_succ_cons, List.drop_zero]
      constructor
      · rintro ⟨name, inFilter, rfl⟩
        exact ⟨name, (mem_atomNames_prefix_before_bar wf keys starting noBarRest reaching).mp
          inFilter, rfl⟩
      · rintro ⟨name, inFilter, rfl⟩
        exact ⟨name, (mem_atomNames_prefix_before_bar wf keys starting noBarRest reaching).mpr
          inFilter, rfl⟩
    | false =>
      simp only [Bool.false_eq_true, if_false, List.drop_zero, ← List.cons_append]
      constructor
      · rintro ⟨name, inFilter, rfl⟩
        exact ⟨name, (mem_atomNames_prefix_before_bar wf keys starting noBar
          (fun empty => by cases empty)).mp inFilter, rfl⟩
      · rintro ⟨name, inFilter, rfl⟩
        exact ⟨name, (mem_atomNames_prefix_before_bar wf keys starting noBar
          (fun empty => by cases empty)).mpr inFilter, rfl⟩

/-- A pending placeholder that a text starts with, after an optional sign, is the exponent,
whatever follows it. -/
theorem leadingAtomLength_first_held (sign : Option Sign) {n : Nat}
    (pending : placeholderText n ∈ w.pending.map (·.1)) (rest : List Char) :
    leadingAtomLength scope w (signText sign ++ placeholderText n ++ rest) =
      some (signText sign ++ placeholderText n).length := by
  have head : (placeholderText n ++ rest).head? = some '|' := by simp [placeholderText_eq]
  have noLiteral : Literal.leadingLength (signText sign ++ (placeholderText n ++ rest)) true =
      none := by
    rw [placeholderText_eq, List.cons_append]
    exact Literal.leadingLength_eq_none (signText_shape sign) (by decide) (by decide) (by decide)
      (by decide) _
  -- a name the text starts with is this placeholder: no name of the scope starts with a bar
  have bound : ∀ l ∈ ((atomNames scope w).filter (·.isPrefixOf (placeholderText n ++ rest))).map
      ((signText sign).length + ·.length),
      l ≤ (signText sign).length + (placeholderText n).length := by
    intro l mem
    obtain ⟨name, inFilter, rfl⟩ := List.mem_map.mp mem
    obtain ⟨listed, leading⟩ := List.mem_filter.mp inFilter
    have leading := List.isPrefixOf_iff_prefix.mp leading
    rcases atomNames_shape wf keys listed with ⟨m, rfl⟩ | named
    · rw [eq_of_placeholderText_leading leading]
    · exfalso
      obtain ⟨first, more, rfl, -, -⟩ := (Text.isIdentifierChars_iff _).mp named
      rw [placeholderText_eq, List.cons_append, List.cons_prefix_cons] at leading
      have barFirst : '|' ∈ first :: more := by
        rw [leading.1]
        exact List.mem_cons_self
      exact Text.not_mem_identifier named (by simp [Text.punctuation]) barFirst
  have names : longest (((atomNames scope w).filter
      (·.isPrefixOf (placeholderText n ++ rest))).map ((signText sign).length + ·.length)) =
      some ((signText sign).length + (placeholderText n).length) :=
    longest_eq_some (List.mem_map.mpr ⟨placeholderText n, List.mem_filter.mpr
      ⟨mem_atomNames_of_pending pending, List.isPrefixOf_iff_prefix.mpr
        (List.prefix_append _ rest)⟩, rfl⟩) bound
  rw [List.append_assoc, leadingAtomLength_signed sign head (by decide), noLiteral, names,
    List.length_append]
  rfl


end AtomLengths


/-- The base a text ends with lies within it. -/
theorem trailingAtomLength_le_length {scope : Scope} {w : Workspace} {cs : List Char} {b : Nat}
    (found : trailingAtomLength scope w cs = some b) : b ≤ cs.length := by
  unfold trailingAtomLength at found
  have names : ∀ l ∈ ((atomNames scope w).filter (·.isSuffixOf cs)).map
      List.length, l ≤ cs.length := by
    intro l mem
    obtain ⟨name, inFilter, rfl⟩ := List.mem_map.mp mem
    exact (List.isSuffixOf_iff_suffix.mp (List.mem_filter.mp inFilter).2).length_le
  cases scanned : Literal.trailingLength cs <;>
    cases longestName : longest (((atomNames scope w).filter
      (·.isSuffixOf cs)).map List.length) <;>
    simp only [scanned, longestName, largerLength, Option.some.injEq, reduceCtorEq] at found
  · exact found ▸ le_of_longest_eq_some names longestName
  · exact found ▸ Literal.trailingLength_le scanned
  · rw [← found]
    exact Nat.max_le.mpr ⟨Literal.trailingLength_le scanned, le_of_longest_eq_some names longestName⟩

/-- The exponent a text starts with lies within it. -/
theorem leadingAtomLength_le_length {scope : Scope} {w : Workspace} {cs : List Char} {e : Nat}
    (found : leadingAtomLength scope w cs = some e) : e ≤ cs.length := by
  -- the exponent scan skips a sign of length at most one, then looks for names
  obtain ⟨signLength, signFits, unfolded⟩ : ∃ signLength, signLength ≤ cs.length ∧
      leadingAtomLength scope w cs = largerLength (Literal.leadingLength cs true)
        (longest (((atomNames scope w).filter
          (·.isPrefixOf (cs.drop signLength))).map (signLength + ·.length))) := by
    cases cs with
    | nil => exact ⟨0, Nat.le_refl _, rfl⟩
    | cons c rest =>
      cases sign : isSignChar c with
      | true => exact ⟨1, by simp, by simp [leadingAtomLength, sign]⟩
      | false => exact ⟨0, by simp, by simp [leadingAtomLength, sign]⟩
  rw [unfolded] at found
  have names : ∀ l ∈ ((atomNames scope w).filter
      (·.isPrefixOf (cs.drop signLength))).map (signLength + ·.length), l ≤ cs.length := by
    intro l mem
    obtain ⟨name, inFilter, rfl⟩ := List.mem_map.mp mem
    have within := (List.isPrefixOf_iff_prefix.mp (List.mem_filter.mp inFilter).2).length_le
    rw [List.length_drop] at within
    omega
  cases scanned : Literal.leadingLength cs true <;>
    cases longestName : longest (((atomNames scope w).filter
      (·.isPrefixOf (cs.drop signLength))).map (signLength + ·.length)) <;>
    simp only [scanned, longestName, largerLength, Option.some.injEq, reduceCtorEq] at found
  · exact found ▸ le_of_longest_eq_some names longestName
  · exact found ▸ Literal.leadingLength_le_length scanned
  · rw [← found]
    exact Nat.max_le.mpr ⟨Literal.leadingLength_le_length scanned,
      le_of_longest_eq_some names longestName⟩

end ComplexFormula
