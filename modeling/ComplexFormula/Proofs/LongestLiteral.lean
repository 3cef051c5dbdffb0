import ComplexFormula.Proofs.Numerals

/-!
# The scanner reads the longest literal

A numeric literal is `[+-]? (d+ (. d*)? | . d+) ([eE] [+-]? d+)?`, the sign only where the
caller allows one (`Literal.InGrammar`). The scanner is hand-written: it reads a sign, digits,
a point, digits and an exponent that it backs out of when no digits follow the marker. Read
against the grammar it does what a longest match does. From the start of a text it finds a
prefix in the grammar whenever there is one, and that prefix is the longest
(`Literal.leadingLength_eq_some_iff`, `Literal.leadingLength_eq_none_iff`); so a literal
never ends in an exponent marker or its sign. From the end of a text it finds the longest
unsigned suffix (`Literal.trailingLength_eq_some_iff`). A text has a value exactly when the
whole of it is a signed literal (`Literal.value?_isSome_iff`): the reader of numbers takes every
literal of the grammar. `Literal.scanner_reads_longest_literal` gathers these.

Each statement is the meeting of two facts proved in `Numerals`: what the scanner reads is in
the grammar, and it reads at least every literal there (`longest_of_scan`).
-/

namespace ComplexFormula.Literal

open Decimal (isDigit)

/-- A numeric literal: an unsigned one, or, where signs are allowed, `+` or `-` and an
unsigned one. -/
def InGrammar (signed : Bool) (text : List Char) : Prop :=
  Unsigned text ∨ (signed = true ∧ ∃ s u, text = s :: u ∧ (s = '+' ∨ s = '-') ∧ Unsigned u)

/-- A scan that finds only matches, and at least as far as every match, finds the longest
match, and finds nothing exactly when there is no match. -/
theorem longest_of_scan {scan : Option Nat} {limit : Nat} {Matches : Nat → Prop}
    (sound : ∀ n, scan = some n → n ≤ limit ∧ Matches n)
    (complete : ∀ m ≤ limit, Matches m → ∃ n, scan = some n ∧ m ≤ n) :
    (∀ n, scan = some n ↔ n ≤ limit ∧ Matches n ∧ ∀ m ≤ limit, Matches m → m ≤ n) ∧
      (scan = none ↔ ∀ m ≤ limit, ¬Matches m) := by
  refine ⟨fun n => ⟨fun found => ?_, fun ⟨within, hit, longest⟩ => ?_⟩, ⟨?_, ?_⟩⟩
  · obtain ⟨within, hit⟩ := sound n found
    refine ⟨within, hit, fun m bound other => ?_⟩
    obtain ⟨n', found', reaches⟩ := complete m bound other
    rw [found, Option.some.injEq] at found'
    exact found' ▸ reaches
  · obtain ⟨n', found, reaches⟩ := complete n within hit
    obtain ⟨within', hit₂⟩ := sound n' found
    rw [found, Nat.le_antisymm (longest n' within' hit₂) reaches]
  · intro nothing m bound hit
    obtain ⟨n, found, -⟩ := complete m bound hit
    rw [nothing] at found
    cases found
  · intro noMatch
    cases found : scan with
    | none => rfl
    | some n => exact absurd (sound n found).2 (noMatch n (sound n found).1)

/-! ## From the start of a text -/

/-- With signs allowed, a text that starts with a sign is scanned as the sign and the unsigned
literal after it. -/
theorem leadingLength_sign_cons {s : Char} (sign : s = '+' ∨ s = '-') (rest : List Char) :
    leadingLength (s :: rest) true = (leadingLength rest false).map (· + 1) := by
  have skipped : signLength (s :: rest) true = 1 := by
    rcases sign with rfl | rfl <;> rfl
  rw [leadingLength_eq, leadingLength_eq, skipped, signLength_unsigned, List.drop_zero,
    List.drop_one, List.tail_cons, Option.map_map]
  congr 1
  funext length
  simp only [Function.comp, Nat.zero_add, Nat.add_comm 1 length, List.drop_succ_cons]
  omega

/-- What the scanner reads from the start of a text is a literal of the grammar. -/
theorem inGrammar_take_leadingLength {cs : List Char} {signed : Bool} {n : Nat}
    (found : leadingLength cs signed = some n) : InGrammar signed (cs.take n) := by
  cases signed with
  | false => exact Or.inl (unsigned_take_leadingLength found)
  | true =>
    obtain ⟨sign, u, split, signShape, unsigned⟩ := signed_take_leadingLength found
    rcases signShape with rfl | rfl | rfl
    · exact Or.inl (split ▸ unsigned)
    · exact Or.inr ⟨rfl, '+', u, split, Or.inl rfl, unsigned⟩
    · exact Or.inr ⟨rfl, '-', u, split, Or.inr rfl, unsigned⟩

/-- The scanner reads at least every literal of the grammar that a text starts with. -/
theorem le_leadingLength_of_inGrammar {cs : List Char} {signed : Bool} {m : Nat}
    (within : m ≤ cs.length) (literal : InGrammar signed (cs.take m)) :
    ∃ n, leadingLength cs signed = some n ∧ m ≤ n := by
  have length : (cs.take m).length = m := by simp [within]
  rcases literal with unsigned | ⟨rfl, s, u, split, sign, unsigned⟩
  · obtain ⟨n, found, reaches⟩ := le_leadingLength unsigned (List.take_prefix m cs) signed
    exact ⟨n, found, length ▸ reaches⟩
  · -- the sign starts the text, and the unsigned literal starts what follows it
    obtain ⟨rest, rfl⟩ : ∃ rest, cs = s :: rest := by
      cases cs with
      | nil => simp at split
      | cons c rest =>
        rw [List.take_cons (by rw [← length, split]; simp)] at split
        exact ⟨rest, by rw [(List.cons.inj split).1]⟩
    have start : u <+: rest := by
      rw [List.take_cons (by rw [← length, split]; simp)] at split
      rw [← (List.cons.inj split).2]
      exact List.take_prefix _ rest
    obtain ⟨n, found, reaches⟩ := le_leadingLength unsigned start false
    refine ⟨n + 1, by rw [leadingLength_sign_cons sign, found, Option.map_some], ?_⟩
    have : m = u.length + 1 := by rw [← length, split, List.length_cons]
    omega

/-- The scanner finds the longest literal of the grammar that a text starts with. -/
theorem leadingLength_eq_some_iff (cs : List Char) (signed : Bool) (n : Nat) :
    leadingLength cs signed = some n ↔ n ≤ cs.length ∧ InGrammar signed (cs.take n) ∧
      ∀ m ≤ cs.length, InGrammar signed (cs.take m) → m ≤ n :=
  (longest_of_scan
    (fun _ found => ⟨leadingLength_le_length found, inGrammar_take_leadingLength found⟩)
    (fun _ within literal => le_leadingLength_of_inGrammar within literal)).1 n

/-- The scanner finds nothing exactly when no prefix of the text is a literal. -/
theorem leadingLength_eq_none_iff (cs : List Char) (signed : Bool) :
    leadingLength cs signed = none ↔ ∀ m ≤ cs.length, ¬InGrammar signed (cs.take m) :=
  (longest_of_scan
    (fun _ found => ⟨leadingLength_le_length found, inGrammar_take_leadingLength found⟩)
    (fun _ within literal => le_leadingLength_of_inGrammar within literal)).2

/-- A literal of the grammar ends in a digit or a point, never in an exponent marker or its
sign. -/
theorem InGrammar.getLast? {signed : Bool} {text : List Char} (literal : InGrammar signed text)
    {c : Char} (last : text.getLast? = some c) : isDigit c = true ∨ c = '.' := by
  rcases literal with unsigned | ⟨-, s, u, rfl, -, unsigned⟩
  · exact unsigned.getLast? last
  · obtain ⟨d, r, rfl, -⟩ := unsigned.head
    rw [List.getLast?_cons_cons] at last
    exact unsigned.getLast? last

/-! ## From the end of a text -/

/-- The scanner from the end reads at least every literal that the text ends with. -/
theorem le_trailingLength_of_unsigned {cs : List Char} {m : Nat} (within : m ≤ cs.length)
    (literal : Unsigned (cs.drop (cs.length - m))) : ∃ n, trailingLength cs = some n ∧ m ≤ n := by
  obtain ⟨n, found, reaches⟩ := le_trailingLength literal (List.drop_suffix _ cs)
  have length : (cs.drop (cs.length - m)).length = m := by
    rw [List.length_drop]
    omega
  exact ⟨n, found, length ▸ reaches⟩

/-- The scanner from the end finds the longest unsigned literal that a text ends with. -/
theorem trailingLength_eq_some_iff (cs : List Char) (n : Nat) :
    trailingLength cs = some n ↔ n ≤ cs.length ∧ Unsigned (cs.drop (cs.length - n)) ∧
      ∀ m ≤ cs.length, Unsigned (cs.drop (cs.length - m)) → m ≤ n :=
  (longest_of_scan (fun _ found => ⟨trailingLength_le found, unsigned_of_trailingLength found⟩)
    (fun _ within literal => le_trailingLength_of_unsigned within literal)).1 n

/-- The scanner from the end finds nothing exactly when no suffix of the text is a literal. -/
theorem trailingLength_eq_none_iff (cs : List Char) :
    trailingLength cs = none ↔ ∀ m ≤ cs.length, ¬Unsigned (cs.drop (cs.length - m)) :=
  (longest_of_scan (fun _ found => ⟨trailingLength_le found, unsigned_of_trailingLength found⟩)
    (fun _ within literal => le_trailingLength_of_unsigned within literal)).2

/-! ## The value of a literal -/

/-- A signed literal is an unsigned one with an optional sign in front. -/
theorem inGrammar_true_iff {text : List Char} :
    InGrammar true text ↔
      ∃ sign u, text = sign ++ u ∧ (sign = [] ∨ sign = ['+'] ∨ sign = ['-']) ∧ Unsigned u := by
  constructor
  · rintro (unsigned | ⟨-, s, u, rfl, sign, unsigned⟩)
    · exact ⟨[], text, rfl, Or.inl rfl, unsigned⟩
    · rcases sign with rfl | rfl
      · exact ⟨['+'], u, rfl, Or.inr (Or.inl rfl), unsigned⟩
      · exact ⟨['-'], u, rfl, Or.inr (Or.inr rfl), unsigned⟩
  · rintro ⟨sign, u, rfl, shape, unsigned⟩
    rcases shape with rfl | rfl | rfl
    · exact Or.inl unsigned
    · exact Or.inr ⟨rfl, '+', u, rfl, Or.inl rfl, unsigned⟩
    · exact Or.inr ⟨rfl, '-', u, rfl, Or.inr rfl, unsigned⟩

/-- A text has a value exactly when the whole of it is a signed literal. -/
theorem value?_isSome_iff (text : List Char) :
    (value? text).isSome = true ↔ InGrammar true text := by
  constructor
  · intro valued
    obtain ⟨z, found⟩ := Option.isSome_iff_exists.mp valued
    exact inGrammar_true_iff.mpr (signed_of_value? found)
  · intro literal
    obtain ⟨sign, u, rfl, shape, unsigned⟩ := inGrammar_true_iff.mp literal
    obtain ⟨w, -, valued⟩ := value?_eq_some shape unsigned
    rw [valued, Option.isSome_some]

/-- The literal scanner matches the grammar `[+-]? (d+ (. d*)? | . d+) ([eE] [+-]? d+)?`. From
the start of a text it reads the longest literal there, and nothing when no prefix is one;
what it reads ends in a digit or a point, so an exponent marker or its sign that no digit
follows is left unread. From the end it reads the longest unsigned literal the text ends
with, and nothing when there is none. A text has a value exactly when it is one signed
literal. -/
theorem scanner_reads_longest_literal :
    (∀ cs signed n, leadingLength cs signed = some n ↔ n ≤ cs.length ∧
      InGrammar signed (cs.take n) ∧ ∀ m ≤ cs.length, InGrammar signed (cs.take m) → m ≤ n) ∧
    (∀ cs signed, leadingLength cs signed = none ↔
      ∀ m ≤ cs.length, ¬InGrammar signed (cs.take m)) ∧
    (∀ cs signed n c, leadingLength cs signed = some n → (cs.take n).getLast? = some c →
      isDigit c = true ∨ c = '.') ∧
    (∀ cs n, trailingLength cs = some n ↔ n ≤ cs.length ∧ Unsigned (cs.drop (cs.length - n)) ∧
      ∀ m ≤ cs.length, Unsigned (cs.drop (cs.length - m)) → m ≤ n) ∧
    (∀ cs, trailingLength cs = none ↔ ∀ m ≤ cs.length, ¬Unsigned (cs.drop (cs.length - m))) ∧
    (∀ cs, (value? cs).isSome = true ↔ InGrammar true cs) :=
  ⟨leadingLength_eq_some_iff, leadingLength_eq_none_iff,
    fun _ _ _ _ found last => (inGrammar_take_leadingLength found).getLast? last,
    trailingLength_eq_some_iff, trailingLength_eq_none_iff, value?_isSome_iff⟩

/-- In `2e+x` the marker and its sign are left unread; `x+2e5` ends with the literal `2e5`. -/
example : leadingLength ['2', 'e', '+', 'x'] false = some 1 ∧
    trailingLength ['x', '+', '2', 'e', '5'] = some 3 := by decide

end ComplexFormula.Literal
