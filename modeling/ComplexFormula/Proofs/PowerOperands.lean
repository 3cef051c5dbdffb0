import Mathlib
import ComplexFormula.Proofs.Precedence

/-!
# What a power takes from the factors around it

Between operators, a span such as `2xy` is a product of juxtaposed factors, which the leaf
resolver cuts by its own priorities. A `^` next to such a span does not ask the leaf resolver:
the power pass takes as its base the longest literal or known name that the text before the
`^` ends with, and as its exponent the longest one that the text after it starts with
(`trailingAtomLength_longest`, `leadingAtomLength_longest`). What is left of the span becomes
a factor of its own.

The main theorem says this as an equation between compilations. With `f` the longest atom
that the span `s' ++ f` ends with, `s' f ^ a` compiles exactly as `s' * f ^ a`; with `g` the
longest atom that `g ++ s''` starts with, `a ^ g s''` compiles exactly as `a ^ g * s''`.

So the power binds the adjacent atom, and not the factor the leaf resolver would cut there:
with the variables `ab`, `bc` and `a`, the span `abc` reads `ab` first and then fails on `c`,
while `abc^2` is `a * bc^2`. Nor is the rest of the span grouped as it would be alone: `xyz`
is `x * (y * z)`, but `xyz^w` is `(x * y) * z^w`
(`compile_power_after_juxtaposition_groups_left`).
-/

namespace ComplexFormula

variable {α : Type}

/-! ## Spans of juxtaposed factors -/

theorem isSignChar_eq_false_of_isOperatorChar {c : Char} (notOperator : isOperatorChar c = false) :
    isSignChar c = false := by
  cases sign : isSignChar c with
  | false => rfl
  | true =>
    rw [isOperatorChar_of_isSignChar sign] at notOperator
    cases notOperator

/-- A span of juxtaposed factors: characters of formulas, none of them an operator. -/
def PlainSpan (s : List Char) : Prop := ∀ c ∈ s, FormulaChar c ∧ isOperatorChar c = false

namespace PlainSpan

variable {s : List Char} (plain : PlainSpan s)
include plain

theorem mono {t : List Char} (within : t ⊆ s) : PlainSpan t := fun c mem => plain c (within mem)

theorem operator_not_mem {c : Char} (operator : isOperatorChar c = true) : c ∉ s := fun mem => by
  rw [(plain c mem).2] at operator
  cases operator

theorem not_mem {c : Char} (foreign : ¬FormulaChar c) : c ∉ s := fun mem => foreign (plain c mem).1

theorem bar_not_mem : '|' ∉ s :=
  plain.not_mem (not_formulaChar_of_punctuation (by decide) (by decide) (by decide))

theorem isSignChar_eq_false {c : Char} (mem : c ∈ s) : isSignChar c = false :=
  isSignChar_eq_false_of_isOperatorChar (plain c mem).2

theorem formulaChars : ∀ c ∈ s, FormulaChar c := fun c mem => (plain c mem).1

end PlainSpan

/-- A name is a span of juxtaposed factors. -/
theorem PlainSpan.of_identifier {s : List Char} (named : Text.isIdentifierChars s = true) :
    PlainSpan s := fun _ mem =>
  ⟨Or.inr (Or.inr (Or.inr (Or.inr (Or.inr (Text.isWordChar_of_mem_identifier named mem))))),
    Text.isOperatorChar_eq_false_of_mem_identifier named mem⟩

/-- A text of characters of formulas holds no round bracket. -/
theorem round_not_mem_of_formulaChars {text : List Char} (chars : ∀ c ∈ text, FormulaChar c) :
    '(' ∉ text ∧ ')' ∉ text :=
  ⟨fun mem => not_formulaChar_of_punctuation (by decide) (by decide) (by decide) (chars _ mem),
    fun mem => not_formulaChar_of_punctuation (by decide) (by decide) (by decide) (chars _ mem)⟩

/-- The characters of an atom are characters of formulas; it holds no `*`, `/`, `^` or round
bracket. -/
theorem Atom.mem_text {scope : Scope} (wf : scope.WellFormed) {a : Atom} (known : a.Known scope)
    {c : Char} (mem : c ∈ a.text) : FormulaChar c :=
  Operand.mem_text (a := ⟨none, a⟩) wf known mem

theorem Atom.not_mem_text {scope : Scope} (wf : scope.WellFormed) {a : Atom}
    (known : a.Known scope) {c : Char} (stray : c = '*' ∨ c = '/' ∨ c = '^' ∨ c = '(' ∨ c = ')') :
    c ∉ a.text := by
  have named : (Item.operand ⟨none, a⟩).Named := Item.named_of_known wf known
  exact Item.not_mem_text named stray

/-! ## The longest atom -/

/-- `f` is the longest atom of the scope, a literal or a known name, that stands in the span
the way `within` says: `List.IsSuffix` for the atom a span ends with, `List.IsPrefix` for the
one it starts with. -/
structure Scope.LongestAtom (scope : Scope) (within : List Char → List Char → Prop)
    (s : List Char) (f : Atom) : Prop where
  known : f.Known scope
  stands : within f.text s
  longest : ∀ g : Atom, g.Known scope → within g.text s → g.text.length ≤ f.text.length

/-- An atom is the longest atom within its own text. -/
theorem Scope.longestAtom_self {scope : Scope} {within : List Char → List Char → Prop} {a : Atom}
    (known : a.Known scope) (whole : within a.text a.text)
    (bound : ∀ t, within t a.text → t.length ≤ a.text.length) :
    scope.LongestAtom within a.text a :=
  ⟨known, whole, fun g _ inside => bound g.text inside⟩

/-- A known name that a span ends with is the longest atom the span ends with, when the span
ends with no digit or point, so that no literal ends it, and no longer known name ends it. -/
theorem Scope.longestAtom_suffix_name {scope : Scope} {s : List Char} {n : String}
    (known : scope.Knows n) (ending : n.toList <:+ s)
    (noLiteral : ∀ c, s.getLast? = some c → Decimal.isDigit c = false ∧ c ≠ '.')
    (longest : ∀ m, scope.Knows m → m.toList <:+ s → m.toList.length ≤ n.toList.length) :
    scope.LongestAtom List.IsSuffix s (.name n) := by
  refine ⟨known, ending, fun g knownG within => ?_⟩
  cases g with
  | literal lit unsigned =>
    -- a literal ends with a digit or a point
    exfalso
    obtain ⟨c, r, rfl, -⟩ := unsigned.head
    obtain ⟨d, last⟩ : ∃ d, (c :: r).getLast? = some d := ⟨_, List.getLast?_cons⟩
    have atEnd := (getLast?_of_suffix (List.cons_ne_nil c r) within).symm.trans last
    rcases unsigned.getLast? last with digit | point
    · exact absurd digit (by simp [(noLiteral d atEnd).1])
    · exact (noLiteral d atEnd).2 point
  | name m => exact longest m knownG within

/-- A known name that a span starts with is the longest atom the span starts with, when the
span starts with no digit or point, so that no literal starts it, and no longer known name
starts it. -/
theorem Scope.longestAtom_prefix_name {scope : Scope} {s : List Char} {n : String}
    (known : scope.Knows n) (starting : n.toList <+: s)
    (noLiteral : ∀ c, s.head? = some c → Decimal.isDigit c = false ∧ c ≠ '.')
    (longest : ∀ m, scope.Knows m → m.toList <+: s → m.toList.length ≤ n.toList.length) :
    scope.LongestAtom List.IsPrefix s (.name n) := by
  refine ⟨known, starting, fun g knownG within => ?_⟩
  cases g with
  | literal lit unsigned =>
    -- a literal starts with a digit or a point
    exfalso
    obtain ⟨c, r, rfl, digitOrPoint⟩ := unsigned.head
    obtain ⟨rest, rfl⟩ := within
    rcases digitOrPoint with digit | point
    · exact absurd digit (by simp [(noLiteral c rfl).1])
    · exact (noLiteral c rfl).2 point
  | name m => exact longest m knownG within

/-- A part of `A ++ c :: B` at its end that does not hold `c` is a part of `B`. -/
theorem suffix_of_not_mem {l A B : List Char} {c : Char} (suffix : l <:+ A ++ c :: B)
    (absent : c ∉ l) : l <:+ B := by
  have inWhole : B <:+ A ++ c :: B := (List.suffix_cons c B).trans (List.suffix_append A _)
  rcases Nat.lt_or_ge B.length l.length with long | short
  · -- a longer part reaches back to `c`
    have reaches : c :: B <:+ l := List.suffix_of_suffix_length_le (List.suffix_append A _) suffix
      (by rw [List.length_cons]; omega)
    exact absurd (reaches.subset List.mem_cons_self) absent
  · exact List.suffix_of_suffix_length_le suffix inWhole short

/-- A part of `A ++ c :: B` at its start that does not hold `c` is a part of `A`. -/
theorem prefix_of_not_mem {l A B : List Char} {c : Char} (start : l <+: A ++ c :: B)
    (absent : c ∉ l) : l <+: A := by
  have inWhole : A <+: A ++ c :: B := List.prefix_append A _
  rcases Nat.lt_or_ge A.length l.length with long | short
  · -- a longer part reaches on to `c`
    have throughC : A ++ [c] <+: A ++ c :: B := ⟨B, by simp⟩
    have reaches : A ++ [c] <+: l := List.prefix_of_prefix_length_le throughC start
      (by rw [List.length_append, List.length_singleton]; omega)
    exact absurd (reaches.subset (List.mem_append_right A List.mem_cons_self)) absent
  · exact List.prefix_of_prefix_length_le start inWhole short

section Star

variable {scope : Scope} (wf : scope.WellFormed)
include wf

/-- Writing `*` before the longest atom a span ends with keeps it the longest. -/
theorem Scope.LongestAtom.star_before {s' : List Char} {f : Atom}
    (longest : scope.LongestAtom List.IsSuffix (s' ++ f.text) f) :
    scope.LongestAtom List.IsSuffix (s' ++ '*' :: f.text) f where
  known := longest.known
  stands := (List.suffix_cons '*' f.text).trans (List.suffix_append s' _)
  longest g known suffix := by
    have inAtom := suffix_of_not_mem suffix (Atom.not_mem_text wf known (Or.inl rfl))
    exact longest.longest g known (inAtom.trans (List.suffix_append s' _))

/-- Writing `*` after the longest atom a span starts with keeps it the longest. -/
theorem Scope.LongestAtom.star_after {s'' : List Char} {g : Atom}
    (longest : scope.LongestAtom List.IsPrefix (g.text ++ s'') g) :
    scope.LongestAtom List.IsPrefix (g.text ++ '*' :: s'') g where
  known := longest.known
  stands := List.prefix_append _ _
  longest h known start := by
    have inAtom := prefix_of_not_mem start (Atom.not_mem_text wf known (Or.inl rfl))
    exact longest.longest h known (inAtom.trans (List.prefix_append _ s''))

end Star

/-! ## The operands the power pass reads -/

theorem largerLength_eq_some {x y : Option Nat} {L : Nat} (left : ∀ a, x = some a → a ≤ L)
    (right : ∀ b, y = some b → b ≤ L) (attained : x = some L ∨ y = some L) :
    largerLength x y = some L := by
  rcases attained with rfl | rfl
  · cases y with
    | none => rfl
    | some b => simp [largerLength, Nat.max_eq_left (right b rfl)]
  · cases x with
    | none => rfl
    | some a => simp [largerLength, Nat.max_eq_right (left a rfl)]

/-- Without pending placeholders, the names an operand of a power may be are the known
names. -/
theorem knows_of_mem_atomNames {scope : Scope} {w : Workspace} (clear : w.pending = [])
    {name : List Char} (listed : name ∈ atomNames scope w) : ∃ n, scope.Knows n ∧ name = n.toList := by
  simp only [atomNames, clear, List.map_nil, List.nil_append, List.mem_filter, List.mem_append,
    List.mem_map] at listed
  obtain ⟨⟨n, registered, rfl⟩ | ⟨n, declared, rfl⟩, -⟩ := listed
  · exact ⟨n, Or.inl registered, rfl⟩
  · exact ⟨n, Or.inr declared, rfl⟩

section Operands

variable {scope : Scope} (wf : scope.WellFormed) {w : Workspace} (clear : w.pending = [])
include wf clear

/-- The base the power pass reads before a `^` is the longest atom the text ends with. -/
theorem trailingAtomLength_longest {head : List Char} {f : Atom}
    (longest : scope.LongestAtom List.IsSuffix head f) :
    trailingAtomLength scope w head = some f.text.length := by
  have literalBound : ∀ n, Literal.trailingLength head = some n → n ≤ f.text.length := by
    intro n found
    have fits := Literal.trailingLength_le found
    have atEnd : (head.drop (head.length - n)).length ≤ f.text.length :=
      longest.longest (.literal _ (Literal.unsigned_of_trailingLength found)) trivial
        (List.drop_suffix _ _)
    rw [List.length_drop] at atEnd
    omega
  have nameBound : ∀ l ∈ ((atomNames scope w).filter (·.isSuffixOf head)).map List.length,
      l ≤ f.text.length := by
    intro l mem
    obtain ⟨name, inFilter, rfl⟩ := List.mem_map.mp mem
    obtain ⟨listed, suffix⟩ := List.mem_filter.mp inFilter
    obtain ⟨n, known, rfl⟩ := knows_of_mem_atomNames clear listed
    exact longest.longest (.name n) known (List.isSuffixOf_iff_suffix.mp suffix)
  unfold trailingAtomLength
  apply largerLength_eq_some literalBound fun b found => le_of_longest_eq_some nameBound found
  -- the atom itself is reached by the scan of its own kind
  cases f with
  | literal lit unsigned =>
    obtain ⟨n, found, long⟩ := Literal.le_trailingLength unsigned longest.stands
    exact Or.inl (found.trans (congrArg some (Nat.le_antisymm (literalBound n found) long)))
  | name n =>
    exact Or.inr (longest_eq_some (List.mem_map.mpr ⟨n.toList, List.mem_filter.mpr
      ⟨mem_atomNames_of_knows wf w longest.known, List.isSuffixOf_iff_suffix.mpr longest.stands⟩,
      rfl⟩) nameBound)

/-- The exponent the power pass reads after a `^` is the longest atom the text starts
with. -/
theorem leadingAtomLength_longest {tail : List Char} {g : Atom}
    (longest : scope.LongestAtom List.IsPrefix tail g) :
    leadingAtomLength scope w tail = some g.text.length := by
  -- an atom starts with no sign, so the scan skips none
  obtain ⟨c, rest, spelled, notPlus, notMinus⟩ : ∃ c rest, g.text = c :: rest ∧ c ≠ '+' ∧
      c ≠ '-' := by
    cases g with
    | literal lit unsigned =>
      obtain ⟨c, rest, same, start⟩ := unsigned.head
      exact ⟨c, rest, same, Literal.ne_of_startsLiteral start (by decide) (by decide),
        Literal.ne_of_startsLiteral start (by decide) (by decide)⟩
    | name n =>
      obtain ⟨c, rest, same, -, -, notPlus, notMinus⟩ :=
        identifier_head (identifier_of_knows wf longest.known)
      exact ⟨c, rest, same, notPlus, notMinus⟩
  obtain ⟨after, whole⟩ := longest.stands
  have head : tail.head? = some c := by
    rw [← whole, spelled]
    rfl
  have notSign : isSignChar c = false := by simp [isSignChar, notPlus, notMinus]
  have unsignedScan : Literal.leadingLength tail true = Literal.leadingLength tail false := by
    rw [← whole, spelled, List.cons_append]
    exact Literal.leadingLength_of_head notPlus notMinus _
  have literalBound : ∀ n, Literal.leadingLength tail true = some n → n ≤ g.text.length := by
    intro n found
    rw [unsignedScan] at found
    have fits := Literal.leadingLength_le_length found
    have atStart : (tail.take n).length ≤ g.text.length :=
      longest.longest (.literal _ (Literal.unsigned_take_leadingLength found)) trivial
        (List.take_prefix _ _)
    rw [List.length_take] at atStart
    omega
  have nameBound : ∀ l ∈ ((atomNames scope w).filter (·.isPrefixOf tail)).map
      ((signText none).length + ·.length), l ≤ g.text.length := by
    intro l mem
    obtain ⟨name, inFilter, rfl⟩ := List.mem_map.mp mem
    obtain ⟨listed, start⟩ := List.mem_filter.mp inFilter
    obtain ⟨n, known, rfl⟩ := knows_of_mem_atomNames clear listed
    have bound : n.toList.length ≤ g.text.length :=
      longest.longest (.name n) known (List.isPrefixOf_iff_prefix.mp start)
    simpa only [signText, List.length_nil, Nat.zero_add] using bound
  show leadingAtomLength scope w (signText none ++ tail) = _
  rw [leadingAtomLength_signed none head notSign]
  apply largerLength_eq_some literalBound fun b found => le_of_longest_eq_some nameBound found
  cases g with
  | literal lit unsigned =>
    obtain ⟨n, found, long⟩ := Literal.le_leadingLength unsigned ⟨after, whole⟩ true
    exact Or.inl (found.trans (congrArg some (Nat.le_antisymm (literalBound n found) long)))
  | name n =>
    refine Or.inr (longest_eq_some (List.mem_map.mpr ⟨n.toList, List.mem_filter.mpr
      ⟨mem_atomNames_of_knows wf w longest.known, List.isPrefixOf_iff_prefix.mpr ⟨after, whole⟩⟩,
      ?_⟩) nameBound)
    simp [signText, Atom.text]

end Operands

/-! ## The pass around one power -/

theorem findIdx?_append_cons {p : Char → Bool} {front rest : List Char} {c : Char}
    (passed : ∀ d ∈ front, p d = false) (hit : p c = true) :
    (front ++ c :: rest).findIdx? p = some front.length := by
  rw [List.findIdx?_append, List.findIdx?_eq_none_iff.mpr passed, List.findIdx?_cons, hit]
  simp

/-- No character that is no operator splits a product. -/
theorem productSplit_eq_false {d : Char} (notOperator : isOperatorChar d = false) :
    (d == '*' || d == '/') = false := by
  simp only [Bool.or_eq_false_iff, beq_eq_false_iff_ne, ne_eq]
  constructor <;> (rintro rfl; exact absurd notOperator (by decide))

/-- A text without signs is no sum. -/
theorem additiveSplit?_eq_none_of_signFree {text : List Char}
    (signFree : ∀ c ∈ text, isSignChar c = false) : additiveSplit? text = none := by
  apply additiveSplit?_eq_none
  intro j _ fits
  have inside : j < text.length := by omega
  obtain ⟨c, at_j⟩ : ∃ c, text[j]? = some c := ⟨text[j], List.getElem?_eq_getElem inside⟩
  exact isAdditiveSplit_of_not_sign at_j (signFree c (List.mem_of_getElem? at_j))

/-- The first `^` of a text without brackets and with no `^` after it: its base `b` is what
the text before it ends with, its exponent `e` what the text after it starts with, the three
become a placeholder, and what is left is split into sums and products. -/
theorem resolveExpression_single_power {scope : Scope} {w w₁ w₂ : Workspace}
    {D b e R : List Char} {base exponent : Tree}
    (chars : ∀ c ∈ D ++ b ++ '^' :: (e ++ R), FormulaChar c) (noCaret : '^' ∉ D ++ b) (noLaterCaret : '^' ∉ R) {c : Char}
    (last : (e ++ R).getLast? = some c) (notOperator : isOperatorChar c = false)
    (trailing : trailingAtomLength scope w (D ++ b) = some b.length)
    (leading : leadingAtomLength scope w (e ++ R) = some e.length)
    (baseResolved : resolveLeaf scope b w = .ok (base, w₁))
    (exponentResolved : resolveLeaf scope e w₁ = .ok (exponent, w₂)) :
    resolveExpression scope (D ++ b ++ '^' :: (e ++ R)) w =
      resolveSum scope (D ++ placeholderText (w₂.minted + 1) ++ R)
        { w₂ with minted := w₂.minted + 1,
                  pending := w₂.pending ++
                    [(placeholderText (w₂.minted + 1), .binary .pow base exponent)] } := by
  have hasOperator : (D ++ b ++ '^' :: (e ++ R)).any isOperatorChar = true :=
    List.any_eq_true.mpr ⟨'^', by simp, rfl⟩
  have ending : (D ++ b ++ '^' :: (e ++ R)).getLast? = some c := by
    rw [List.getLast?_append, List.getLast?_cons, last]
    rfl
  -- after the placeholder no `^` is left, so the power pass stops there
  have caretFree : (D ++ placeholderText (w₂.minted + 1) ++ R).findIdx? (· == '^') = none := by
    refine List.findIdx?_eq_none_iff.mpr fun d mem => ?_
    simp only [beq_eq_false_iff_ne, ne_eq]
    rintro rfl
    rcases List.mem_append.mp mem with inFront | inRest
    · rcases List.mem_append.mp inFront with inD | inPlaceholder
      · exact noCaret (List.mem_append_left b inD)
      · exact absurd (noOperator_placeholderText _ '^' inPlaceholder) (by decide)
    · exact noLaterCaret inRest
  have powers : resolvePowers scope (D ++ b ++ '^' :: (e ++ R)) w =
      .ok (D ++ placeholderText (w₂.minted + 1) ++ R,
        { w₂ with minted := w₂.minted + 1,
                  pending := w₂.pending ++
                    [(placeholderText (w₂.minted + 1), .binary .pow base exponent)] }) := by
    rw [resolvePowers_step noCaret trailing leading baseResolved exponentResolved,
      resolvePowers_of_none caretFree]
    rfl
  obtain ⟨noOpening, noClosing⟩ := round_not_mem_of_formulaChars chars
  rw [resolveExpression_of_plain noOpening noClosing, if_pos hasOperator,
    resolveOperators_of_last ending notOperator, Resolve.bind_of_ok powers]

/-! ## Products around a held placeholder -/

theorem Resolve.bind_pure_apply {β : Type} (x : Resolve α) (f : α → β) (w : Workspace) :
    (x >>= fun a => pure (f a)) w = (x w).map fun r => (f r.1, r.2) := by
  show (x w >>= fun r => pure (f r.1, r.2)) = _
  cases x w <;> rfl

section Held

variable (scope : Scope) {w : Workspace} (keys : w.Placeholders) {n : Nat} {t : Tree}
  (holding : w.pending.find? (·.1 == placeholderText n) = some (placeholderText n, t))
include keys holding

/-- A nonempty span without bars right before a held placeholder: the span's tree times the
placeholder's, the placeholder taken out first. -/
theorem resolveLeaf_before_held {P : List Char} (barFree : '|' ∉ P) (nonempty : P ≠ []) :
    resolveLeaf scope (P ++ placeholderText n) w =
      (resolveLeaf scope P { w with pending := w.pending.filter (·.1 != placeholderText n) }).map
        fun r => (.binary .mul r.1 t, r.2) := by
  have around := resolveLeaf_first_held scope keys barFree holding []
  rw [List.append_nil] at around
  rw [around]
  simp only [List.isEmpty_iff, nonempty, List.isEmpty_nil, ↓reduceIte, bind_pure]
  exact Resolve.bind_pure_apply _ _ _

/-- The same span with the product written out: the same tree and the same state. -/
theorem resolveProduct_before_held {P : List Char}
    (productFree : ∀ d ∈ P, (d == '*' || d == '/') = false) (barFree : '|' ∉ P) :
    resolveProduct scope (P ++ '*' :: placeholderText n) w =
      (resolveLeaf scope P { w with pending := w.pending.filter (·.1 != placeholderText n) }).map
        fun r => (.binary .mul r.1 t, r.2) := by
  have found : (P ++ '*' :: placeholderText n).findIdx? (fun c => c == '*' || c == '/') =
      some P.length :=
    findIdx?_append_cons productFree rfl
  have operator : splitOperator (P ++ '*' :: placeholderText n) P.length = .mul := by
    simp [splitOperator]
  have rest : (P ++ '*' :: placeholderText n).drop (P.length + 1) = placeholderText n := by
    simp
  have placeholderOnly : (placeholderText n).findIdx? (fun c => c == '*' || c == '/') = none :=
    List.findIdx?_eq_none_iff.mpr fun d mem =>
      productSplit_eq_false (noOperator_placeholderText n d mem)
  -- the span is resolved with the placeholder still pending, which it never looks at
  have keeps := resolveLeaf_keepsPending scope barFree
  have filteredKeys : ({ w with pending := w.pending.filter (·.1 != placeholderText n) } :
      Workspace).Placeholders := fun entry mem => keys entry (List.mem_filter.mp mem).1
  have atHolding : resolveLeaf scope P w = (resolveLeaf scope P { w with pending := [] }).map
      fun r => (r.1, { r.2 with pending := w.pending }) := keeps w keys
  have atTaken : resolveLeaf scope P
      { w with pending := w.pending.filter (·.1 != placeholderText n) } =
      (resolveLeaf scope P { w with pending := [] }).map
        fun r => (r.1, { r.2 with pending := w.pending.filter (·.1 != placeholderText n) }) :=
    keeps _ filteredKeys
  rw [resolveProduct_of_some found, List.take_left, rest, atTaken, operator]
  show (resolveLeaf scope P w >>= fun r => _) = _
  rw [atHolding]
  cases resolveLeaf scope P { w with pending := [] } with
  | error err => rfl
  | ok r =>
    obtain ⟨left, u⟩ := r
    show (resolveProduct scope (placeholderText n) >>= fun right => pure _)
      { u with pending := w.pending } = _
    have held : resolveLeaf scope (placeholderText n) { u with pending := w.pending } =
        .ok (t, { u with pending := w.pending.filter (·.1 != placeholderText n) }) :=
      @resolveLeaf_held scope { u with pending := w.pending } keys none n t holding
    rw [Resolve.bind_pure_apply, resolveProduct_of_none placeholderOnly, held]
    rfl

/-- A held placeholder right before a nonempty span: the placeholder's tree times the
span's. -/
theorem resolveLeaf_after_held {Q : List Char} (nonempty : Q ≠ []) :
    resolveLeaf scope (placeholderText n ++ Q) w =
      (resolveLeaf scope Q { w with pending := w.pending.filter (·.1 != placeholderText n) }).map
        fun r => (.binary .mul t r.1, r.2) := by
  have around := resolveLeaf_first_held scope keys List.not_mem_nil holding Q
  rw [List.nil_append] at around
  rw [around]
  simp only [List.isEmpty_iff, nonempty, List.isEmpty_nil, ↓reduceIte, pure_bind]
  exact Resolve.bind_pure_apply _ _ _

/-- The same span with the product written out: the same tree and the same state. -/
theorem resolveProduct_after_held {Q : List Char} (plain : PlainSpan Q) :
    resolveProduct scope (placeholderText n ++ '*' :: Q) w =
      (resolveLeaf scope Q { w with pending := w.pending.filter (·.1 != placeholderText n) }).map
        fun r => (.binary .mul t r.1, r.2) := by
  have found : (placeholderText n ++ '*' :: Q).findIdx? (fun c => c == '*' || c == '/') =
      some (placeholderText n).length := findIdx?_append_cons
    (fun d mem => productSplit_eq_false (noOperator_placeholderText n d mem)) rfl
  have operator : splitOperator (placeholderText n ++ '*' :: Q) (placeholderText n).length =
      .mul := by
    simp [splitOperator]
  have rest : (placeholderText n ++ '*' :: Q).drop ((placeholderText n).length + 1) = Q := by
    simp
  have spanOnly : Q.findIdx? (fun c => c == '*' || c == '/') = none :=
    List.findIdx?_eq_none_iff.mpr fun d mem => productSplit_eq_false (plain d mem).2
  have held : resolveLeaf scope (placeholderText n) w =
      .ok (t, { w with pending := w.pending.filter (·.1 != placeholderText n) }) :=
    resolveLeaf_held keys none holding
  rw [resolveProduct_of_some found, List.take_left, rest, operator, Resolve.bind_of_ok held,
    Resolve.bind_pure_apply, resolveProduct_of_none spanOnly]

/-- Before a held placeholder a plain span is no sum, and juxtaposed it is read as the
product written out. -/
theorem resolveSum_before_held {P : List Char} (plain : PlainSpan P) (nonempty : P ≠ []) :
    resolveSum scope (P ++ placeholderText n) w = resolveSum scope (P ++ '*' :: placeholderText n) w := by
  have placeholderSignFree : ∀ d ∈ placeholderText n, isSignChar d = false :=
    fun _ => isSignChar_eq_false_of_mem_placeholderText
  have spanSignFree : ∀ d ∈ P, isSignChar d = false := fun _ => plain.isSignChar_eq_false
  have juxtaposedSum : additiveSplit? (P ++ placeholderText n) = none :=
    additiveSplit?_eq_none_of_signFree (List.forall_mem_append.mpr
      ⟨spanSignFree, placeholderSignFree⟩)
  have writtenSum : additiveSplit? (P ++ '*' :: placeholderText n) = none :=
    additiveSplit?_eq_none_of_signFree (List.forall_mem_append.mpr
      ⟨spanSignFree, List.forall_mem_cons.mpr ⟨rfl, placeholderSignFree⟩⟩)
  have juxtaposedProduct :
      (P ++ placeholderText n).findIdx? (fun c => c == '*' || c == '/') = none :=
    List.findIdx?_eq_none_iff.mpr (List.forall_mem_append.mpr
      ⟨fun d mem => productSplit_eq_false (plain d mem).2,
        fun d mem => productSplit_eq_false (noOperator_placeholderText _ d mem)⟩)
  rw [resolveSum_of_none juxtaposedSum, resolveSum_of_none writtenSum,
    resolveProduct_of_none juxtaposedProduct,
    resolveLeaf_before_held scope keys holding plain.bar_not_mem nonempty,
    resolveProduct_before_held scope keys holding
      (fun d mem => productSplit_eq_false (plain d mem).2) plain.bar_not_mem]

/-- After a held placeholder a plain span is no sum, and juxtaposed it is read as the
product written out. -/
theorem resolveSum_after_held {Q : List Char} (plain : PlainSpan Q) (nonempty : Q ≠ []) :
    resolveSum scope (placeholderText n ++ Q) w = resolveSum scope (placeholderText n ++ '*' :: Q) w := by
  have placeholderSignFree : ∀ d ∈ placeholderText n, isSignChar d = false :=
    fun _ => isSignChar_eq_false_of_mem_placeholderText
  have spanSignFree : ∀ d ∈ Q, isSignChar d = false := fun _ => plain.isSignChar_eq_false
  have juxtaposedSum : additiveSplit? (placeholderText n ++ Q) = none :=
    additiveSplit?_eq_none_of_signFree (List.forall_mem_append.mpr
      ⟨placeholderSignFree, spanSignFree⟩)
  have writtenSum : additiveSplit? (placeholderText n ++ '*' :: Q) = none :=
    additiveSplit?_eq_none_of_signFree (List.forall_mem_append.mpr
      ⟨placeholderSignFree, List.forall_mem_cons.mpr ⟨rfl, spanSignFree⟩⟩)
  have juxtaposedProduct :
      (placeholderText n ++ Q).findIdx? (fun c => c == '*' || c == '/') = none :=
    List.findIdx?_eq_none_iff.mpr (List.forall_mem_append.mpr
      ⟨fun d mem => productSplit_eq_false (noOperator_placeholderText _ d mem),
        fun d mem => productSplit_eq_false (plain d mem).2⟩)
  rw [resolveSum_of_none juxtaposedSum, resolveSum_of_none writtenSum,
    resolveProduct_of_none juxtaposedProduct, resolveLeaf_after_held scope keys holding nonempty,
    resolveProduct_after_held scope keys holding plain]

end Held

/-! ## A power next to juxtaposed factors -/

/-- The state right after the one power is folded: the power is the only pending subtree. -/
theorem holding_single {w₂ : Workspace} (clear : w₂.pending = []) (t : Tree) :
    let w := { w₂ with minted := w₂.minted + 1,
                       pending := w₂.pending ++ [(placeholderText (w₂.minted + 1), t)] }
    w.Placeholders ∧
      w.pending.find? (·.1 == placeholderText (w₂.minted + 1)) =
        some (placeholderText (w₂.minted + 1), t) := by
  refine ⟨fun entry mem => ?_, ?_⟩
  · simp only [clear, List.nil_append, List.mem_singleton] at mem
    exact ⟨_, by rw [mem]⟩
  · simp [clear]

section Adjacent

variable {scope : Scope} (wf : scope.WellFormed)
include wf

/-- The two atoms of a power, resolved from the start of a compilation: the base first, then
the exponent, with nothing pending and nothing minted. -/
theorem resolveLeaf_atoms {b e : Atom} (knownB : b.Known scope) (knownE : e.Known scope) :
    ∃ base w₁ exponent w₂, resolveLeaf scope b.text Workspace.initial = .ok (base, w₁) ∧
      resolveLeaf scope e.text w₁ = .ok (exponent, w₂) ∧ w₂.pending = [] ∧ w₂.minted = 0 := by
  obtain ⟨base, w₁, baseResolved, -, pending₁, minted₁⟩ :=
    resolveLeaf_operand wf Workspace.holds_initial.keys ⟨none, b⟩ knownB
  obtain ⟨exponent, w₂, exponentResolved, -, pending₂, minted₂⟩ :=
    resolveLeaf_operand wf (Workspace.placeholders_of_nil pending₁) ⟨none, e⟩ knownE
  exact ⟨base, w₁, exponent, w₂, baseResolved, exponentResolved, pending₂.trans pending₁,
    minted₂.trans minted₁⟩

/-- A power after a span of juxtaposed factors takes the longest atom the span ends with:
`s' f ^ a` resolves exactly as `s' * f ^ a`. -/
theorem resolveExpression_power_after_span {s' : List Char} {f a : Atom}
    (plain : PlainSpan (s' ++ f.text)) (nonempty : s' ≠ [])
    (longest : scope.LongestAtom List.IsSuffix (s' ++ f.text) f) (known : a.Known scope) :
    resolveExpression scope (s' ++ f.text ++ '^' :: a.text) Workspace.initial =
      resolveExpression scope (s' ++ '*' :: (f.text ++ '^' :: a.text)) Workspace.initial := by
  obtain ⟨base, w₁, exponent, w₂, baseResolved, exponentResolved, clear, -⟩ :=
    resolveLeaf_atoms wf longest.known known
  obtain ⟨keys, holding⟩ := holding_single clear (.binary .pow base exponent)
  have named : (Item.operand ⟨none, a⟩).Named := Item.named_of_known wf known
  obtain ⟨c, last, notOperator⟩ := Item.getLast?_text named
  have plainFront : PlainSpan s' := plain.mono (List.subset_append_left _ _)
  have plainAtom : PlainSpan f.text := plain.mono (List.subset_append_right _ _)
  have atomChars : ∀ c ∈ '^' :: a.text, FormulaChar c :=
    List.forall_mem_cons.mpr ⟨Or.inl rfl, fun c => Atom.mem_text wf known⟩
  have exponentLead : leadingAtomLength scope Workspace.initial (a.text ++ []) =
      some a.text.length := by
    rw [List.append_nil]
    exact leadingAtomLength_longest wf rfl
      (Scope.longestAtom_self known (List.prefix_refl _) fun _ start => start.length_le)
  have writtenChars : ∀ c ∈ s' ++ '*' :: (f.text ++ '^' :: a.text), FormulaChar c :=
    List.forall_mem_append.mpr ⟨plainFront.formulaChars, List.forall_mem_cons.mpr
      ⟨Or.inl rfl, List.forall_mem_append.mpr ⟨plainAtom.formulaChars, atomChars⟩⟩⟩
  have noCaret : '^' ∉ s' ++ f.text := plain.operator_not_mem rfl
  -- the juxtaposed form: the power becomes a placeholder right after `s'`
  have juxtaposed := resolveExpression_single_power (D := s') (b := f.text) (e := a.text) (R := [])
    (by simpa using List.forall_mem_append.mpr ⟨plain.formulaChars, atomChars⟩)
    noCaret List.not_mem_nil (by rw [List.append_nil]; exact last) notOperator
    (trailingAtomLength_longest wf rfl longest) exponentLead baseResolved exponentResolved
  -- the product written out: the placeholder right after `s' *`
  have trailingAfterStar : trailingAtomLength scope Workspace.initial (s' ++ ['*'] ++ f.text) =
      some f.text.length := by
    rw [List.append_assoc, List.singleton_append]
    exact trailingAtomLength_longest wf rfl (longest.star_before wf)
  have written := resolveExpression_single_power (D := s' ++ ['*']) (b := f.text) (e := a.text)
    (R := [])
    (by simpa using writtenChars)
    (fun mem => by
      rcases List.mem_append.mp mem with inFront | inBase
      · rcases List.mem_append.mp inFront with inSpan | inStar
        · exact noCaret (List.mem_append_left _ inSpan)
        · cases List.mem_singleton.mp inStar
      · exact noCaret (List.mem_append_right _ inBase))
    List.not_mem_nil (by rw [List.append_nil]; exact last) notOperator trailingAfterStar
    exponentLead baseResolved exponentResolved
  simp only [List.append_nil] at juxtaposed written
  rw [juxtaposed, show s' ++ '*' :: (f.text ++ '^' :: a.text) =
      s' ++ ['*'] ++ f.text ++ '^' :: a.text by simp, written, List.append_assoc s' ['*'],
    List.singleton_append]
  exact resolveSum_before_held scope keys holding plainFront nonempty

/-- A power before a span of juxtaposed factors takes the longest atom the span starts with:
`a ^ g s''` resolves exactly as `a ^ g * s''`. -/
theorem resolveExpression_power_before_span {s'' : List Char} {g a : Atom}
    (plain : PlainSpan (g.text ++ s'')) (nonempty : s'' ≠ [])
    (longest : scope.LongestAtom List.IsPrefix (g.text ++ s'') g) (known : a.Known scope) :
    resolveExpression scope (a.text ++ '^' :: (g.text ++ s'')) Workspace.initial =
      resolveExpression scope (a.text ++ '^' :: (g.text ++ '*' :: s'')) Workspace.initial := by
  obtain ⟨base, w₁, exponent, w₂, baseResolved, exponentResolved, clear, -⟩ :=
    resolveLeaf_atoms wf known longest.known
  obtain ⟨keys, holding⟩ := holding_single clear (.binary .pow base exponent)
  have plainAtom : PlainSpan g.text := plain.mono (List.subset_append_left _ _)
  have plainBack : PlainSpan s'' := plain.mono (List.subset_append_right _ _)
  have last : s''.getLast? = some (s''.getLast nonempty) := List.getLast?_eq_some_getLast nonempty
  have lastPlain : isOperatorChar (s''.getLast nonempty) = false :=
    (plainBack _ (List.getLast_mem nonempty)).2
  have atomChars : ∀ c ∈ a.text, FormulaChar c := fun c => Atom.mem_text wf known
  have baseTrail : trailingAtomLength scope Workspace.initial ([] ++ a.text) =
      some a.text.length := by
    rw [List.nil_append]
    exact trailingAtomLength_longest wf rfl
      (Scope.longestAtom_self known (List.suffix_refl _) fun _ ending => ending.length_le)
  have noCaret : '^' ∉ [] ++ a.text := Atom.not_mem_text wf known (by simp)
  -- the juxtaposed form: the power becomes a placeholder right before `s''`
  have juxtaposed := resolveExpression_single_power (D := []) (b := a.text) (e := g.text) (R := s'')
    (List.forall_mem_append.mpr ⟨atomChars, List.forall_mem_cons.mpr ⟨Or.inl rfl,
      plain.formulaChars⟩⟩)
    noCaret (plainBack.operator_not_mem rfl) (by rw [List.getLast?_append, last]; rfl) lastPlain
    baseTrail (leadingAtomLength_longest wf rfl longest) baseResolved exponentResolved
  -- the product written out: the placeholder right before `* s''`
  have noLaterCaret : '^' ∉ '*' :: s'' := by
    intro mem
    rcases List.mem_cons.mp mem with same | inBack
    · cases same
    · exact plainBack.operator_not_mem rfl inBack
  have written := resolveExpression_single_power (D := []) (b := a.text) (e := g.text)
    (R := '*' :: s'')
    (List.forall_mem_append.mpr ⟨atomChars, List.forall_mem_cons.mpr ⟨Or.inl rfl,
      List.forall_mem_append.mpr ⟨plainAtom.formulaChars, List.forall_mem_cons.mpr
        ⟨Or.inl rfl, plainBack.formulaChars⟩⟩⟩⟩)
    noCaret noLaterCaret (by rw [List.getLast?_append, List.getLast?_cons, last]; rfl) lastPlain
    baseTrail (leadingAtomLength_longest wf rfl (longest.star_after wf)) baseResolved
    exponentResolved
  simp only [List.nil_append] at juxtaposed written
  rw [juxtaposed, written]
  exact resolveSum_after_held scope keys holding plainBack nonempty

end Adjacent

/-! ## Compiling a power next to juxtaposed factors -/

/-- Two texts of characters of formulas that resolve alike compile alike. -/
theorem compile_eq_of_resolveExpression_eq {table : ConstantTable} {names declared : List String}
    (folding : Bool) (constantsChecked : Compiler.checkConstants table = .ok ())
    (variablesChecked : Compiler.declareVariables table names = .ok declared) {x y : List Char}
    (xNonempty : x ≠ []) (xChars : ∀ c ∈ x, FormulaChar c) (yNonempty : y ≠ [])
    (yChars : ∀ c ∈ y, FormulaChar c)
    (same : resolveExpression ⟨table, declared⟩ x Workspace.initial =
      resolveExpression ⟨table, declared⟩ y Workspace.initial) :
    Compiler.compile ⟨table, BracketGlyphs.standard, folding⟩ (String.ofList x) names =
      Compiler.compile ⟨table, BracketGlyphs.standard, folding⟩ (String.ofList y) names := by
  rw [compile_eq_resolveExpression folding constantsChecked variablesChecked
      (normalize_of_formulaChars xNonempty xChars),
    compile_eq_resolveExpression folding constantsChecked variablesChecked
      (normalize_of_formulaChars yNonempty yChars), same]

/-- A `^` next to a span of juxtaposed factors binds the longest atom on its side of the span,
and the rest of the span stays a factor of its own. With `f` the longest literal or known name
that the span `s = s' ++ f` ends with, `s ^ a` compiles exactly as `s' * f ^ a`; with `g` the
longest one that `s = g ++ s''` starts with, `a ^ s` compiles exactly as `a ^ g * s''`. Both
sides fail alike when the rest of the span does not resolve, and both are folded alike. -/
theorem compile_power_binds_longest_atom {table : ConstantTable} {names declared : List String}
    (folding : Bool) (constantsChecked : Compiler.checkConstants table = .ok ())
    (variablesChecked : Compiler.declareVariables table names = .ok declared)
    {s : List Char} (plain : PlainSpan s) (a : Atom) (known : a.Known ⟨table, declared⟩) :
    (∀ f s', (⟨table, declared⟩ : Scope).LongestAtom List.IsSuffix s f → s = s' ++ f.text →
        s' ≠ [] →
        Compiler.compile ⟨table, BracketGlyphs.standard, folding⟩
            (String.ofList (s ++ '^' :: a.text)) names =
          Compiler.compile ⟨table, BracketGlyphs.standard, folding⟩
            (String.ofList (s' ++ '*' :: (f.text ++ '^' :: a.text))) names) ∧
    (∀ g s'', (⟨table, declared⟩ : Scope).LongestAtom List.IsPrefix s g → s = g.text ++ s'' →
        s'' ≠ [] →
        Compiler.compile ⟨table, BracketGlyphs.standard, folding⟩
            (String.ofList (a.text ++ '^' :: s)) names =
          Compiler.compile ⟨table, BracketGlyphs.standard, folding⟩
            (String.ofList (a.text ++ '^' :: (g.text ++ '*' :: s''))) names) := by
  have wf := Compiler.wellFormed_of_checks constantsChecked variablesChecked
  have atomChars : ∀ c ∈ a.text, FormulaChar c := fun c => Atom.mem_text wf known
  constructor
  · rintro f s' longest rfl nonempty
    have plainFront : PlainSpan s' := plain.mono (List.subset_append_left _ _)
    have plainAtom : PlainSpan f.text := plain.mono (List.subset_append_right _ _)
    exact compile_eq_of_resolveExpression_eq folding constantsChecked variablesChecked
      (by simp [nonempty])
      (List.forall_mem_append.mpr ⟨plain.formulaChars, List.forall_mem_cons.mpr
        ⟨Or.inl rfl, atomChars⟩⟩)
      (by simp [nonempty])
      (List.forall_mem_append.mpr ⟨plainFront.formulaChars, List.forall_mem_cons.mpr
        ⟨Or.inl rfl, List.forall_mem_append.mpr ⟨plainAtom.formulaChars,
          List.forall_mem_cons.mpr ⟨Or.inl rfl, atomChars⟩⟩⟩⟩)
      (resolveExpression_power_after_span wf plain nonempty longest known)
  · rintro g s'' longest rfl nonempty
    have plainAtom : PlainSpan g.text := plain.mono (List.subset_append_left _ _)
    have plainBack : PlainSpan s'' := plain.mono (List.subset_append_right _ _)
    exact compile_eq_of_resolveExpression_eq folding constantsChecked variablesChecked
      (by simp)
      (List.forall_mem_append.mpr ⟨atomChars, List.forall_mem_cons.mpr
        ⟨Or.inl rfl, plain.formulaChars⟩⟩)
      (by simp)
      (List.forall_mem_append.mpr ⟨atomChars, List.forall_mem_cons.mpr ⟨Or.inl rfl,
        List.forall_mem_append.mpr ⟨plainAtom.formulaChars, List.forall_mem_cons.mpr
          ⟨Or.inl rfl, plainBack.formulaChars⟩⟩⟩⟩)
      (resolveExpression_power_before_span wf plain nonempty longest known)

/-- The span `xyz` with the variables `x`, `y`, `z` and `w`: `z` is the longest atom it ends
with and `x` the longest it starts with, so a power after it binds `z` and a power before it
binds `x`. -/
theorem compile_power_next_to_xyz :
    PlainSpan "xyz".toList ∧ (Atom.name "w").Known ⟨ConstantTable.builtin, ["x", "y", "z", "w"]⟩ ∧
    (⟨ConstantTable.builtin, ["x", "y", "z", "w"]⟩ : Scope).LongestAtom List.IsSuffix
      "xyz".toList (.name "z") ∧
    (⟨ConstantTable.builtin, ["x", "y", "z", "w"]⟩ : Scope).LongestAtom List.IsPrefix
      "xyz".toList (.name "x") ∧
    Compiler.compile ⟨ConstantTable.builtin, BracketGlyphs.standard, false⟩ "xyz^w"
        ["x", "y", "z", "w"] =
      Compiler.compile ⟨ConstantTable.builtin, BracketGlyphs.standard, false⟩ "xy*z^w"
        ["x", "y", "z", "w"] ∧
    Compiler.compile ⟨ConstantTable.builtin, BracketGlyphs.standard, false⟩ "w^xyz"
        ["x", "y", "z", "w"] =
      Compiler.compile ⟨ConstantTable.builtin, BracketGlyphs.standard, false⟩ "w^x*yz"
        ["x", "y", "z", "w"] := by
  have plain : PlainSpan "xyz".toList := PlainSpan.of_identifier (by decide)
  have spelled : "xyz".toList = ['x', 'y', 'z'] := by decide
  have variablesChecked : Compiler.declareVariables ConstantTable.builtin ["x", "y", "z", "w"] =
      .ok ["x", "y", "z", "w"] := rfl
  have knows : ∀ m, Scope.Knows ⟨ConstantTable.builtin, ["x", "y", "z", "w"]⟩ m ↔
      m ∈ ConstantTable.builtin.names ++ ["x", "y", "z", "w"] := fun m => by
    simp [Scope.Knows]
  have known : (Atom.name "w").Known ⟨ConstantTable.builtin, ["x", "y", "z", "w"]⟩ :=
    (knows "w").mpr (by unfold ConstantTable.builtin ConstantTable.names; decide)
  -- of the names the scope knows, only `z` ends the span and only `x` starts it
  have longestZ : (⟨ConstantTable.builtin, ["x", "y", "z", "w"]⟩ : Scope).LongestAtom
      List.IsSuffix "xyz".toList (.name "z") := by
    refine Scope.longestAtom_suffix_name ((knows "z").mpr ?_) (by decide) (fun c last => ?_)
      fun m knownM ending => ?_
    · unfold ConstantTable.builtin ConstantTable.names; decide
    · rw [spelled, List.getLast?_cons_cons, List.getLast?_cons_cons, List.getLast?_singleton,
        Option.some.injEq] at last
      subst last
      decide
    · have bounded : ∀ m ∈ ConstantTable.builtin.names ++ ["x", "y", "z", "w"],
          m.toList <:+ "xyz".toList → m.toList.length ≤ 1 := by
        unfold ConstantTable.builtin ConstantTable.names; decide
      exact bounded m ((knows m).mp knownM) ending
  have longestX : (⟨ConstantTable.builtin, ["x", "y", "z", "w"]⟩ : Scope).LongestAtom
      List.IsPrefix "xyz".toList (.name "x") := by
    refine Scope.longestAtom_prefix_name ((knows "x").mpr ?_) (by decide) (fun c first => ?_)
      fun m knownM starting => ?_
    · unfold ConstantTable.builtin ConstantTable.names; decide
    · rw [spelled, List.head?_cons, Option.some.injEq] at first
      subst first
      decide
    · have bounded : ∀ m ∈ ConstantTable.builtin.names ++ ["x", "y", "z", "w"],
          m.toList <+: "xyz".toList → m.toList.length ≤ 1 := by
        unfold ConstantTable.builtin ConstantTable.names; decide
      exact bounded m ((knows m).mp knownM) starting
  obtain ⟨after, before⟩ :=
    compile_power_binds_longest_atom false rfl variablesChecked plain (.name "w") known
  refine ⟨plain, known, longestZ, longestX, ?_, ?_⟩
  · have spelled : "xyz^w" = String.ofList ("xyz".toList ++ '^' :: (Atom.name "w").text) ∧
        "xy*z^w" = String.ofList ("xy".toList ++ '*' :: ((Atom.name "z").text ++ '^' ::
          (Atom.name "w").text)) := by decide
    rw [spelled.1, spelled.2]
    exact after (.name "z") "xy".toList longestZ (by decide) (by decide)
  · have spelled : "w^xyz" = String.ofList ((Atom.name "w").text ++ '^' :: "xyz".toList) ∧
        "w^x*yz" = String.ofList ((Atom.name "w").text ++ '^' :: ((Atom.name "x").text ++ '*' ::
          "yz".toList)) := by decide
    rw [spelled.1, spelled.2]
    exact before (.name "x") "yz".toList longestX (by decide) (by decide)

/-- The span before a power is not grouped as it is alone: `xyz` is `x * (y * z)`, while
`xyz^w` is `(x * y) * z^w`, not `x * (y * z^w)`. -/
theorem compile_power_after_juxtaposition_groups_left :
    (Compiler.compile ⟨ConstantTable.builtin, BracketGlyphs.standard, false⟩ "xyz"
        ["x", "y", "z", "w"]).map (·.root.eraseLeaves) =
      .ok (.binary .mul (.var 0 0) (.binary .mul (.var 0 1) (.var 0 2))) ∧
    (Compiler.compile ⟨ConstantTable.builtin, BracketGlyphs.standard, false⟩ "xyz^w"
        ["x", "y", "z", "w"]).map (·.root.eraseLeaves) =
      .ok (.binary .mul (.binary .mul (.var 0 0) (.var 0 1)) (.binary .pow (.var 0 2) (.var 0 3))) := by
  have constantsChecked : Compiler.checkConstants ConstantTable.builtin = .ok () := rfl
  have variablesChecked : Compiler.declareVariables ConstantTable.builtin ["x", "y", "z", "w"] =
      .ok ["x", "y", "z", "w"] := rfl
  have product : PlainSpan "xyz".toList := PlainSpan.of_identifier (by decide)
  have exponent : PlainSpan "w".toList := PlainSpan.of_identifier (by decide)
  have alone := compile_eq_resolveExpression false constantsChecked variablesChecked
    (normalize_of_formulaChars (by decide) product.formulaChars)
  have poweredChars : ∀ c ∈ "xyz".toList ++ '^' :: "w".toList, FormulaChar c :=
    List.forall_mem_append.mpr ⟨product.formulaChars, List.forall_mem_cons.mpr
      ⟨Or.inl rfl, exponent.formulaChars⟩⟩
  have powered := compile_eq_resolveExpression false constantsChecked variablesChecked
    (normalize_of_formulaChars (by simp) poweredChars)
  rw [show "xyz^w" = String.ofList ("xyz".toList ++ '^' :: "w".toList) by decide, powered,
    show "xyz" = String.ofList "xyz".toList by decide, alone]
  constructor <;> cbv

end ComplexFormula
