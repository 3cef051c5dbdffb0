import ComplexFormula.Proofs.Chains

/-!
# Folding the powers

`resolvePowers` takes the first `^` of the text, reads its base from the end of the text
before it and its exponent from the start of the text after it, and replaces the three by a
placeholder. On the text of a formula the base of the first power of a run is the run's
unsigned first atom, and the base of every later power is the placeholder left by the one
before; the exponent is the signed operand after the `^`. So a run `u₀ ^ s₁ ^ … ^ sₖ` with a
sign in front becomes that sign and one placeholder, which holds `((u₀ ^ s₁) ^ s₂) …`
(`resolvePowers_run`), and the whole formula becomes a chain of items
(`resolvePowers_runs`).

The base is scanned from its end, as the longest unsigned literal or the longest known name
that the text ends with; the exponent from its start. Both scans find the atom that is
written (`trailingAtomLength_name`, `trailingAtomLength_placeholder`,
`leadingAtomLength_operand`), with one exception: a literal base can be read too far back.
In `x1e-5^2` the text before `^` ends with `1e-5`, which is a literal, although `x1e` is a
name, `-` an operator and `5` the base. `Misread` is the shape in which this happens; outside
it the literal is read as written (`trailingAtomLength_literal`).
-/

namespace ComplexFormula

/-! ## Texts without operators -/

/-- A text holds no operator. -/
def NoOperator (name : List Char) : Prop := ∀ c ∈ name, isOperatorChar c = false

/-- The text is empty or starts with an operator. -/
def OperatorAfter (rest : List Char) : Prop :=
  ∀ c, rest.head? = some c → isOperatorChar c = true

theorem OperatorAfter.nil : OperatorAfter [] := by
  intro c first
  cases first

theorem OperatorAfter.cons {o : Char} (operator : isOperatorChar o = true) (rest : List Char) :
    OperatorAfter (o :: rest) := by
  intro c first
  cases first
  exact operator

/-- What starts with an operator cannot continue a literal. -/
theorem OperatorAfter.stops {rest : List Char} (after : OperatorAfter rest) :
    Literal.Stops rest := by
  intro c r same
  subst same
  exact Literal.literalChars_of_isOperatorChar (after c rfl)

theorem noOperator_placeholderText (n : Nat) : NoOperator (placeholderText n) := by
  intro c mem
  rcases mem_placeholderText mem with rfl | rfl | digit
  · rfl
  · rfl
  · cases operator : isOperatorChar c with
    | false => rfl
    | true =>
      have notDigit := (Literal.literalChars_of_isOperatorChar operator).1
      rw [show c.isDigit = Decimal.isDigit c from rfl, notDigit] at digit
      cases digit

theorem noOperator_identifier {name : List Char} (named : Text.isIdentifierChars name = true) :
    NoOperator name :=
  fun _ mem => Text.isOperatorChar_eq_false_of_mem_identifier named mem

/-- A text without operators that a text ends with lies after the text's last operator. -/
theorem suffix_of_operatorBefore {D X m : List Char} (boundary : OperatorBefore D)
    (plain : NoOperator m) (suffix : m <:+ D ++ X) : m <:+ X := by
  obtain ⟨pre, same⟩ := suffix
  rcases List.append_eq_append_iff.mp same with ⟨a, rfl, rfl⟩ | ⟨c, -, rfl⟩
  · -- `m` would reach back into `D`, through the operator that ends it
    rcases List.eq_nil_or_concat a with rfl | ⟨a', q, rfl⟩
    · exact List.suffix_refl X
    · have operator := boundary q (by simp)
      rw [plain q (by simp)] at operator
      cases operator
  · exact List.suffix_append c m

/-- A text without operators that a text starts with lies before the text's first
operator. -/
theorem prefix_of_operatorAfter {X R m : List Char} (after : OperatorAfter R)
    (plain : NoOperator m) (isPrefix : m <+: X ++ R) : m <+: X := by
  obtain ⟨post, same⟩ := isPrefix
  rcases List.append_eq_append_iff.mp same with ⟨a, rfl, -⟩ | ⟨c, rfl, rfl⟩
  · exact List.prefix_append m a
  · cases c with
    | nil => simp
    | cons q c' =>
      have operator := after q rfl
      rw [plain q (by simp)] at operator
      cases operator

/-! ## The names an operand of a power may be -/

/-- Every name a power's operand may be is a placeholder or a name. -/
theorem atomNames_shape {scope : Scope} (wf : scope.WellFormed) {w : Workspace}
    (keys : w.Placeholders) {name : List Char} (listed : name ∈ atomNames scope w) :
    (∃ k, name = placeholderText k) ∨ Text.isIdentifierChars name = true := by
  simp only [atomNames, List.mem_filter, List.mem_append, List.mem_map] at listed
  obtain ⟨(⟨entry, pending, rfl⟩ | ⟨constant, registered, rfl⟩) | ⟨declared, isDeclared, rfl⟩,
    -⟩ := listed
  · exact Or.inl (keys entry pending)
  · exact Or.inr (wf.constantsNamed constant registered)
  · exact Or.inr (wf.variablesNamed declared isDeclared)

theorem atomNames_noOperator {scope : Scope} (wf : scope.WellFormed) {w : Workspace}
    (keys : w.Placeholders) {name : List Char} (listed : name ∈ atomNames scope w) :
    NoOperator name := by
  rcases atomNames_shape wf keys listed with ⟨k, rfl⟩ | named
  · exact noOperator_placeholderText k
  · exact noOperator_identifier named

theorem mem_atomNames_of_knows {scope : Scope} (wf : scope.WellFormed) (w : Workspace)
    {name : String} (known : scope.Knows name) : name.toList ∈ atomNames scope w := by
  have nonempty := Text.ne_nil_of_identifier (identifier_of_knows wf known)
  simp only [atomNames, List.mem_filter, List.mem_append, List.mem_map, Bool.not_eq_true',
    List.isEmpty_eq_false_iff]
  refine ⟨?_, nonempty⟩
  rcases known with registered | declared
  · exact Or.inl (Or.inr ⟨name, registered, rfl⟩)
  · exact Or.inr ⟨name, declared, rfl⟩

theorem mem_atomNames_of_pending {scope : Scope} {w : Workspace} {k : Nat}
    (pending : placeholderText k ∈ w.pending.map (·.1)) :
    placeholderText k ∈ atomNames scope w := by
  simp only [atomNames, List.mem_filter, List.mem_append, Bool.not_eq_true',
    List.isEmpty_eq_false_iff]
  exact ⟨Or.inl (Or.inl pending), by simp [placeholderText]⟩

theorem longest_eq_some {lengths : List Nat} {L : Nat} (mem : L ∈ lengths)
    (bound : ∀ l ∈ lengths, l ≤ L) : longest lengths = some L :=
  List.max?_eq_some_iff.mpr ⟨mem, bound⟩

theorem le_of_longest_eq_some {lengths : List Nat} {L m : Nat} (bound : ∀ l ∈ lengths, l ≤ L)
    (found : longest lengths = some m) : m ≤ L :=
  bound m (List.max?_eq_some_iff.mp found).1

/-! ## The base of a power -/

section Base

variable {scope : Scope} (wf : scope.WellFormed) {w : Workspace} (keys : w.Placeholders)
include wf keys

/-- The names a text ends with, after an operator boundary, are no longer than what follows
the boundary. -/
theorem suffixNames_le {D X : List Char} (boundary : OperatorBefore D) :
    ∀ l ∈ ((atomNames scope w).filter (·.isSuffixOf (D ++ X))).map List.length, l ≤ X.length := by
  intro l mem
  obtain ⟨name, inFilter, rfl⟩ := List.mem_map.mp mem
  obtain ⟨listed, suffix⟩ := List.mem_filter.mp inFilter
  exact (suffix_of_operatorBefore boundary (atomNames_noOperator wf keys listed)
    (List.isSuffixOf_iff_suffix.mp suffix)).length_le

/-- After an operator boundary, a literal base is read as written, unless a nonempty end of
the text before it continues it. -/
theorem trailingAtomLength_literal {D lit : List Char} (unsigned : Literal.Unsigned lit)
    (boundary : OperatorBefore D)
    (separate : ∀ front, front ≠ [] → front <:+ D → Literal.isLiteral (front ++ lit) false = false) :
    trailingAtomLength scope w (D ++ lit) = some lit.length := by
  unfold trailingAtomLength
  rw [Literal.trailingLength_append unsigned separate]
  cases found : longest (((atomNames scope w).filter (·.isSuffixOf (D ++ lit))).map List.length)
    with
  | none => rfl
  | some m =>
    have shorter := le_of_longest_eq_some (suffixNames_le wf keys boundary) found
    simp [largerLength, Nat.max_eq_left shorter]

/-- After an operator boundary, a known name is read as the base. -/
theorem trailingAtomLength_name {name : String} (known : scope.Knows name) {D : List Char}
    (boundary : OperatorBefore D) :
    trailingAtomLength scope w (D ++ name.toList) = some name.toList.length := by
  have named := identifier_of_knows wf known
  -- a literal cannot reach back across the boundary: it would be digits after an exponent sign
  have separate : ∀ front, front ≠ [] → front <:+ D →
      Literal.isLiteral (front ++ name.toList) false = false := by
    intro front nonempty suffix
    cases literal : Literal.isLiteral (front ++ name.toList) false with
    | false => rfl
    | true =>
      obtain ⟨A, o, rfl⟩ := (List.eq_nil_or_concat front).resolve_left nonempty
      obtain ⟨pre, same⟩ := suffix
      have operator : isOperatorChar o = true := boundary o (by simp [← same])
      have unsigned := Literal.unsigned_of_isLiteral literal
      rw [List.concat_eq_append, List.append_assoc, List.singleton_append] at unsigned
      obtain ⟨-, digits, -⟩ := Literal.sign_of_unsigned operator unsigned
      obtain ⟨first, rest, start, letter, -⟩ := (Text.isIdentifierChars_iff _).mp named
      have digit := digits first (by rw [start]; exact List.mem_cons_self)
      rw [Text.isDigit_eq_false_of_isAlphabetic letter] at digit
      cases digit
  have names : longest (((atomNames scope w).filter (·.isSuffixOf (D ++ name.toList))).map
      List.length) = some name.toList.length := by
    refine longest_eq_some (List.mem_map.mpr ⟨name.toList, ?_, rfl⟩)
      (suffixNames_le wf keys boundary)
    exact List.mem_filter.mpr ⟨mem_atomNames_of_knows wf w known,
      List.isSuffixOf_iff_suffix.mpr (List.suffix_append D _)⟩
  unfold trailingAtomLength
  rw [names]
  cases scanned : Literal.trailingLength (D ++ name.toList) with
  | none => rfl
  | some l =>
    have shorter := Literal.trailingLength_append_le separate scanned
    simp [largerLength, Nat.max_eq_right shorter]

/-- A pending placeholder at the end of the text is read as the base, whatever stands before
it. -/
theorem trailingAtomLength_placeholder {k : Nat} (pending : placeholderText k ∈ w.pending.map (·.1))
    (D : List Char) :
    trailingAtomLength scope w (D ++ placeholderText k) = some (placeholderText k).length := by
  have noLiteral : Literal.trailingLength (D ++ placeholderText k) = none := by
    apply Literal.trailingLength_eq_none
    intro c last
    rw [getLast?_append_placeholderText] at last
    cases last
    exact ⟨rfl, by decide⟩
  -- a name that the text ends with is this placeholder: no name ends with a bar
  have bound : ∀ l ∈ ((atomNames scope w).filter (·.isSuffixOf (D ++ placeholderText k))).map
      List.length, l ≤ (placeholderText k).length := by
    intro l mem
    obtain ⟨name, inFilter, rfl⟩ := List.mem_map.mp mem
    obtain ⟨listed, suffix⟩ := List.mem_filter.mp inFilter
    have suffix := List.isSuffixOf_iff_suffix.mp suffix
    rcases atomNames_shape wf keys listed with ⟨m, rfl⟩ | named
    · exact Nat.le_of_eq (by rw [eq_of_placeholderText_suffix suffix])
    · exfalso
      obtain ⟨pre, same⟩ := suffix
      have last : (pre ++ name).getLast? = some '|' := by
        rw [same, getLast?_append_placeholderText]
      obtain ⟨c, lastName⟩ : ∃ c, name.getLast? = some c := by
        cases ending : name.getLast? with
        | none => exact absurd (List.getLast?_eq_none_iff.mp ending) (Text.ne_nil_of_identifier named)
        | some c => exact ⟨c, rfl⟩
      rw [List.getLast?_append, lastName, Option.some_or] at last
      cases last
      exact Text.not_mem_identifier named (by simp [Text.punctuation])
        (List.mem_of_getLast? lastName)
  have names : longest (((atomNames scope w).filter (·.isSuffixOf (D ++ placeholderText k))).map
      List.length) = some (placeholderText k).length :=
    longest_eq_some (List.mem_map.mpr ⟨placeholderText k, List.mem_filter.mpr
      ⟨mem_atomNames_of_pending pending, List.isSuffixOf_iff_suffix.mpr (List.suffix_append D _)⟩,
      rfl⟩) bound
  unfold trailingAtomLength
  rw [noLiteral, names]
  rfl

end Base

/-! ## The exponent of a power -/

/-- The exponent scan skips a sign in front and looks for names after it. -/
theorem leadingAtomLength_signed {scope : Scope} {w : Workspace} (sign : Option Sign)
    {body : List Char} {c : Char} (start : body.head? = some c) (notSign : isSignChar c = false) :
    leadingAtomLength scope w (signText sign ++ body) =
      largerLength (Literal.leadingLength (signText sign ++ body) true)
        (longest (((atomNames scope w).filter (·.isPrefixOf body)).map
          ((signText sign).length + ·.length))) := by
  obtain ⟨rest, rfl⟩ : ∃ rest, body = c :: rest := by
    cases body with
    | nil => cases start
    | cons d rest =>
      cases start
      exact ⟨rest, rfl⟩
  cases sign with
  | none => simp [leadingAtomLength, signText, notSign]
  | some s => cases s <;> simp [leadingAtomLength, signText, Sign.char, isSignChar]

/-- A name or a placeholder does not start with a digit or a point. -/
theorem not_prefix_literal {scope : Scope} (wf : scope.WellFormed) {w : Workspace}
    (keys : w.Placeholders) {name : List Char} (listed : name ∈ atomNames scope w) {c : Char}
    (digitOrPoint : Decimal.isDigit c = true ∨ c = '.') (rest : List Char) :
    ¬name <+: c :: rest := by
  intro isPrefix
  have below : c.toNat < 0x41 := by
    rcases digitOrPoint with digit | rfl
    · have := Text.toNat_of_isDigit digit
      omega
    · decide
  rcases atomNames_shape wf keys listed with ⟨k, rfl⟩ | named
  · rw [placeholderText_eq, List.cons_prefix_cons] at isPrefix
    rw [← isPrefix.1] at below
    exact absurd below (by decide)
  · obtain ⟨first, more, rfl, letter, -⟩ := (Text.isIdentifierChars_iff _).mp named
    rw [List.cons_prefix_cons] at isPrefix
    have := Text.le_toNat_of_isAlphabetic letter
    rw [isPrefix.1] at this
    omega

section Exponent

variable {scope : Scope} (wf : scope.WellFormed) {w : Workspace} (keys : w.Placeholders)
include wf keys

/-- An operand followed by an operator, or by nothing, is read as the exponent with its
sign. -/
theorem leadingAtomLength_operand (a : Operand) (known : a.atom.Known scope) {R : List Char}
    (after : OperatorAfter R) :
    leadingAtomLength scope w (a.text ++ R) = some a.text.length := by
  obtain ⟨sign, atom⟩ := a
  have signShape := signText_shape sign
  cases atom with
  | literal lit unsigned =>
    obtain ⟨c, r, start, digitOrPoint⟩ := unsigned.head
    have head : (lit ++ R).head? = some c := by simp [start]
    -- no name starts with a digit or a point, so the literal scan decides
    have noNames : (atomNames scope w).filter (·.isPrefixOf (lit ++ R)) = [] := by
      rw [List.filter_eq_nil_iff]
      intro name listed isPrefix
      rw [start, List.cons_append] at isPrefix
      exact not_prefix_literal wf keys listed digitOrPoint _
        (List.isPrefixOf_iff_prefix.mp isPrefix)
    have scanned : Literal.leadingLength (signText sign ++ lit ++ R) true =
        some (signText sign ++ lit).length := by
      rcases signShape with same | same | same <;> rw [same]
      · simpa using Literal.leadingLength_append unsigned after.stops true
      · simpa [Nat.add_comm] using
          Literal.leadingLength_sign_append (Or.inl rfl) unsigned after.stops
      · simpa [Nat.add_comm] using
          Literal.leadingLength_sign_append (Or.inr rfl) unsigned after.stops
    show leadingAtomLength scope w (signText sign ++ lit ++ R) = some (signText sign ++ lit).length
    rw [List.append_assoc,
      leadingAtomLength_signed sign head (isSignChar_eq_false_of_literalChar digitOrPoint),
      ← List.append_assoc, scanned, noNames]
    rfl
  | name n =>
    have named := identifier_of_knows wf known
    obtain ⟨first, rest, start, letter, -⟩ := (Text.isIdentifierChars_iff _).mp named
    have head : (n.toList ++ R).head? = some first := by simp [start]
    have word : Text.isWordChar first = true := by simp [Text.isWordChar, letter]
    have notPlus : first ≠ '+' := by
      rintro rfl
      exact absurd (Text.le_toNat_of_isAlphabetic letter) (by decide)
    have notMinus : first ≠ '-' := by
      rintro rfl
      exact absurd (Text.le_toNat_of_isAlphabetic letter) (by decide)
    have noLiteral : Literal.leadingLength (signText sign ++ (n.toList ++ R)) true = none := by
      rw [start, List.cons_append]
      exact Literal.leadingLength_eq_none signShape (Text.isDigit_eq_false_of_isAlphabetic letter)
        (Text.ne_point_of_isAlphabetic letter) notPlus notMinus _
    -- a name the text starts with ends before the operator after it
    have bound : ∀ l ∈ ((atomNames scope w).filter (·.isPrefixOf (n.toList ++ R))).map
        ((signText sign).length + ·.length), l ≤ (signText sign).length + n.toList.length := by
      intro l mem
      obtain ⟨m, inFilter, rfl⟩ := List.mem_map.mp mem
      obtain ⟨listed, isPrefix⟩ := List.mem_filter.mp inFilter
      have within := (prefix_of_operatorAfter after (atomNames_noOperator wf keys listed)
        (List.isPrefixOf_iff_prefix.mp isPrefix)).length_le
      omega
    have names : longest (((atomNames scope w).filter (·.isPrefixOf (n.toList ++ R))).map
        ((signText sign).length + ·.length)) = some ((signText sign).length + n.toList.length) :=
      longest_eq_some (List.mem_map.mpr ⟨n.toList, List.mem_filter.mpr
        ⟨mem_atomNames_of_knows wf w known, List.isPrefixOf_iff_prefix.mpr
          (List.prefix_append _ R)⟩, rfl⟩) bound
    show leadingAtomLength scope w (signText sign ++ n.toList ++ R) =
      some (signText sign ++ n.toList).length
    rw [List.append_assoc, leadingAtomLength_signed sign head
      (isSignChar_eq_false_of_isWordChar word), noLiteral, names, List.length_append]
    rfl

end Exponent

/-! ## One power -/

theorem resolvePowers_of_none {scope : Scope} {text : List Char}
    (noneFound : text.findIdx? (· == '^') = none) :
    resolvePowers scope text = pure text := by
  rw [resolvePowers]
  split
  · rfl
  · next found =>
    rw [noneFound] at found
    cases found

theorem resolvePowers_of_some {scope : Scope} {text : List Char} {pos : Nat}
    (found : text.findIdx? (· == '^') = some pos) :
    resolvePowers scope text = (do
      let w ← get
      match trailingAtomLength scope w (text.take pos),
          leadingAtomLength scope w (text.drop (pos + 1)) with
      | none, _ => unparseable text
      | some _, none => unparseable text
      | some baseLength, some exponentLength =>
        let base ← resolveLeaf scope ((text.take pos).drop (pos - baseLength))
        let exponent ← resolveLeaf scope ((text.drop (pos + 1)).take exponentLength)
        let n ← mint (.binary .pow base exponent)
        resolvePowers scope
          (Text.splice text (pos - baseLength) (pos + 1 + exponentLength) (placeholderText n))) := by
  rw [resolvePowers]
  split
  · next found' =>
    rw [found] at found'
    cases found'
  · next pos' found' =>
    rw [found] at found'
    cases found'
    rfl

/-- The first `^` of a text is folded: when its base `b` is what the text before it ends
with and its exponent `e` what the text after it starts with, the three become the next
placeholder, which holds the power of the two trees. -/
theorem resolvePowers_step {scope : Scope} {w w₁ w₂ : Workspace} {D b e R : List Char}
    {base exponent : Tree} (noCaret : '^' ∉ D ++ b)
    (trailing : trailingAtomLength scope w (D ++ b) = some b.length)
    (leading : leadingAtomLength scope w (e ++ R) = some e.length)
    (baseResolved : resolveLeaf scope b w = .ok (base, w₁))
    (exponentResolved : resolveLeaf scope e w₁ = .ok (exponent, w₂)) :
    resolvePowers scope (D ++ b ++ '^' :: (e ++ R)) w =
      resolvePowers scope (D ++ placeholderText (w₂.minted + 1) ++ R)
        { w₂ with minted := w₂.minted + 1,
                  pending := w₂.pending ++
                    [(placeholderText (w₂.minted + 1), .binary .pow base exponent)] } := by
  have found : (D ++ b ++ '^' :: (e ++ R)).findIdx? (· == '^') = some (D ++ b).length :=
    findIdx?_beq_append_cons noCaret _
  have head : (D ++ b ++ '^' :: (e ++ R)).take (D ++ b).length = D ++ b := List.take_left
  have tail : (D ++ b ++ '^' :: (e ++ R)).drop ((D ++ b).length + 1) = e ++ R := by
    rw [show D ++ b ++ '^' :: (e ++ R) = (D ++ b ++ ['^']) ++ (e ++ R) by simp,
      show (D ++ b).length + 1 = (D ++ b ++ ['^']).length by simp; omega, List.drop_left]
  have baseStart : (D ++ b).length - b.length = D.length := by simp
  have front : (D ++ b ++ '^' :: (e ++ R)).take D.length = D := by
    rw [List.append_assoc, List.take_left]
  have back : (D ++ b ++ '^' :: (e ++ R)).drop ((D ++ b).length + 1 + e.length) = R := by
    rw [show D ++ b ++ '^' :: (e ++ R) = (D ++ b ++ '^' :: e) ++ R by simp,
      show (D ++ b).length + 1 + e.length = (D ++ b ++ '^' :: e).length by simp; omega,
      List.drop_left]
  have spliced : Text.splice (D ++ b ++ '^' :: (e ++ R)) D.length
      ((D ++ b).length + 1 + e.length) (placeholderText (w₂.minted + 1)) =
      D ++ placeholderText (w₂.minted + 1) ++ R := by
    rw [Text.splice, front, back]
  rw [resolvePowers_of_some found, Resolve.bind_of_ok (Resolve.get_apply w)]
  simp only [head, tail, trailing, leading]
  rw [baseStart, List.drop_left, List.take_left, Resolve.bind_of_ok baseResolved,
    Resolve.bind_of_ok exponentResolved, Resolve.bind_of_ok rfl, spliced]

/-! ## The placeholders of the power pass -/

/-- Every pending placeholder has been minted already: its number is at most the count. -/
def Workspace.Fresh (w : Workspace) : Prop :=
  ∀ entry ∈ w.pending, ∃ k, k ≤ w.minted ∧ entry.1 = placeholderText k

theorem Workspace.Fresh.of_pending {w w' : Workspace} (fresh : w.Fresh)
    (samePending : w'.pending = w.pending) (sameCount : w'.minted = w.minted) : w'.Fresh := by
  intro entry pending
  rw [samePending] at pending
  rw [sameCount]
  exact fresh entry pending

theorem placeholderText_injective {m n : Nat} (same : placeholderText m = placeholderText n) :
    m = n :=
  eq_of_placeholderText_suffix (show placeholderText m <:+ [] ++ placeholderText n by
    simp only [List.nil_append, same, List.suffix_refl])

/-- Minting keeps every pending placeholder numbered within the counter. -/
theorem Workspace.Fresh.mint {w : Workspace} (fresh : w.Fresh) (t : Tree) :
    Workspace.Fresh { w with minted := w.minted + 1,
                             pending := w.pending ++ [(placeholderText (w.minted + 1), t)] } := by
  intro entry mem
  rcases List.mem_append.mp mem with old | new
  · obtain ⟨k, bounded, isKey⟩ := fresh entry old
    exact ⟨k, Nat.le_succ_of_le bounded, isKey⟩
  · rw [List.mem_singleton.mp new]
    exact ⟨_, Nat.le_refl _, rfl⟩

/-- A new placeholder is numbered apart from the pending ones. -/
theorem Workspace.Fresh.nodup_mint {w : Workspace} (fresh : w.Fresh)
    (distinct : (w.pending.map (·.1)).Nodup) (t : Tree) :
    ((w.pending ++ [(placeholderText (w.minted + 1), t)]).map (·.1)).Nodup := by
  rw [List.map_append, List.nodup_append]
  refine ⟨distinct, by simp, ?_⟩
  intro key old newKey new same
  obtain ⟨entry, pending, rfl⟩ := List.mem_map.mp old
  obtain ⟨k, bounded, isKey⟩ := fresh entry pending
  rw [List.map_singleton, List.mem_singleton] at new
  rw [isKey, new] at same
  have := placeholderText_injective same
  omega

/-- Minting appends the new placeholder, under a number not used before, to the pending
ones. -/
theorem Workspace.Holds.mint {w : Workspace} {entries : List (List Char × Tree)}
    (holds : w.Holds entries) (fresh : w.Fresh) (t : Tree) :
    Workspace.Holds { w with minted := w.minted + 1,
                             pending := w.pending ++ [(placeholderText (w.minted + 1), t)] }
      (entries ++ [(placeholderText (w.minted + 1), t.eraseLeaves)]) ∧
    Workspace.Fresh { w with minted := w.minted + 1,
                             pending := w.pending ++ [(placeholderText (w.minted + 1), t)] } := by
  refine ⟨⟨?_, fresh.nodup_mint holds.distinct t, ?_⟩, fresh.mint t⟩
  · intro entry mem
    rcases List.mem_append.mp mem with old | new
    · exact holds.keys entry old
    · rw [List.mem_singleton.mp new]
      exact ⟨_, rfl⟩
  · rw [List.map_append, holds.held]
    rfl

/-- The placeholder minted last, as the base of the next power, resolves to its tree and
leaves the placeholders before it pending. -/
theorem resolveLeaf_last {scope : Scope} {w : Workspace} {entries : List (List Char × Tree)}
    {n : Nat} {t : Tree} (holds : w.Holds (entries ++ [(placeholderText n, t)]))
    (fresh : w.Fresh) :
    ∃ stored w', resolveLeaf scope (placeholderText n) w = .ok (stored, w') ∧
      stored.eraseLeaves = t ∧ w'.Holds entries ∧ w'.Fresh ∧ w'.minted = w.minted := by
  obtain ⟨P, L, same, earlier, lastHeld⟩ := List.map_eq_append_iff.mp holds.held
  obtain ⟨⟨key, stored⟩, rfl, lastEntry⟩ := List.map_eq_singleton_iff.mp lastHeld
  obtain ⟨rfl, erased⟩ := Prod.mk.inj lastEntry
  have distinct := holds.distinct
  rw [same, List.map_append, List.nodup_append] at distinct
  have notEarlier : ∀ entry ∈ P, entry.1 ≠ placeholderText n := fun entry mem isKey =>
    distinct.2.2 entry.1 (List.mem_map_of_mem mem) _ (by simp) isKey
  have holding : w.pending.find? (·.1 == placeholderText n) = some (placeholderText n, stored) := by
    rw [same, List.find?_append, List.find?_eq_none.mpr (by simpa using notEarlier)]
    simp
  have remaining : w.pending.filter (·.1 != placeholderText n) = P := by
    rw [same, List.filter_append, List.filter_eq_self.mpr (by simpa using notEarlier)]
    simp
  refine ⟨stored, _, resolveLeaf_held holds.keys none holding, erased, ⟨?_, ?_, ?_⟩, ?_, rfl⟩
  · intro entry mem
    exact holds.keys entry (List.mem_filter.mp mem).1
  · show (List.map (·.1) (w.pending.filter (·.1 != placeholderText n))).Nodup
    rw [remaining]
    exact distinct.1
  · simpa [remaining] using earlier
  · intro entry mem
    exact fresh entry (List.mem_filter.mp mem).1

/-- One power: a base that resolves to `t` and a known operand after `^` become one new
placeholder holding `t ^ e`, pending after the others. -/
theorem resolvePowers_power {scope : Scope} (wf : scope.WellFormed) {w w₁ : Workspace}
    (keys : w.Placeholders) {D b R : List Char} {base t : Tree} {entries : List (List Char × Tree)}
    (noCaret : '^' ∉ D ++ b) (trailing : trailingAtomLength scope w (D ++ b) = some b.length)
    (baseResolved : resolveLeaf scope b w = .ok (base, w₁)) (baseTree : base.eraseLeaves = t)
    (holds : w₁.Holds entries) (fresh : w₁.Fresh) (e : Operand) (known : e.atom.Known scope)
    (after : OperatorAfter R) :
    ∃ n w', resolvePowers scope (D ++ b ++ '^' :: (e.text ++ R)) w =
        resolvePowers scope (D ++ placeholderText n ++ R) w' ∧
      w'.Holds (entries ++ [(placeholderText n, .binary .pow t (e.tree scope))]) ∧ w'.Fresh := by
  obtain ⟨power, w₂, exponentResolved, exponentTree, pending₂, minted₂⟩ :=
    resolveLeaf_operand wf holds.keys e known
  have step := resolvePowers_step noCaret trailing (leadingAtomLength_operand wf keys e known after)
    baseResolved exponentResolved
  obtain ⟨holds₃, fresh₃⟩ := (holds.of_pending pending₂).mint (fresh.of_pending pending₂ minted₂)
    (.binary .pow base power)
  rw [show Tree.eraseLeaves (.binary .pow base power) = .binary .pow t (e.tree scope) by
    simp [Tree.eraseLeaves, baseTree, exponentTree]] at holds₃
  exact ⟨_, _, step, holds₃, fresh₃⟩

/-! ## A run of powers -/

/-- After the exponents of a run comes an operator, or nothing. -/
theorem operatorAfter_exponents (exponents : List (BinaryOp × Operand)) {R : List Char}
    (after : OperatorAfter R) :
    OperatorAfter (exponents.flatMap (fun entry => entry.1.symbol :: entry.2.text) ++ R) := by
  cases exponents with
  | nil => simpa using after
  | cons entry rest => exact OperatorAfter.cons entry.1.isOperatorChar_symbol _

/-- The later powers of a run: the placeholder minted last is the base of the next `^`, so
the exponents are folded into it one after another, to the left. -/
theorem resolvePowers_exponents {scope : Scope} (wf : scope.WellFormed) {D R : List Char}
    (noCaret : '^' ∉ D) (after : OperatorAfter R) (exponents : List (BinaryOp × Operand))
    (powers : ∀ e ∈ exponents, e.1 = .pow) (known : ∀ e ∈ exponents, e.2.atom.Known scope)
    {w : Workspace} {entries : List (List Char × Tree)} {n : Nat} {t : Tree}
    (holds : w.Holds (entries ++ [(placeholderText n, t)])) (fresh : w.Fresh) :
    ∃ m w', resolvePowers scope (D ++ placeholderText n ++
          (exponents.flatMap (fun entry => entry.1.symbol :: entry.2.text) ++ R)) w =
        resolvePowers scope (D ++ placeholderText m ++ R) w' ∧
      w'.Holds (entries ++ [(placeholderText m, exponents.foldl
        (fun acc entry => .binary .pow acc (entry.2.tree scope)) t)]) ∧ w'.Fresh := by
  induction exponents generalizing n t w with
  | nil => exact ⟨n, w, rfl, holds, fresh⟩
  | cons entry rest inductionHypothesis =>
    obtain ⟨op, e⟩ := entry
    have knownE := known (op, e) List.mem_cons_self
    obtain rfl : op = .pow := powers (op, e) List.mem_cons_self
    have pending : placeholderText n ∈ w.pending.map (·.1) := by
      have listed := congrArg (List.map (·.1)) holds.held
      simp only [List.map_map, List.map_append, List.map_cons, List.map_nil] at listed
      rw [show ((·.1) ∘ fun entry : List Char × Tree => (entry.1, entry.2.eraseLeaves)) = (·.1)
        from rfl] at listed
      rw [listed]
      simp
    have noCaretHere : '^' ∉ D ++ placeholderText n := by
      intro mem
      rcases List.mem_append.mp mem with inD | inPlaceholder
      · exact noCaret inD
      · exact absurd (noOperator_placeholderText n '^' inPlaceholder) (by decide)
    -- the placeholder is the base of the power with the exponent after it
    obtain ⟨stored, w₁, baseResolved, storedTree, holds₁, fresh₁, -⟩ := resolveLeaf_last holds fresh
    obtain ⟨_, _, step, holds₃, fresh₃⟩ := resolvePowers_power wf holds.keys noCaretHere
      (trailingAtomLength_placeholder wf holds.keys pending D) baseResolved storedTree holds₁ fresh₁
      e knownE (operatorAfter_exponents rest after)
    obtain ⟨m, w', rest', heldRest, freshRest⟩ := inductionHypothesis
      (fun entry mem => powers entry (List.mem_cons_of_mem _ mem))
      (fun entry mem => known entry (List.mem_cons_of_mem _ mem)) holds₃ fresh₃
    refine ⟨m, w', ?_, heldRest, freshRest⟩
    rw [← rest', ← step]
    simp [BinaryOp.symbol]

/-- The item a run of powers becomes: a lone operand stays as it is, a run with exponents
becomes a placeholder after the sign of its base. -/
def Item.Folds (x : Item) (r : Chain Operand) : Prop :=
  (r.rest = [] ∧ x = .operand r.first) ∨ (r.rest ≠ [] ∧ ∃ n t, x = .held r.first.sign n t)

/-- The base of a run with exponents is read as written: no nonempty end of the text before
the base, joined to the base, is an unsigned literal. -/
def SafeBefore (D : List Char) (r : Chain Operand) : Prop :=
  r.rest ≠ [] → ∀ lit unsigned, r.first.atom = .literal lit unsigned →
    ∀ front, front ≠ [] → front <:+ D ++ signText r.first.sign →
      Literal.isLiteral (front ++ lit) false = false

/-- A run of powers `u₀ ^ s₁ ^ … ^ sₖ` with a sign in front becomes the sign and one
placeholder holding `((u₀ ^ s₁) ^ s₂) …`; a lone operand stays. -/
theorem resolvePowers_run {scope : Scope} (wf : scope.WellFormed) (r : Chain Operand)
    (powers : ∀ e ∈ r.rest, e.1 = .pow) (known : ∀ a ∈ r.pieces, a.atom.Known scope)
    {D R : List Char} (boundary : OperatorBefore D) (noCaret : '^' ∉ D) (safe : SafeBefore D r)
    (after : OperatorAfter R) {w : Workspace} {entries : List (List Char × Tree)}
    (holds : w.Holds entries) (fresh : w.Fresh) :
    ∃ (x : Item) (w' : Workspace), resolvePowers scope (D ++ Chain.text Operand.text r ++ R) w =
        resolvePowers scope (D ++ x.text ++ R) w' ∧
      x.Folds r ∧ x.tree scope = runTree scope r ∧ x.Known scope ∧
      w'.Holds (entries ++ x.entries) ∧ w'.Fresh := by
  obtain ⟨⟨sign, atom⟩, rest⟩ := r
  have knownBase : atom.Known scope := known _ List.mem_cons_self
  cases rest with
  | nil =>
    refine ⟨.operand ⟨sign, atom⟩, w, by simp [Chain.text, Item.text], Or.inl ⟨rfl, rfl⟩, rfl,
      knownBase, by simpa [Item.entries] using holds, fresh⟩
  | cons entry exponents =>
    obtain ⟨op, e⟩ := entry
    have knownE : e.atom.Known scope := known e (by simp [Chain.pieces])
    have knownExponents : ∀ entry ∈ exponents, entry.2.atom.Known scope := fun entry mem =>
      known entry.2 (by simp [Chain.pieces, List.mem_map_of_mem mem])
    have powersLater : ∀ entry ∈ exponents, entry.1 = .pow := fun entry mem =>
      powers entry (List.mem_cons_of_mem _ mem)
    obtain rfl : op = .pow := powers (op, e) List.mem_cons_self
    have boundaryBase : OperatorBefore (D ++ signText sign) :=
      boundary.append (OperatorBefore.signText sign)
    have noCaretFront : '^' ∉ D ++ signText sign := by
      intro mem
      rcases List.mem_append.mp mem with inD | inSign
      · exact noCaret inD
      · rcases signText_shape sign with same | same | same <;> simp [same] at inSign
    -- the first power: the written atom is its base
    have namedBase : (Item.operand ⟨none, atom⟩).Named := Item.named_of_known wf knownBase
    have noCaretAtom : '^' ∉ (Item.operand ⟨none, atom⟩).text :=
      Item.not_mem_text namedBase (Or.inr (Or.inr (Or.inl rfl)))
    have noCaretBase : '^' ∉ D ++ signText sign ++ atom.text := by
      intro mem
      rcases List.mem_append.mp mem with inFront | inAtom
      · exact noCaretFront inFront
      · exact noCaretAtom inAtom
    have trailing : trailingAtomLength scope w (D ++ signText sign ++ atom.text) =
        some atom.text.length := by
      cases atom with
      | literal lit unsigned =>
        exact trailingAtomLength_literal wf holds.keys unsigned boundaryBase
          (safe (by simp) lit unsigned rfl)
      | name n => exact trailingAtomLength_name wf holds.keys knownBase boundaryBase
    obtain ⟨base, w₁, baseResolved, baseTree, pending₁, minted₁⟩ :=
      resolveLeaf_operand wf holds.keys ⟨none, atom⟩ knownBase
    obtain ⟨_, _, step, holds₃, fresh₃⟩ := resolvePowers_power wf holds.keys noCaretBase trailing
      baseResolved baseTree (holds.of_pending pending₁) (fresh.of_pending pending₁ minted₁) e knownE
      (operatorAfter_exponents exponents after)
    -- the later powers fold into the placeholder
    obtain ⟨m, w', later, heldAll, freshAll⟩ :=
      resolvePowers_exponents wf noCaretFront after exponents powersLater knownExponents
        holds₃ fresh₃
    refine ⟨.held sign m _, w', ?_, Or.inr ⟨by simp, m, _, rfl⟩, rfl, trivial, heldAll, freshAll⟩
    calc resolvePowers scope (D ++ Chain.text Operand.text ⟨⟨sign, atom⟩, (.pow, e) :: exponents⟩ ++ R) w
        = resolvePowers scope (D ++ signText sign ++ atom.text ++ '^' :: (e.text ++
            (exponents.flatMap (fun entry => entry.1.symbol :: entry.2.text) ++ R))) w := by
          simp [Chain.text, Operand.text, BinaryOp.symbol]
      _ = _ := step
      _ = resolvePowers scope (D ++ signText sign ++ placeholderText m ++ R) w' := later
      _ = _ := by simp [Item.text]

/-! ## The misread base -/

/-- The power scanner's misreading: the base of a power is an unsigned literal of digits
alone, after `+` or `-` and a lone name that ends in a mantissa and an exponent marker, as in
`x1e-5^2`. Read from its end, `1e-5` is one literal, so the scanner takes it for the base. -/
def Misread (before : Chain Operand) (op : BinaryOp) (after : Chain Operand) : Prop :=
  before.rest = [] ∧ op.isAdditive = true ∧ after.rest ≠ [] ∧ after.first.sign = none ∧
    (∃ lit unsigned, after.first.atom = .literal lit unsigned ∧ Literal.Digits lit) ∧
    ∃ name, before.first.atom = .name name ∧
      ∃ X M marker, name.toList = X ++ M ++ [marker] ∧ Literal.Mantissa M ∧
        (marker = 'e' ∨ marker = 'E')

/-- Two pieces stand next to each other in a chain, with an operator between them. -/
def Chain.Adjacent {α : Type} (c : Chain α) (x : α) (op : BinaryOp) (y : α) : Prop :=
  ∃ i : Nat, c.pieces[i]? = some x ∧ c.rest[i]? = some (op, y)

theorem Chain.adjacent_head {α : Type} (x y : α) (op : BinaryOp) (rest : List (BinaryOp × α)) :
    (Chain.mk x ((op, y) :: rest)).Adjacent x op y := ⟨0, rfl, rfl⟩

theorem Chain.adjacent_tail {α : Type} {x y a b : α} {op o : BinaryOp}
    {rest : List (BinaryOp × α)} (adjacent : (Chain.mk y rest).Adjacent a o b) :
    (Chain.mk x ((op, y) :: rest)).Adjacent a o b := by
  obtain ⟨i, piece, entry⟩ := adjacent
  refine ⟨i + 1, ?_, by simpa using entry⟩
  rw [Chain.pieces_cons]
  exact piece

/-- A literal that goes on after an operator is the operator as an exponent sign, after a
mantissa and a marker, and digits. -/
theorem literal_after_operator {front lit : List Char} (nonempty : front ≠ [])
    (operator : ∀ c, front.getLast? = some c → isOperatorChar c = true)
    (literal : Literal.isLiteral (front ++ lit) false = true) :
    ∃ M marker o, front = M ++ [marker] ++ [o] ∧ (o = '+' ∨ o = '-') ∧ Literal.Digits lit ∧
      (marker = 'e' ∨ marker = 'E') ∧ Literal.Mantissa M := by
  obtain ⟨A, o, rfl⟩ := (List.eq_nil_or_concat front).resolve_left nonempty
  have unsigned := Literal.unsigned_of_isLiteral literal
  rw [List.concat_eq_append, List.append_assoc, List.singleton_append] at unsigned
  obtain ⟨sign, digits, M, marker, rfl, isMarker, mantissa⟩ :=
    Literal.sign_of_unsigned (operator o (by simp)) unsigned
  exact ⟨M, marker, o, by simp, sign, digits, isMarker, mantissa⟩

/-- A text that ends with a character ends with a part that ends with it. -/
theorem suffix_concat {A T : List Char} {o c : Char} (suffix : A ++ [o] <:+ T ++ [c]) :
    o = c ∧ A <:+ T := by
  obtain ⟨pre, same⟩ := suffix
  rw [← List.append_assoc] at same
  obtain ⟨front, last⟩ := List.append_inj' same rfl
  exact ⟨List.singleton_inj.mp last, pre, front⟩

/-- A nonempty end of a text ends with the text's last character. -/
theorem getLast?_of_suffix {front T : List Char} (nonempty : front ≠ []) (suffix : front <:+ T) :
    front.getLast? = T.getLast? := by
  obtain ⟨pre, rfl⟩ := suffix
  obtain ⟨A, o, rfl⟩ := (List.eq_nil_or_concat front).resolve_left nonempty
  simp

/-- At the start of the text a literal base is read as written: a sign in front of it cannot
continue it. -/
theorem safeBefore_nil (r : Chain Operand) : SafeBefore [] r := by
  intro _ lit unsigned _ front nonempty suffix
  cases literal : Literal.isLiteral (front ++ lit) false with
  | false => rfl
  | true =>
    exfalso
    have boundary : OperatorBefore ([] ++ signText r.first.sign) :=
      OperatorBefore.nil.append (OperatorBefore.signText _)
    obtain ⟨M, marker, o, rfl, -, -, -, mantissa⟩ := literal_after_operator nonempty
      (fun c last => boundary c (getLast?_of_suffix nonempty suffix ▸ last)) literal
    -- the front would be longer than the sign it is the end of
    have short := suffix.length_le
    have signLength : (signText r.first.sign).length ≤ 1 := by
      cases r.first.sign <;> simp [signText]
    obtain ⟨d, rest, rfl, -⟩ := mantissa.head
    simp only [List.length_append, List.length_cons, List.length_nil, List.nil_append] at short
    omega

/-- The characters of literals are no operators. -/
theorem noOperator_of_literalChars {m : List Char}
    (chars : ∀ c ∈ m, Decimal.isDigit c = true ∨ c = '.' ∨ c = 'e' ∨ c = 'E') : NoOperator m := by
  intro c mem
  cases operator : isOperatorChar c with
  | false => rfl
  | true =>
    obtain ⟨notDigit, notPoint, notSmall, notCapital⟩ :=
      Literal.literalChars_of_isOperatorChar operator
    rcases chars c mem with digit | point | small | capital
    · rw [notDigit] at digit
      cases digit
    · exact absurd point notPoint
    · exact absurd small notSmall
    · exact absurd capital notCapital

/-- After an item and an operator, a literal base is read as written, unless the item's run,
the operator and the base's run are misread. -/
theorem safeBefore_next {D : List Char} (boundary : OperatorBefore D) {first r : Chain Operand}
    {x : Item} (folds : x.Folds first) (named : x.Named) {op : BinaryOp}
    (readable : ¬Misread first op r) : SafeBefore (D ++ x.text ++ [op.symbol]) r := by
  intro hasExponents lit unsigned literalBase front nonempty suffix
  cases literal : Literal.isLiteral (front ++ lit) false with
  | false => rfl
  | true =>
    exfalso
    have boundaryAll : OperatorBefore (D ++ x.text ++ [op.symbol] ++ signText r.first.sign) :=
      (OperatorBefore.concat _ op.isOperatorChar_symbol).append (OperatorBefore.signText _)
    obtain ⟨M, marker, o, rfl, sign, digits, isMarker, mantissa⟩ := literal_after_operator nonempty
      (fun c last => boundaryAll c (getLast?_of_suffix nonempty suffix ▸ last)) literal
    -- the exponent sign is the operator after the item: before a sign of the base's own, the
    -- operator would have to be the exponent marker
    have unsignedBase : r.first.sign = none := by
      cases ownSign : r.first.sign with
      | none => rfl
      | some s =>
        rw [ownSign] at suffix
        obtain ⟨-, beforeSign⟩ := suffix_concat suffix
        obtain ⟨markerIsOperator, -⟩ := suffix_concat beforeSign
        rcases isMarker with rfl | rfl <;> cases op <;> exact absurd markerIsOperator (by decide)
    rw [unsignedBase, signText, List.append_nil] at suffix
    obtain ⟨rfl, ending⟩ := suffix_concat suffix
    have additive : op.isAdditive = true := by
      cases op with
      | add | sub => rfl
      | mul | div | pow => rcases sign with same | same <;> exact absurd same (by decide)
    -- so the item ends with the exponent marker
    obtain ⟨p, lastItem, -⟩ := x.getLast?_text named
    have whole := getLast?_of_suffix (by simp) ending
    rw [List.getLast?_concat, List.getLast?_append, lastItem, Option.some_or] at whole
    obtain rfl := Option.some.inj whole
    obtain ⟨⟨s', atom'⟩, firstRest⟩ := first
    rcases folds with ⟨lone, rfl⟩ | ⟨-, n, t, rfl⟩
    · cases atom' with
      | literal lit' unsigned' =>
        -- a literal ends with a digit or a point
        obtain ⟨q, lastLiteral, digitOrPoint⟩ := getLast?_signed_literal s' unsigned'
        have lastMarker : (signText s' ++ lit').getLast? = some marker := lastItem
        rw [lastLiteral] at lastMarker
        obtain rfl := Option.some.inj lastMarker
        rcases digitOrPoint with digit | point
        · rcases isMarker with rfl | rfl <;> exact absurd digit (by decide)
        · rcases isMarker with rfl | rfl <;> exact absurd point (by decide)
      | name n =>
        -- a name: the mantissa and the marker are its end, and the run is misread
        have plain : NoOperator (M ++ [marker]) := by
          apply noOperator_of_literalChars
          intro c mem
          rcases List.mem_append.mp mem with inMantissa | isLast
          · rcases mantissa.mem inMantissa with digit | point
            · exact Or.inl digit
            · exact Or.inr (Or.inl point)
          · rw [List.mem_singleton.mp isLast]
            rcases isMarker with rfl | rfl
            · exact Or.inr (Or.inr (Or.inl rfl))
            · exact Or.inr (Or.inr (Or.inr rfl))
        have inName : M ++ [marker] <:+ n.toList := by
          apply suffix_of_operatorBefore (boundary.append (OperatorBefore.signText s')) plain
          simpa [Item.text, Operand.text, Atom.text] using ending
        obtain ⟨X, named⟩ := inName
        exact readable ⟨lone, additive, hasExponents, unsignedBase,
          ⟨lit, unsigned, literalBase, digits⟩, n, rfl, X, M, marker,
          by rw [← named, List.append_assoc], mantissa, isMarker⟩
    · rw [Item.text, getLast?_append_placeholderText] at lastItem
      obtain rfl := Option.some.inj lastItem
      rcases isMarker with same | same <;> exact absurd same (by decide)

/-! ## All the runs of a formula -/

/-- The power pass over a chain of runs: from the left, each run becomes its item, and the
placeholders of the runs with exponents are pending in their order. -/
theorem resolvePowers_runs {scope : Scope} (wf : scope.WellFormed)
    (rest : List (BinaryOp × Chain Operand)) (first : Chain Operand)
    (powers : ∀ r ∈ (Chain.mk first rest).pieces, ∀ e ∈ r.rest, e.1 = .pow)
    (separated : ∀ e ∈ rest, e.1 ≠ .pow)
    (known : ∀ r ∈ (Chain.mk first rest).pieces, ∀ a ∈ r.pieces, a.atom.Known scope)
    (readable : ∀ before op after, (Chain.mk first rest).Adjacent before op after →
      ¬Misread before op after)
    {D : List Char} (boundary : OperatorBefore D) (noCaret : '^' ∉ D) (safe : SafeBefore D first)
    {w : Workspace} {entries : List (List Char × Tree)} (holds : w.Holds entries)
    (fresh : w.Fresh) :
    ∃ (items : Chain Item) (w' : Workspace),
      resolvePowers scope (D ++ Chain.text (Chain.text Operand.text) ⟨first, rest⟩) w =
        resolvePowers scope (D ++ Chain.text Item.text items) w' ∧
      items.map (Item.tree scope) = (Chain.mk first rest).map (runTree scope) ∧
      (∀ x ∈ items.pieces, x.Known scope) ∧
      w'.Holds (entries ++ items.pieces.flatMap Item.entries) := by
  induction rest generalizing first D w entries with
  | nil =>
    obtain ⟨x, w', resolved, -, tree, knownX, holds', -⟩ := resolvePowers_run wf first
      (powers first List.mem_cons_self) (known first List.mem_cons_self) boundary noCaret safe
      OperatorAfter.nil holds fresh
    refine ⟨⟨x, []⟩, w', ?_, by simp [Chain.map, tree], by simpa [Chain.pieces] using knownX,
      by simpa [Chain.pieces] using holds'⟩
    simpa [Chain.text] using resolved
  | cons entry rest inductionHypothesis =>
    obtain ⟨op, r⟩ := entry
    have notPow : op ≠ .pow := separated (op, r) List.mem_cons_self
    -- the first run becomes its item
    obtain ⟨x, w₁, resolvedFirst, folds, tree, knownX, holds₁, fresh₁⟩ := resolvePowers_run wf
      first (powers first List.mem_cons_self) (known first List.mem_cons_self) boundary noCaret
      safe (OperatorAfter.cons op.isOperatorChar_symbol
        (Chain.text (Chain.text Operand.text) ⟨r, rest⟩)) holds fresh
    have namedX := Item.named_of_known wf knownX
    -- the rest of the runs follow the item and the operator
    have noCaretNext : '^' ∉ D ++ x.text ++ [op.symbol] := by
      intro mem
      simp only [List.mem_append, List.mem_singleton] at mem
      rcases mem with (inD | inItem) | isOperator
      · exact noCaret inD
      · exact Item.not_mem_text namedX (Or.inr (Or.inr (Or.inl rfl))) inItem
      · cases op with
        | pow => exact notPow rfl
        | add | sub | mul | div => exact absurd isOperator (by decide)
    obtain ⟨items, w', resolvedRest, trees, knownItems, holds'⟩ := inductionHypothesis r
      (fun q mem => powers q (by rw [Chain.pieces_cons]; exact List.mem_cons_of_mem _ mem))
      (fun e mem => separated e (List.mem_cons_of_mem _ mem))
      (fun q mem => known q (by rw [Chain.pieces_cons]; exact List.mem_cons_of_mem _ mem))
      (fun before o after adjacent => readable before o after (Chain.adjacent_tail adjacent))
      (OperatorBefore.concat _ op.isOperatorChar_symbol) noCaretNext
      (safeBefore_next boundary folds namedX (readable first op r (Chain.adjacent_head _ _ _ _)))
      holds₁ fresh₁
    refine ⟨⟨x, (op, items.first) :: items.rest⟩, w', ?_, ?_, ?_, ?_⟩
    · calc resolvePowers scope (D ++ Chain.text (Chain.text Operand.text) ⟨first, (op, r) :: rest⟩) w
          = resolvePowers scope (D ++ Chain.text Operand.text first ++
              op.symbol :: Chain.text (Chain.text Operand.text) ⟨r, rest⟩) w := by
            rw [Chain.text_cons, List.append_assoc]
        _ = resolvePowers scope (D ++ x.text ++
              op.symbol :: Chain.text (Chain.text Operand.text) ⟨r, rest⟩) w₁ := resolvedFirst
        _ = resolvePowers scope (D ++ x.text ++ [op.symbol] ++
              Chain.text (Chain.text Operand.text) ⟨r, rest⟩) w₁ := by simp
        _ = resolvePowers scope (D ++ x.text ++ [op.symbol] ++ Chain.text Item.text items) w' :=
            resolvedRest
        _ = resolvePowers scope
              (D ++ Chain.text Item.text ⟨x, (op, items.first) :: items.rest⟩) w' := by
            rw [Chain.text_cons]
            simp
    · simp only [Chain.map, List.map_cons, Chain.mk.injEq] at trees ⊢
      exact ⟨tree, by rw [trees.1, trees.2]⟩
    · intro y mem
      rw [Chain.pieces_cons] at mem
      rcases List.mem_cons.mp mem with rfl | later
      · exact knownX
      · exact knownItems y later
    · rw [Chain.pieces_cons, List.flatMap_cons, ← List.append_assoc]
      exact holds'

end ComplexFormula
