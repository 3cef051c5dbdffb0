import ComplexFormula.Proofs.Formula
import ComplexFormula.Proofs.Occurrences
import ComplexFormula.Proofs.Characters
import ComplexFormula.Compile

/-!
# Resolving a single operand

A span without operators other than a leading sign is resolved by `resolveLeaf`. This
module computes the result on the spans a formula leaves between its operators:

* a signed literal is one constant (`resolveLeaf_literal`);
* a name, with or without a sign, is the name's tree, times the sign's factor
  (`resolveLeaf_name`): the search for an entity finds the name itself, because no constant
  stands inside a variable's name unless enclosed by it, and no name can start at the sign;
* a placeholder with an optional sign in front is the subtree it holds, times the sign's
  factor, and the placeholder is taken out of the pending ones (`resolveLeaf_held`).

These rest on the names of the scope being names: `Scope.WellFormed` says so, and the checks
that compilation makes before resolving establish it (`Compiler.wellFormed_of_checks`).
-/

namespace ComplexFormula

variable {α β : Type}

/-! ## Running resolvers -/

theorem Resolve.pure_apply (a : α) (w : Workspace) : (pure a : Resolve α) w = .ok (a, w) := rfl

theorem Resolve.get_apply (w : Workspace) : (get : Resolve Workspace) w = .ok (w, w) := rfl

/-- A step that succeeds hands its value and state to the rest. -/
theorem Resolve.bind_of_ok {x : Resolve α} {f : α → Resolve β} {w w' : Workspace} {a : α}
    (first : x w = .ok (a, w')) : (x >>= f) w = f a w' := by
  show (x w >>= fun p => f p.1 p.2) = _
  rw [first]
  rfl

/-! ## Scopes whose names are names -/

/-- The names of a scope are names, and no declared variable is a constant. -/
structure Scope.WellFormed (scope : Scope) : Prop where
  constantsNamed : ∀ name ∈ scope.constants.names, Text.isIdentifier name = true
  variablesNamed : ∀ name ∈ scope.variableNames, Text.isIdentifier name = true
  variablesFree : ∀ name ∈ scope.variableNames, scope.constants.contains name = false

theorem ConstantTable.contains_iff (table : ConstantTable) (name : String) :
    table.contains name = true ↔ name ∈ table.names := by
  simp [ConstantTable.contains, ConstantTable.names]

theorem ConstantTable.find?_of_mem {table : ConstantTable} {name : String}
    (mem : name ∈ table.names) : ∃ value, table.find? name = some value := by
  unfold ConstantTable.names at mem
  obtain ⟨entry, listed, rfl⟩ := List.mem_map.mp mem
  cases found : table.entries.find? (·.1 == entry.1) with
  | none =>
    have := List.find?_eq_none.mp found entry listed
    simp at this
  | some other => exact ⟨other.2, by simp [ConstantTable.find?, found]⟩

theorem ConstantTable.find?_eq_none {table : ConstantTable} {name : String}
    (absent : table.contains name = false) : table.find? name = none := by
  unfold ConstantTable.find?
  rw [Option.map_eq_none_iff, List.find?_eq_none]
  intro entry listed same
  have : table.contains name = true := by
    simp only [ConstantTable.contains, List.any_eq_true]
    exact ⟨entry, listed, same⟩
  rw [absent] at this
  cases this

/-- The least of some names exists when there are names. -/
theorem Compiler.leastName?_eq_none {names : List String} (none_found : Compiler.leastName? names = none) :
    names = [] := by
  cases names with
  | nil => rfl
  | cons first rest =>
    exfalso
    simp only [Compiler.leastName?, List.foldl_cons] at none_found
    -- once a name is held, the fold keeps holding one
    induction rest generalizing first with
    | nil => simp at none_found
    | cons name more inductionHypothesis =>
      simp only [List.foldl_cons] at none_found
      split at none_found <;> exact inductionHypothesis _ none_found

/-- A constant table that passes the check holds names only. -/
theorem Compiler.constantsNamed_of_check {table : ConstantTable}
    (checked : Compiler.checkConstants table = .ok ()) :
    ∀ name ∈ table.names, Text.isIdentifier name = true := by
  intro name mem
  unfold Compiler.checkConstants at checked
  split at checked
  · cases checked
  · next none_found =>
    have empty := Compiler.leastName?_eq_none none_found
    cases named : Text.isIdentifier name with
    | true => rfl
    | false =>
      have : name ∈ table.names.filter fun name => !Text.isIdentifier name := by
        simp [mem, named]
      rw [empty] at this
      cases this

/-- A property that every step of a fold keeps, on the items of the list, holds of what the
fold returns. -/
theorem Except.foldlM_invariant_of_mem {ε σ γ : Type} (P : σ → Prop)
    {f : σ → γ → Except ε σ} {init result : σ} {xs : List γ} (start : P init)
    (step : ∀ acc x next, x ∈ xs → P acc → f acc x = .ok next → P next)
    (done : xs.foldlM f init = .ok result) : P result := by
  induction xs generalizing init with
  | nil =>
    cases done
    exact start
  | cons x more inductionHypothesis =>
    rw [List.foldlM_cons] at done
    cases stepped : f init x with
    | error e =>
      rw [stepped] at done
      cases done
    | ok next =>
      rw [stepped] at done
      exact inductionHypothesis (step init x next List.mem_cons_self start stepped)
        (fun acc y after listed => step acc y after (List.mem_cons_of_mem x listed)) done

/-- A property that every step of a fold keeps holds of what the fold returns. -/
theorem Except.foldlM_invariant {ε σ γ : Type} (P : σ → Prop) {f : σ → γ → Except ε σ}
    {init result : σ} {xs : List γ} (start : P init)
    (step : ∀ acc x next, P acc → f acc x = .ok next → P next)
    (done : xs.foldlM f init = .ok result) : P result :=
  Except.foldlM_invariant_of_mem P start (fun acc x next _ => step acc x next) done

/-- The declared variables that the check accepts are names and no constant's. -/
theorem Compiler.declared_of_check {table : ConstantTable} {names declared : List String}
    (checked : Compiler.declareVariables table names = .ok declared) :
    ∀ name ∈ declared, Text.isIdentifier name = true ∧ table.contains name = false := by
  unfold Compiler.declareVariables at checked
  refine Except.foldlM_invariant
    (fun accepted => ∀ name ∈ accepted, Text.isIdentifier name = true ∧
      table.contains name = false) (by simp) ?_ checked
  intro accepted raw next good stepped
  dsimp only at stepped
  split at stepped
  · cases stepped
  · next named =>
    split at stepped
    · cases stepped
    · next free =>
      split at stepped
      · cases stepped
        exact good
      · cases stepped
        intro name mem
        rcases List.mem_append.mp mem with old | new
        · exact good name old
        · rw [List.mem_singleton.mp new]
          simp only [Bool.not_eq_true', Bool.not_eq_false] at named
          simp only [Bool.not_eq_true] at free
          exact ⟨named, free⟩

/-- The checks made before resolving give a well-formed scope. -/
theorem Compiler.wellFormed_of_checks {table : ConstantTable} {names declared : List String}
    (constantsChecked : Compiler.checkConstants table = .ok ())
    (variablesChecked : Compiler.declareVariables table names = .ok declared) :
    (Scope.mk table declared).WellFormed where
  constantsNamed := Compiler.constantsNamed_of_check constantsChecked
  variablesNamed name mem := (Compiler.declared_of_check variablesChecked name mem).1
  variablesFree name mem := (Compiler.declared_of_check variablesChecked name mem).2

/-! ## Names after a guarded prefix -/

/-- The pending placeholders are placeholders. -/
def Workspace.Placeholders (w : Workspace) : Prop :=
  ∀ entry ∈ w.pending, ∃ n, entry.1 = placeholderText n

theorem String.toList_identifier {name : String} (named : Text.isIdentifier name = true) :
    Text.isIdentifierChars name.toList = true := named

/-- A name the scope knows is a name. -/
theorem identifier_of_knows {scope : Scope} (wf : scope.WellFormed) {name : String}
    (known : scope.Knows name) : Text.isIdentifierChars name.toList = true := by
  rcases known with registered | declared
  · exact wf.constantsNamed name registered
  · exact wf.variablesNamed name declared

/-- An occurrence of a nonempty pattern ends within the text. -/
theorem occurs_fits {pattern text : List Char} (nonempty : pattern ≠ []) {j : Nat}
    (occurs : pattern <+: text.drop j) : j + pattern.length ≤ text.length := by
  have bound := occurs.length_le
  rw [List.length_drop] at bound
  have positive : 0 < pattern.length := List.length_pos_iff.mpr nonempty
  omega

/-- The characters of a pattern stand in the text where it occurs. -/
theorem getElem?_of_occurs {pattern text : List Char} {j : Nat} (occurs : pattern <+: text.drop j)
    {i : Nat} {c : Char} (found : pattern[i]? = some c) : text[j + i]? = some c := by
  obtain ⟨t, same⟩ := occurs
  have inside : i < pattern.length := (List.getElem?_eq_some_iff.mp found).1
  rw [← List.getElem?_drop, ← same, List.getElem?_append_left inside, found]

theorem bar_not_mem_signText (sign : Option Sign) : '|' ∉ signText sign := by
  rcases sign with _ | _ | _ <;> simp [signText, Sign.char]

/-- A prefix that no name the scope knows starts inside, and that holds no bar: in `P ++ rest`
every occurrence of a known name starts after `P`, and no placeholder reaches into `P`. A sign
is such a prefix (`Scope.guards_signText`), and so is a literal whose exponent marker is no
name the scope knows. -/
structure Scope.Guards (scope : Scope) (P : List Char) : Prop where
  noBar : '|' ∉ P
  namesAfter : ∀ name, scope.Knows name → ∀ rest j, name.toList <+: (P ++ rest).drop j →
    P.length ≤ j

/-- A prefix without letters and bars is guarded, since every name starts with a letter. -/
theorem Scope.guards_of_letterFree {scope : Scope} (wf : scope.WellFormed) {P : List Char}
    (letterFree : ∀ c ∈ P, Text.isAlphabetic c = false) (noBar : '|' ∉ P) : scope.Guards P where
  noBar := noBar
  namesAfter name known rest j occurs := by
    obtain ⟨c, r, spelled, letter, -⟩ :=
      (Text.isIdentifierChars_iff _).mp (identifier_of_knows wf known)
    rcases Nat.lt_or_ge j P.length with inside | outside
    · have atStart : (P ++ rest)[j + 0]? = some c :=
        getElem?_of_occurs occurs (by rw [spelled]; rfl)
      rw [Nat.add_zero, List.getElem?_append_left inside] at atStart
      have notLetter := letterFree c (List.mem_of_getElem? atStart)
      rw [letter] at notLetter
      cases notLetter
    · exact outside

/-- No character below `A` is a letter. -/
theorem Text.isAlphabetic_eq_false_of_lt {c : Char} (low : c.toNat < 0x41) :
    Text.isAlphabetic c = false := by
  cases letter : Text.isAlphabetic c with
  | false => rfl
  | true =>
    have := Text.le_toNat_of_isAlphabetic letter
    omega

theorem Scope.guards_signText {scope : Scope} (wf : scope.WellFormed) (sign : Option Sign) :
    scope.Guards (signText sign) := by
  refine Scope.guards_of_letterFree wf (fun c mem => ?_) (bar_not_mem_signText sign)
  rcases sign with _ | s
  · cases mem
  · rw [show signText (some s) = [s.char] from rfl, List.mem_singleton] at mem
    rw [mem]
    cases s <;> exact Text.isAlphabetic_eq_false_of_lt (by decide)

/-- A name found right after a prefix and as long as the rest is the rest. -/
theorem eq_of_occurs_whole {P name rest : List Char} (occurs : name <+: (P ++ rest).drop P.length)
    (long : name.length = rest.length) : name = rest := by
  rw [List.drop_left] at occurs
  exact occurs.eq_of_length long

/-! ## The entity a name after a guarded prefix leads to -/

/-- No pattern holding a character the text lacks occurs in it. -/
theorem firstOccurrences_eq_nil {names : List (List Char)} {text : List Char}
    (foreign : ∀ name ∈ names, ∃ c ∈ name, c ∉ text) : firstOccurrences names text = [] := by
  unfold firstOccurrences
  rw [List.filterMap_eq_nil_iff]
  intro name mem
  simp only [List.mem_filter, Bool.not_eq_true', List.isEmpty_eq_false_iff] at mem
  obtain ⟨c, inName, notInText⟩ := foreign name mem.1
  rw [Text.indexOf?_eq_none mem.2 fun j occurs =>
    notInText (List.mem_of_mem_drop (occurs.subset inName))]
  rfl

/-- A placeholder holds a bar. -/
theorem bar_mem_placeholderText (n : Nat) : '|' ∈ placeholderText n := by
  simp [placeholderText]

/-- No pending placeholder stands in a text without bars. -/
theorem firstOccurrences_pending_eq_nil {w : Workspace} (keys : w.Placeholders) {text : List Char}
    (noBar : '|' ∉ text) : firstOccurrences (w.pending.map (·.1)) text = [] := by
  apply firstOccurrences_eq_nil
  intro key listed
  obtain ⟨entry, pending, rfl⟩ := List.mem_map.mp listed
  obtain ⟨n, same⟩ := keys entry pending
  exact ⟨'|', same ▸ bar_mem_placeholderText n, noBar⟩

section GuardedPrefix

variable {scope : Scope} (wf : scope.WellFormed) {P : List Char} (guards : scope.Guards P)

include guards in
/-- A known name written after a guarded prefix occurs there and nowhere before. -/
theorem Scope.Guards.occurs_after {name : String} (known : scope.Knows name) :
    name.toList <+: (P ++ name.toList).drop P.length ∧
      ∀ j < P.length, ¬name.toList <+: (P ++ name.toList).drop j := by
  refine ⟨by simp, fun j below occurs => ?_⟩
  have := guards.namesAfter name known _ j occurs
  omega

include wf guards in
/-- An occurrence of a known name after a guarded prefix lies within the rest. -/
theorem Scope.Guards.confined {name : String} (known : scope.Knows name) {rest : List Char}
    {j : Nat} (occurs : name.toList <+: (P ++ rest).drop j) :
    P.length ≤ j ∧ j + name.toList.length ≤ P.length + rest.length := by
  have fits := occurs_fits (Text.ne_nil_of_identifier (identifier_of_knows wf known)) occurs
  rw [List.length_append] at fits
  exact ⟨guards.namesAfter name known rest j occurs, fits⟩

include guards in
/-- A name after a guarded prefix holds no bar. -/
theorem Scope.Guards.bar_not_mem {name : List Char} (named : Text.isIdentifierChars name = true) :
    '|' ∉ P ++ name := by
  intro mem
  rcases List.mem_append.mp mem with inPrefix | inName
  · exact guards.noBar inPrefix
  · exact Text.not_mem_identifier named (by simp [Text.punctuation]) inName

include wf guards in
/-- The variable names occur after a guarded prefix only. -/
theorem variableRanges_confined {rest : List Char} :
    ∀ range ∈ variableRanges scope (P ++ rest),
      P.length ≤ range.1 ∧ range.2 ≤ P.length + rest.length := by
  intro range listed
  simp only [variableRanges, List.mem_flatMap, List.mem_map] at listed
  obtain ⟨_, ⟨declaredName, declared, rfl⟩, start, found, rfl⟩ := listed
  exact guards.confined wf (Or.inr declared) (Text.occurs_of_mem_matchStarts found)

include wf guards in
/-- Every constant found after a guarded prefix lies after it. -/
theorem constantOccurrences_confined {rest : List Char} :
    ∀ c ∈ constantOccurrences scope (P ++ rest),
      P.length ≤ c.1 ∧ c.1 + c.2.1 ≤ P.length + rest.length := by
  intro c listed
  simp only [constantOccurrences, List.mem_filterMap, List.mem_filter, List.mem_map,
    Option.map_eq_some_iff] at listed
  obtain ⟨_, ⟨⟨constant, registered, rfl⟩, -⟩, start, found, rfl⟩ := listed
  exact guards.confined wf (Or.inl registered)
    (Text.occurs_of_mem_matchStarts (List.mem_of_find?_eq_some found))

/-- A list whose every element is `a`, and which holds `a`, finds `a` when `a` passes. -/
theorem find?_of_forall_eq {l : List Nat} {a : Nat} {p : Nat → Bool} (only : ∀ x ∈ l, x = a)
    (mem : a ∈ l) (passes : p a = true) : l.find? p = some a := by
  cases l with
  | nil => cases mem
  | cons x rest =>
    obtain rfl := only x List.mem_cons_self
    exact List.find?_cons_of_pos passes

include wf guards in
/-- A constant written after a guarded prefix is found as itself. -/
theorem constantOccurrences_mem_constant {name : String}
    (registered : name ∈ scope.constants.names) :
    (P.length, name.toList.length, name.toList) ∈ constantOccurrences scope (P ++ name.toList) := by
  have nonempty := Text.ne_nil_of_identifier (wf.constantsNamed name registered)
  obtain ⟨here, notBefore⟩ := guards.occurs_after (Or.inl registered)
  -- the constant occurs only after the prefix, and no variable encloses it there
  have only : ∀ x ∈ Text.matchStarts name.toList (P ++ name.toList), x = P.length := by
    intro x listed
    have := guards.confined wf (Or.inl registered) (Text.occurs_of_mem_matchStarts listed)
    omega
  have free : (!(variableRanges scope (P ++ name.toList)).any fun range =>
      encloses range (P.length, P.length + name.toList.length)) = true := by
    rw [Bool.not_eq_true', List.any_eq_false]
    intro range listed enclosing
    have inside := variableRanges_confined wf guards range listed
    simp only [encloses, Bool.and_eq_true, decide_eq_true_eq] at enclosing
    omega
  simp only [constantOccurrences, List.mem_filterMap, List.mem_filter, List.mem_map]
  refine ⟨name.toList, ⟨⟨name, registered, rfl⟩, by simpa using nonempty⟩, ?_⟩
  rw [find?_of_forall_eq only (Text.mem_matchStarts nonempty here notBefore) free]
  rfl

include wf guards in
/-- A constant written after a guarded prefix is the entity the leaf resolver finds: it spans
the whole name. -/
theorem findEntity_constant {w : Workspace} (keys : w.Placeholders) {name : String}
    (registered : name ∈ scope.constants.names) :
    ∃ span, findEntity scope w (P ++ name.toList) = some (span, .constant) ∧
      span.start = P.length ∧ span.length = name.toList.length := by
  have named : Text.isIdentifierChars name.toList = true := wf.constantsNamed name registered
  obtain ⟨best, -, found, start, length⟩ := earliestLongest_whole
    (constantOccurrences_mem_constant wf guards registered) (constantOccurrences_confined wf guards)
  have positive : 0 < best.2.1 := length ▸ List.length_pos_iff.mpr (Text.ne_nil_of_identifier named)
  have fits : best.1 + best.2.1 ≤ (P ++ name.toList).length :=
    Nat.le_of_eq (by rw [start, length, List.length_append])
  obtain ⟨span, made, spanStart, spanLength⟩ := Span.of?_eq_some positive fits
  refine ⟨span, ?_, spanStart.trans start, spanLength.trans length⟩
  unfold findEntity
  simp only [firstOccurrences_pending_eq_nil keys (guards.bar_not_mem named), earliestLongest_nil,
    found, Option.bind_some, made, Option.map_some]

include wf guards in
/-- Inside a declared variable's name no constant stands unenclosed. -/
theorem constantOccurrences_variable {name : String} (declared : name ∈ scope.variableNames) :
    constantOccurrences scope (P ++ name.toList) = [] := by
  have nonempty := Text.ne_nil_of_identifier (wf.variablesNamed name declared)
  obtain ⟨here, notBefore⟩ := guards.occurs_after (Or.inr declared)
  have whole : (P.length, P.length + name.toList.length) ∈ variableRanges scope (P ++ name.toList) := by
    simp only [variableRanges, List.mem_flatMap, List.mem_map]
    exact ⟨name.toList, ⟨name, declared, rfl⟩, P.length,
      Text.mem_matchStarts nonempty here notBefore, rfl⟩
  unfold constantOccurrences
  rw [List.filterMap_eq_nil_iff]
  intro constant listed
  simp only [List.mem_filter, List.mem_map] at listed
  obtain ⟨⟨original, registered, rfl⟩, -⟩ := listed
  rw [Option.map_eq_none_iff, List.find?_eq_none]
  intro start found free
  have occurs := Text.occurs_of_mem_matchStarts found
  have inside := guards.confined wf (Or.inl registered) occurs
  -- an occurrence as long as the variable's name would be the name, which is no constant's
  have shorter : original.toList.length < name.toList.length := by
    rcases Nat.lt_or_eq_of_le (show original.toList.length ≤ name.toList.length by omega) with
      shorter | same
    · exact shorter
    · have atPrefix : start = P.length := by omega
      rw [atPrefix] at occurs
      rw [String.toList_injective (eq_of_occurs_whole occurs same)] at registered
      have clash := wf.variablesFree name declared
      rw [(ConstantTable.contains_iff _ _).mpr registered] at clash
      cases clash
  rw [Bool.not_eq_true', List.any_eq_false] at free
  exact free _ whole (by simp only [encloses, Bool.and_eq_true, decide_eq_true_eq]; omega)

include wf guards in
/-- A declared variable written after a guarded prefix is the entity the leaf resolver finds:
it spans the whole name and names the variable's slot. -/
theorem findEntity_variable {w : Workspace} (keys : w.Placeholders) {name : String}
    (declared : name ∈ scope.variableNames) :
    ∃ span, findEntity scope w (P ++ name.toList) =
        some (span, .variable ((scope.variableNames.map String.toList).idxOf name.toList)) ∧
      span.start = P.length ∧ span.length = name.toList.length := by
  have named : Text.isIdentifierChars name.toList = true := wf.variablesNamed name declared
  have nonempty := Text.ne_nil_of_identifier named
  obtain ⟨here, notBefore⟩ := guards.occurs_after (Or.inr declared)
  have entry : (P.length, name.toList.length, name.toList) ∈
      firstOccurrences (scope.variableNames.map String.toList) (P ++ name.toList) := by
    simp only [firstOccurrences, List.mem_filterMap, List.mem_filter, List.mem_map,
      Option.map_eq_some_iff]
    exact ⟨name.toList, ⟨⟨name, declared, rfl⟩, by simpa using nonempty⟩,
      P.length, (Text.indexOf?_eq_some_iff nonempty _ _).mpr ⟨here, notBefore⟩, rfl⟩
  -- every variable found lies after the prefix
  have located : ∀ c ∈ firstOccurrences (scope.variableNames.map String.toList)
      (P ++ name.toList), ∃ other ∈ scope.variableNames,
        c.2 = (other.toList.length, other.toList) ∧ other.toList <+: (P ++ name.toList).drop c.1 := by
    intro c listed
    simp only [firstOccurrences, List.mem_filterMap, List.mem_filter, List.mem_map,
      Option.map_eq_some_iff] at listed
    obtain ⟨_, ⟨⟨other, declaredOther, rfl⟩, filled⟩, start, found, rfl⟩ := listed
    exact ⟨other, declaredOther, rfl,
      ((Text.indexOf?_eq_some_iff (by simpa using filled) _ _).mp found).1⟩
  have confined : ∀ c ∈ firstOccurrences (scope.variableNames.map String.toList)
      (P ++ name.toList), P.length ≤ c.1 ∧ c.1 + c.2.1 ≤ P.length + name.toList.length := by
    intro c listed
    obtain ⟨other, declaredOther, shape, occurs⟩ := located c listed
    rw [shape]
    exact guards.confined wf (Or.inr declaredOther) occurs
  obtain ⟨best, chosen, found, start, length⟩ := earliestLongest_whole entry confined
  have bestName : best.2.2 = name.toList := by
    obtain ⟨other, -, shape, occurs⟩ := located best chosen
    rw [shape] at length ⊢
    rw [start] at occurs
    exact eq_of_occurs_whole occurs length
  have positive : 0 < best.2.1 := length ▸ List.length_pos_iff.mpr nonempty
  have fits : best.1 + best.2.1 ≤ (P ++ name.toList).length :=
    Nat.le_of_eq (by rw [start, length, List.length_append])
  obtain ⟨span, made, spanStart, spanLength⟩ := Span.of?_eq_some positive fits
  refine ⟨span, ?_, spanStart.trans start, spanLength.trans length⟩
  unfold findEntity
  simp only [firstOccurrences_pending_eq_nil keys (guards.bar_not_mem named), earliestLongest_nil,
    constantOccurrences_variable wf guards declared, found, Option.bind_some, made,
    Option.map_some, bestName]

end GuardedPrefix

/-! ## Resolving a signed span -/

theorem resolveLeaf_sign (scope : Scope) (s : Sign) (w : Workspace) :
    resolveLeaf scope [s.char] w = .ok (.const s.factor, w) := by
  cases s with
  | plus =>
    show resolveLeaf scope ['+'] w = _
    rw [resolveLeaf, if_neg (by decide), if_pos rfl]
    rfl
  | minus =>
    show resolveLeaf scope ['-'] w = _
    rw [resolveLeaf, if_pos rfl]
    rfl

/-- A span that goes on after its optional sign is no lone sign. -/
theorem signed_ne_sign (sign : Option Sign) {c : Char} (notPlus : c ≠ '+') (notMinus : c ≠ '-')
    (rest : List Char) (s : Sign) : signText sign ++ c :: rest ≠ [s.char] := by
  cases sign with
  | none =>
    intro same
    obtain ⟨rfl, -⟩ := List.cons.inj same
    cases s <;> contradiction
  | some _ => simp [signText]

/-- The leaf resolver on a span that is one entity after a nonempty prefix: the prefix's tree
times the entity's subtree. The entity is resolved first, then the prefix. -/
theorem resolveLeaf_entity_after {scope : Scope} {w w' : Workspace} {text : List Char}
    (notMinus : text ≠ ['-']) (notPlus : text ≠ ['+']) (notLiteral : Literal.value? text = none)
    {span : Span text} {entity : Entity} (found : findEntity scope w text = some (span, entity))
    {m : Tree} (resolved : entityNode scope (Text.slice text span.start (span.start + span.length))
      entity w = .ok (m, w'))
    {P : List Char} (nonempty : P ≠ []) (before : text.take span.start = P) {p : Tree}
    (left : resolveLeaf scope P w' = .ok (p, w'))
    (after : text.drop (span.start + span.length) = []) :
    resolveLeaf scope text w = .ok (.binary .mul p m, w') := by
  rw [resolveLeaf, if_neg notMinus, if_neg notPlus]
  simp only [notLiteral]
  rw [Resolve.bind_of_ok (Resolve.get_apply w)]
  simp only [found]
  rw [Resolve.bind_of_ok resolved, before, after]
  simp only [List.isEmpty_iff, nonempty, ↓reduceIte]
  rw [Resolve.bind_of_ok left]
  rfl

/-- The leaf resolver on a span that is one entity after an optional sign: the entity's
subtree, times the sign's factor. -/
theorem resolveLeaf_signed_entity {scope : Scope} {w w' : Workspace} {text : List Char}
    (notMinus : text ≠ ['-']) (notPlus : text ≠ ['+']) (notLiteral : Literal.value? text = none)
    {span : Span text} {entity : Entity} (found : findEntity scope w text = some (span, entity))
    {m : Tree} (resolved : entityNode scope (Text.slice text span.start (span.start + span.length))
      entity w = .ok (m, w'))
    {sign : Option Sign} (before : text.take span.start = signText sign)
    (after : text.drop (span.start + span.length) = []) :
    resolveLeaf scope text w = .ok (signTree sign m, w') := by
  cases sign with
  | none =>
    rw [resolveLeaf, if_neg notMinus, if_neg notPlus]
    simp only [notLiteral]
    rw [Resolve.bind_of_ok (Resolve.get_apply w)]
    simp only [found]
    rw [Resolve.bind_of_ok resolved, before, after]
    rfl
  | some s =>
    exact resolveLeaf_entity_after notMinus notPlus notLiteral found resolved
      (List.cons_ne_nil _ _) before (resolveLeaf_sign scope s w') after

/-- A literal with an optional sign in front is one constant, the value the reader reads. -/
theorem resolveLeaf_literal (scope : Scope) (sign : Option Sign) {lit : List Char}
    (unsigned : Literal.Unsigned lit) (w : Workspace) :
    resolveLeaf scope (signText sign ++ lit) w =
      .ok (.const (ComplexFloat.ofReal (literalValue sign lit unsigned)), w) := by
  obtain ⟨c, r, same, start⟩ := unsigned.head
  obtain ⟨value, read, valued⟩ := Literal.value?_eq_some (signText_shape sign) unsigned
  have notPlus := Literal.ne_of_startsLiteral start (show Decimal.isDigit '+' = false by decide)
    (by decide)
  have notMinus := Literal.ne_of_startsLiteral start (show Decimal.isDigit '-' = false by decide)
    (by decide)
  have literal : literalValue sign lit unsigned = value := by
    simp [literalValue, read]
  rw [resolveLeaf, if_neg (same ▸ signed_ne_sign sign notPlus notMinus r .minus),
    if_neg (same ▸ signed_ne_sign sign notPlus notMinus r .plus), valued, literal]
  rfl

/-- A name starts neither a literal nor a sign. -/
theorem identifier_head {cs : List Char} (named : Text.isIdentifierChars cs = true) :
    ∃ c r, cs = c :: r ∧ Decimal.isDigit c = false ∧ c ≠ '.' ∧ c ≠ '+' ∧ c ≠ '-' := by
  obtain ⟨c, r, rfl, letter, -⟩ := (Text.isIdentifierChars_iff cs).mp named
  have high := Text.le_toNat_of_isAlphabetic letter
  refine ⟨c, r, rfl, Text.isDigit_eq_false_of_isAlphabetic letter,
    Text.ne_point_of_isAlphabetic letter, ?_, ?_⟩ <;>
    (rintro rfl; exact absurd high (by decide))

/-- The slot of a declared name is the same whether names are compared as strings or as
lists of characters. -/
theorem idxOf_map_toList (names : List String) (name : String) :
    (names.map String.toList).idxOf name.toList = names.idxOf name := by
  induction names with
  | nil => rfl
  | cons first rest inductionHypothesis =>
    have sameTest : (first.toList == name.toList) = (first == name) := by
      rw [Bool.eq_iff_iff, beq_iff_eq, beq_iff_eq, String.toList_inj]
    simp only [List.map_cons, List.idxOf_cons, inductionHypothesis, sameTest]

section Names

variable {scope : Scope} (wf : scope.WellFormed) {w : Workspace} (keys : w.Placeholders)
  (sign : Option Sign)

include wf keys in
/-- A constant with an optional sign is its value, times the sign's factor; the state does
not change. -/
theorem resolveLeaf_constant {name : String} (registered : name ∈ scope.constants.names)
    {value : ComplexFloat} (valued : scope.constants.find? name = some value) :
    resolveLeaf scope (signText sign ++ name.toList) w =
      .ok (signTree sign (.const value), w) := by
  have named : Text.isIdentifierChars name.toList = true := wf.constantsNamed name registered
  obtain ⟨c, r, same, notDigit, notPoint, notPlus, notMinus⟩ := identifier_head named
  obtain ⟨span, found, start, length⟩ := findEntity_constant wf (Scope.guards_signText wf sign) keys registered
  have sliced : Text.slice (signText sign ++ name.toList) span.start (span.start + span.length) =
      name.toList := by
    rw [start, length]
    simpa using Text.slice_append (signText sign) name.toList []
  have resolved : entityNode scope (Text.slice (signText sign ++ name.toList) span.start
      (span.start + span.length)) .constant w = .ok (.const value, w) := by
    rw [sliced]
    simp only [entityNode, String.ofList_toList, valued]
    rfl
  refine resolveLeaf_signed_entity (same ▸ signed_ne_sign sign notPlus notMinus r .minus)
    (same ▸ signed_ne_sign sign notPlus notMinus r .plus)
    (same ▸ Literal.value?_eq_none (signText_shape sign) notDigit notPoint notPlus notMinus r)
    found resolved ?_ ?_
  · rw [start, List.take_left]
  · rw [start, length]
    exact List.drop_eq_nil_of_le (by simp)

include wf keys in
/-- A declared variable with an optional sign is a new leaf of its slot, times the sign's
factor; the state counts the leaf and records it for the name. -/
theorem resolveLeaf_variable {name : String} (declared : name ∈ scope.variableNames) :
    resolveLeaf scope (signText sign ++ name.toList) w =
      .ok (signTree sign (.var w.nextLeaf (scope.variableNames.idxOf name)),
        { w with nextLeaf := w.nextLeaf + 1,
                 occurrences := w.occurrences.register
                   ((scope.variableNames[(scope.variableNames.idxOf name)]?).getD "")
                   w.nextLeaf }) := by
  have named : Text.isIdentifierChars name.toList = true := wf.variablesNamed name declared
  obtain ⟨c, r, same, notDigit, notPoint, notPlus, notMinus⟩ := identifier_head named
  obtain ⟨span, found, start, length⟩ := findEntity_variable wf (Scope.guards_signText wf sign) keys declared
  rw [idxOf_map_toList] at found
  refine resolveLeaf_signed_entity (same ▸ signed_ne_sign sign notPlus notMinus r .minus)
    (same ▸ signed_ne_sign sign notPlus notMinus r .plus)
    (same ▸ Literal.value?_eq_none (signText_shape sign) notDigit notPoint notPlus notMinus r)
    found rfl ?_ ?_
  · rw [start, List.take_left]
  · rw [start, length]
    exact List.drop_eq_nil_of_le (by simp)

include wf keys in
/-- A known name after a nonempty guarded prefix that resolves on its own, in any state, to
the same tree: the prefix's tree times the name's. The placeholders stay as they were. -/
theorem resolveLeaf_name_after {P : List Char} (guards : scope.Guards P) (nonempty : P ≠ [])
    {name : String} (known : scope.Knows name) (notLiteral : Literal.value? (P ++ name.toList) = none)
    {p : Tree} (left : ∀ w', resolveLeaf scope P w' = .ok (p, w')) :
    ∃ m w', resolveLeaf scope (P ++ name.toList) w = .ok (.binary .mul p m, w') ∧
      m.eraseLeaves = nameTree scope name ∧ w'.pending = w.pending ∧ w'.minted = w.minted := by
  have named := identifier_of_knows wf known
  -- prefix and name are both nonempty, so the span is no lone sign
  have long : 2 ≤ (P ++ name.toList).length := by
    have := List.length_pos_iff.mpr nonempty
    have := List.length_pos_iff.mpr (Text.ne_nil_of_identifier named)
    rw [List.length_append]
    omega
  have notLone : ∀ c, P ++ name.toList ≠ [c] := fun c same => by
    rw [same] at long
    simp at long
  have before : ∀ {span : Span (P ++ name.toList)}, span.start = P.length →
      (P ++ name.toList).take span.start = P := fun start => by rw [start, List.take_left]
  have after : ∀ {span : Span (P ++ name.toList)}, span.start = P.length →
      span.length = name.toList.length → (P ++ name.toList).drop (span.start + span.length) = [] :=
    fun start length => by
      rw [start, length]
      exact List.drop_eq_nil_of_le (by simp)
  rcases known with registered | declared
  · obtain ⟨value, valued⟩ := ConstantTable.find?_of_mem registered
    obtain ⟨span, found, start, length⟩ := findEntity_constant wf guards keys registered
    have sliced : Text.slice (P ++ name.toList) span.start (span.start + span.length) =
        name.toList := by
      rw [start, length]
      simpa using Text.slice_append P name.toList []
    have resolved : entityNode scope (Text.slice (P ++ name.toList) span.start
        (span.start + span.length)) .constant w = .ok (.const value, w) := by
      rw [sliced]
      simp only [entityNode, String.ofList_toList, valued]
      rfl
    refine ⟨.const value, w, resolveLeaf_entity_after (notLone '-') (notLone '+') notLiteral found
      resolved nonempty (before start) (left w) (after start length), ?_, rfl, rfl⟩
    simp [nameTree, valued, Tree.eraseLeaves]
  · have notConstant := ConstantTable.find?_eq_none (wf.variablesFree name declared)
    obtain ⟨span, found, start, length⟩ := findEntity_variable wf guards keys declared
    rw [idxOf_map_toList] at found
    refine ⟨_, _, resolveLeaf_entity_after (notLone '-') (notLone '+') notLiteral found rfl
      nonempty (before start) (left _) (after start length), ?_, rfl, rfl⟩
    simp [nameTree, notConstant, Tree.eraseLeaves]

end Names

theorem Tree.eraseLeaves_signTree (sign : Option Sign) (t : Tree) :
    (signTree sign t).eraseLeaves = signTree sign t.eraseLeaves := by
  cases sign <;> rfl

/-- An operand resolves to its tree, up to leaf numbers, and leaves the placeholders and the
count of placeholders as they were. -/
theorem resolveLeaf_operand {scope : Scope} (wf : scope.WellFormed) {w : Workspace}
    (keys : w.Placeholders) (a : Operand) (known : a.atom.Known scope) :
    ∃ t w', resolveLeaf scope a.text w = .ok (t, w') ∧ t.eraseLeaves = a.tree scope ∧
      w'.pending = w.pending ∧ w'.minted = w.minted := by
  obtain ⟨sign, atom⟩ := a
  cases atom with
  | literal text unsigned => exact ⟨_, w, resolveLeaf_literal scope sign unsigned w, rfl, rfl, rfl⟩
  | name n =>
    rcases known with registered | declared
    · obtain ⟨value, valued⟩ := ConstantTable.find?_of_mem registered
      refine ⟨_, w, resolveLeaf_constant wf keys sign registered valued, ?_, rfl, rfl⟩
      simp [Operand.tree, nameTree, valued, Tree.eraseLeaves_signTree, Tree.eraseLeaves]
    · have notConstant := ConstantTable.find?_eq_none (wf.variablesFree n declared)
      refine ⟨_, _, resolveLeaf_variable wf keys sign declared, ?_, rfl, rfl⟩
      simp [Operand.tree, nameTree, notConstant, Tree.eraseLeaves_signTree, Tree.eraseLeaves]

/-! ## Resolving around a held placeholder -/

theorem firstOccurrences_occurs {names : List (List Char)} {text : List Char}
    {c : Nat × Nat × List Char} (listed : c ∈ firstOccurrences names text) :
    c.2.2 ∈ names ∧ c.2.1 = c.2.2.length ∧ c.2.2 <+: text.drop c.1 := by
  unfold firstOccurrences at listed
  obtain ⟨name, kept, found⟩ := List.mem_filterMap.mp listed
  obtain ⟨named, nonempty⟩ := List.mem_filter.mp kept
  obtain ⟨start, first, rfl⟩ := Option.map_eq_some_iff.mp found
  have nonempty : name ≠ [] := by simpa using nonempty
  exact ⟨named, rfl, ((Text.indexOf?_eq_some_iff nonempty text start).mp first).1⟩

/-- After characters without bars, a placeholder occurs no earlier than the first placeholder,
and where that one starts only it occurs. -/
theorem placeholderText_occurs_after {cs : List Char} (noBar : '|' ∉ cs) {m n j : Nat}
    {rest : List Char} (occurs : placeholderText m <+: (cs ++ placeholderText n ++ rest).drop j) :
    cs.length ≤ j ∧ (j = cs.length → m = n) := by
  have first : (cs ++ placeholderText n ++ rest)[j]? = some '|' := by
    simpa using getElem?_of_occurs occurs (i := 0) (by simp [placeholderText])
  refine ⟨?_, fun start => ?_⟩
  · apply Nat.le_of_not_lt
    intro early
    rw [List.append_assoc, List.getElem?_append_left early] at first
    exact noBar (List.mem_of_getElem? first)
  · rw [start, List.append_assoc, List.drop_left] at occurs
    exact eq_of_placeholderText_leading occurs

/-- The first pending placeholder of a text, after characters without bars, is the entity its
span splits around, whatever follows it. -/
theorem findEntity_first_held (scope : Scope) {w : Workspace} (keys : w.Placeholders)
    {cs : List Char} (noBar : '|' ∉ cs) {n : Nat}
    (pending : placeholderText n ∈ w.pending.map (·.1)) (rest : List Char) :
    ∃ span : Span (cs ++ placeholderText n ++ rest),
      findEntity scope w (cs ++ placeholderText n ++ rest) = some (span, .placeholder) ∧
        span.start = cs.length ∧ span.length = (placeholderText n).length := by
  have nonempty : placeholderText n ≠ [] := by simp [placeholderText]
  have entry : (cs.length, (placeholderText n).length, placeholderText n) ∈
      firstOccurrences (w.pending.map (·.1)) (cs ++ placeholderText n ++ rest) := by
    simp only [firstOccurrences, List.mem_filterMap, List.mem_filter, Option.map_eq_some_iff]
    refine ⟨placeholderText n, ⟨pending, by simpa using nonempty⟩, cs.length, ?_, rfl⟩
    refine (Text.indexOf?_eq_some_iff nonempty _ _).mpr ⟨by simp, fun j below occurs => ?_⟩
    have := (placeholderText_occurs_after noBar occurs).1
    omega
  obtain ⟨best, chosen, found, beatsAll⟩ := earliestLongest_spec (List.ne_nil_of_mem entry)
  obtain ⟨named, lengthOf, occurs⟩ := firstOccurrences_occurs chosen
  obtain ⟨entry', held, isKey⟩ := List.mem_map.mp named
  obtain ⟨k, key⟩ := keys entry' held
  rw [← isKey, key] at occurs
  -- the earliest candidate starts no later than the placeholder, so it is the placeholder
  have after := placeholderText_occurs_after noBar occurs
  have beats := beatsAll _ entry
  unfold Beats at beats
  have start : best.1 = cs.length := by omega
  have same := after.2 start
  have length : best.2.1 = (placeholderText n).length := by
    rw [lengthOf, ← isKey, key, same]
  have positive : 0 < best.2.1 := length ▸ List.length_pos_iff.mpr nonempty
  have fits : best.1 + best.2.1 ≤ (cs ++ placeholderText n ++ rest).length := by
    simp only [start, length, List.length_append]
    omega
  obtain ⟨span, made, spanStart, spanLength⟩ := Span.of?_eq_some positive fits
  refine ⟨span, ?_, spanStart.trans start, spanLength.trans length⟩
  unfold findEntity
  simp only [found, Option.bind_some, made, Option.map_some]

/-- A span whose first bar starts a pending placeholder: the placeholder's subtree first, which
is pending no more, then the part before it and the part after it, each joined to it by
multiplication. -/
theorem resolveLeaf_first_held (scope : Scope) {w : Workspace} (keys : w.Placeholders)
    {cs : List Char} (noBar : '|' ∉ cs) {n : Nat} {t : Tree}
    (holding : w.pending.find? (·.1 == placeholderText n) = some (placeholderText n, t))
    (rest : List Char) :
    resolveLeaf scope (cs ++ placeholderText n ++ rest) w =
      (do
        let withBefore ← if cs.isEmpty then pure t else do
          let left ← resolveLeaf scope cs
          pure (Tree.binary .mul left t)
        if rest.isEmpty then pure withBefore else do
          let right ← resolveLeaf scope rest
          pure (Tree.binary .mul withBefore right))
        { w with pending := w.pending.filter (·.1 != placeholderText n) } := by
  have bar : '|' ∈ cs ++ placeholderText n ++ rest :=
    List.mem_append_left rest (List.mem_append_right cs (bar_mem_placeholderText n))
  have notLone : ∀ c, c ≠ '|' → cs ++ placeholderText n ++ rest ≠ [c] := fun c other same => by
    rw [same, List.mem_singleton] at bar
    exact other bar.symm
  obtain ⟨span, found, start, length⟩ := findEntity_first_held scope keys noBar
    (List.mem_map.mpr ⟨_, List.mem_of_find?_eq_some holding, rfl⟩) rest
  have sliced : Text.slice (cs ++ placeholderText n ++ rest) span.start
      (span.start + span.length) = placeholderText n := by
    rw [start, length, Text.slice_append]
  have taken : entityNode scope (placeholderText n) .placeholder w =
      .ok (t, { w with pending := w.pending.filter (·.1 != placeholderText n) }) := by
    simp only [entityNode, takePlaceholder]
    rw [Resolve.bind_of_ok (Resolve.get_apply w)]
    simp only [holding]
    rfl
  have before : (cs ++ placeholderText n ++ rest).take span.start = cs := by
    rw [start, List.append_assoc, List.take_left]
  have after : (cs ++ placeholderText n ++ rest).drop (span.start + span.length) = rest := by
    rw [start, length, ← List.length_append, List.drop_left]
  rw [resolveLeaf, if_neg (notLone '-' (by decide)), if_neg (notLone '+' (by decide))]
  simp only [Literal.value?_eq_none_of_mem bar (by decide)]
  rw [Resolve.bind_of_ok (Resolve.get_apply w)]
  simp only [found]
  rw [sliced, Resolve.bind_of_ok taken, before, after]

/-- A pending placeholder with an optional sign in front is the subtree it holds, times the
sign's factor, and it is pending no more. -/
theorem resolveLeaf_held {scope : Scope} {w : Workspace} (keys : w.Placeholders)
    (sign : Option Sign) {n : Nat} {t : Tree}
    (holding : w.pending.find? (·.1 == placeholderText n) = some (placeholderText n, t)) :
    resolveLeaf scope (signText sign ++ placeholderText n) w =
      .ok (signTree sign t, { w with pending := w.pending.filter (·.1 != placeholderText n) }) := by
  have around := resolveLeaf_first_held scope keys (bar_not_mem_signText sign) holding []
  rw [List.append_nil] at around
  rw [around]
  cases sign with
  | none => rfl
  | some s =>
    simp only [signText, List.isEmpty_cons, List.isEmpty_nil, Bool.false_eq_true, ↓reduceIte]
    rw [Resolve.bind_of_ok (resolveLeaf_sign scope s _)]
    rfl

/-! ## Spans without bars leave the placeholders alone -/

/-- A computation that neither reads nor changes the pending placeholders: from a state whose
pending ones are placeholders, it runs as from that state without them, and hands them back
as they were. -/
def Resolve.KeepsPending (c : Resolve α) : Prop :=
  ∀ w : Workspace, w.Placeholders →
    c w = (c { w with pending := [] }).map fun r => (r.1, { r.2 with pending := w.pending })

theorem Workspace.placeholders_of_nil {w : Workspace} (clear : w.pending = []) :
    w.Placeholders := by
  intro entry mem
  rw [clear] at mem
  cases mem

theorem Workspace.with_pending_nil {w : Workspace} (clear : w.pending = []) :
    { w with pending := [] } = w := by
  obtain ⟨minted, nextLeaf, pending, occurrences⟩ := w
  cases clear
  rfl

namespace Resolve.KeepsPending

/-- Run without pending placeholders, such a computation ends without any. -/
theorem pending_eq_nil {c : Resolve α} (keeps : c.KeepsPending) {w w' : Workspace} {a : α}
    (ran : c { w with pending := [] } = .ok (a, w')) : w'.pending = [] := by
  have again := keeps { w with pending := [] } (Workspace.placeholders_of_nil rfl)
  rw [ran] at again
  exact congrArg (fun r => r.2.pending) (Except.ok.inj again)

theorem pure (a : α) : (pure a : Resolve α).KeepsPending := fun _ _ => rfl

theorem unparseable (text : List Char) : (ComplexFormula.unparseable text : Resolve α).KeepsPending :=
  fun _ _ => rfl

theorem bind {c : Resolve α} {f : α → Resolve β} (first : c.KeepsPending)
    (rest : ∀ a, (f a).KeepsPending) : (c >>= f).KeepsPending := by
  intro w keys
  show (c w >>= fun r => f r.1 r.2) =
    (c { w with pending := [] } >>= fun r => f r.1 r.2).map _
  rw [first w keys]
  cases ran : c { w with pending := [] } with
  | error e => rfl
  | ok r =>
    obtain ⟨a, u⟩ := r
    have clear := first.pending_eq_nil ran
    show f a { u with pending := w.pending } = (f a u).map _
    rw [rest a { u with pending := w.pending } keys]
    simp only [Workspace.with_pending_nil clear]

/-- Reading the state keeps the placeholders when what follows does not depend on them. -/
theorem get_bind {g : Workspace → Resolve α}
    (blind : ∀ w : Workspace, w.Placeholders → g w = g Workspace.initial)
    (keeps : (g Workspace.initial).KeepsPending) : (get >>= g).KeepsPending := by
  intro w keys
  rw [Resolve.bind_of_ok (Resolve.get_apply w), Resolve.bind_of_ok (Resolve.get_apply _),
    blind w keys, blind { w with pending := [] } (Workspace.placeholders_of_nil rfl)]
  exact keeps w keys

end Resolve.KeepsPending

/-- In a span without bars no pending placeholder is found, whatever the pending ones are. -/
theorem findEntity_of_noBar (scope : Scope) {w : Workspace} (keys : w.Placeholders)
    {text : List Char} (noBar : '|' ∉ text) :
    findEntity scope w text = findEntity scope Workspace.initial text := by
  unfold findEntity
  rw [firstOccurrences_pending_eq_nil keys noBar]
  rfl

/-- Without pending placeholders the entity found is a constant or a variable. -/
theorem findEntity_initial_ne_placeholder {scope : Scope} {text : List Char}
    {span : Span text} {entity : Entity}
    (found : findEntity scope Workspace.initial text = some (span, entity)) :
    entity ≠ .placeholder := by
  unfold findEntity at found
  simp only [Workspace.initial, List.map_nil, firstOccurrences, List.filter_nil,
    List.filterMap_nil, earliestLongest_nil] at found
  rintro rfl
  split at found
  · simp only [Option.bind_some, Option.map_eq_some_iff] at found
    obtain ⟨_, -, same⟩ := found
    cases same
  · simp only [Option.bind_eq_some_iff, Option.map_eq_some_iff] at found
    obtain ⟨_, -, _, -, same⟩ := found
    cases same

/-- The subtree of a constant or a variable is made without the placeholders. -/
theorem entityNode_keepsPending (scope : Scope) (name : List Char) {entity : Entity}
    (notHeld : entity ≠ .placeholder) : (entityNode scope name entity).KeepsPending := by
  -- the constructors are the placeholder, a constant and a variable
  cases entity
  · exact absurd rfl notHeld
  · simp only [entityNode]
    split
    · exact Resolve.KeepsPending.pure _
    · exact Resolve.KeepsPending.unparseable _
  · exact fun _ _ => rfl

/-- The leaf resolver on a span without bars neither reads nor changes the pending
placeholders. -/
theorem resolveLeaf_keepsPending (scope : Scope) {text : List Char} (noBar : '|' ∉ text) :
    (resolveLeaf scope text).KeepsPending := by
  obtain ⟨n, length⟩ : ∃ n, text.length = n := ⟨_, rfl⟩
  -- strong induction on the length: the parts around the entity are shorter spans
  induction n using Nat.strongRecOn generalizing text with
  | ind n inductionHypothesis =>
  have part : ∀ piece : List Char, piece.length < n → piece ⊆ text →
      (resolveLeaf scope piece).KeepsPending := fun piece shorter within =>
    inductionHypothesis _ shorter (fun mem => noBar (within mem)) rfl
  rw [resolveLeaf]
  split
  · exact Resolve.KeepsPending.pure _
  split
  · exact Resolve.KeepsPending.pure _
  split
  · exact Resolve.KeepsPending.pure _
  refine Resolve.KeepsPending.get_bind (fun w keys => ?_) ?_
  · simp only [findEntity_of_noBar scope keys noBar]
  cases found : findEntity scope Workspace.initial text with
  | none => exact Resolve.KeepsPending.unparseable _
  | some entry =>
    obtain ⟨span, entity⟩ := entry
    have nonempty := span.nonempty
    have fits := span.fits
    refine (entityNode_keepsPending scope _ (findEntity_initial_ne_placeholder found)).bind
      fun matched => ?_
    have afterPart : ∀ withBefore : Tree,
        (if (text.drop (span.start + span.length)).isEmpty then pure withBefore else do
          let right ← resolveLeaf scope (text.drop (span.start + span.length))
          pure (Tree.binary .mul withBefore right) : Resolve Tree).KeepsPending := by
      intro withBefore
      split
      · exact Resolve.KeepsPending.pure _
      · exact (part _ (by simp only [List.length_drop]; omega) (List.drop_subset _ _)).bind
          fun right => Resolve.KeepsPending.pure _
    dsimp only
    split
    · exact (Resolve.KeepsPending.pure matched).bind afterPart
    · exact (part _ (by simp only [List.length_take]; omega) (List.take_subset _ _)).bind
        fun left => (Resolve.KeepsPending.pure _).bind afterPart

end ComplexFormula
