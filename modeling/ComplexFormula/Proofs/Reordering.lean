import ComplexFormula.Proofs.Renumbering

/-!
# Compilation does not depend on the order of its tables

The constant table and the pending placeholders are tables keyed by name: a constant table
has no repeated names, and no two pending placeholders share a text. Both are held as lists,
but no answer depends on the order of their entries, because each search over them has one
winner however the entries are listed:

* the constant check reports the least offending name in code point order;
* an operand of a power is the longest name that ends or starts the text;
* a leaf splits around the earliest and longest occurrence, and two occurrences with one start
  and one length are one text;
* looking up a constant or a placeholder finds its only entry.

So two runs on one text, with tables that hold the same entries possibly listed in another
order, make the same decisions: both fail with the same error, or both succeed with the same
tree, the same counters and the same occurrence index (`RunsReordered`). Each resolver is shown
to run so by induction along its own recursion, and compilation follows.
-/

namespace ComplexFormula

/-! ## Searches with one winner -/

/-- Candidates read off a text: each is a name found at its start, with its length. -/
def Occurring (text : List Char) (candidates : List (Nat × Nat × List Char)) : Prop :=
  ∀ c ∈ candidates, c.2.1 = c.2.2.length ∧ c.2.2 <+: text.drop c.1

/-- Two candidates read off a text at one start and with one length are the same. -/
theorem Occurring.eq_of_span {text : List Char} {candidates : List (Nat × Nat × List Char)}
    (occurring : Occurring text candidates) {a b : Nat × Nat × List Char}
    (listedA : a ∈ candidates) (listedB : b ∈ candidates) (start : a.1 = b.1)
    (length : a.2.1 = b.2.1) : a = b := by
  obtain ⟨lengthA, occursA⟩ := occurring a listedA
  obtain ⟨lengthB, occursB⟩ := occurring b listedB
  have name : a.2.2 = b.2.2 := calc
    a.2.2 = (text.drop a.1).take a.2.2.length := List.prefix_iff_eq_take.mp occursA
    _ = (text.drop b.1).take b.2.2.length := by rw [← lengthA, ← lengthB, start, length]
    _ = b.2.2 := (List.prefix_iff_eq_take.mp occursB).symm
  exact Prod.ext start (Prod.ext length name)

/-- The earliest and longest of candidates read off a text does not depend on their order. -/
theorem earliestLongest_perm {text : List Char} {l₁ l₂ : List (Nat × Nat × List Char)}
    (perm : l₁.Perm l₂) (occurring : Occurring text l₁) :
    earliestLongest l₁ = earliestLongest l₂ := by
  by_cases empty : l₁ = []
  · subst empty
    rw [← perm.nil_eq]
  · have nonempty : l₂ ≠ [] := fun none => empty (by rw [none] at perm; exact perm.eq_nil)
    obtain ⟨best₁, listed₁, found₁, beats₁⟩ := earliestLongest_spec empty
    obtain ⟨best₂, listed₂, found₂, beats₂⟩ := earliestLongest_spec nonempty
    -- each winner beats the other, so they start together and are as long
    have beatsSecond := beats₁ best₂ (perm.mem_iff.mpr listed₂)
    have beatsFirst := beats₂ best₁ (perm.mem_iff.mp listed₁)
    unfold Beats at beatsSecond beatsFirst
    rw [found₁, found₂,
      occurring.eq_of_span listed₁ (perm.mem_iff.mpr listed₂) (by omega) (by omega)]

theorem firstOccurrences_perm {names₁ names₂ : List (List Char)} (perm : names₁.Perm names₂)
    (text : List Char) : (firstOccurrences names₁ text).Perm (firstOccurrences names₂ text) :=
  (perm.filter _).filterMap _

theorem occurring_firstOccurrences (names : List (List Char)) (text : List Char) :
    Occurring text (firstOccurrences names text) := fun _ listed =>
  (firstOccurrences_occurs listed).2

theorem occurring_constantOccurrences (scope : Scope) (text : List Char) :
    Occurring text (constantOccurrences scope text) := fun _ listed =>
  (constantOccurrences_occurs listed).2

/-- In two listings of entries with distinct keys, a key finds the same entry. -/
theorem find?_key_perm {κ ν : Type} [BEq κ] [LawfulBEq κ] {l₁ l₂ : List (κ × ν)}
    (perm : l₁.Perm l₂) (distinct : (l₁.map (·.1)).Nodup) (key : κ) :
    l₁.find? (·.1 == key) = l₂.find? (·.1 == key) := by
  cases found₁ : l₁.find? (·.1 == key) with
  | none =>
    rw [List.find?_eq_none] at found₁
    symm
    rw [List.find?_eq_none]
    exact fun entry listed => found₁ entry (perm.mem_iff.mpr listed)
  | some entry =>
    have listed := List.mem_of_find?_eq_some found₁
    have isKey : entry.1 = key := by simpa using List.find?_some found₁
    cases found₂ : l₂.find? (·.1 == key) with
    | none =>
      rw [List.find?_eq_none] at found₂
      exact (found₂ entry (perm.mem_iff.mp listed) (beq_iff_eq.mpr isKey)).elim
    | some other =>
      have otherListed := perm.mem_iff.mpr (List.mem_of_find?_eq_some found₂)
      have otherKey : other.1 = key := by simpa using List.find?_some found₂
      -- both entries carry the key, and the keys are distinct
      rw [List.inj_on_of_nodup_map distinct listed otherListed (isKey.trans otherKey.symm)]

theorem longest_perm {lengths₁ lengths₂ : List Nat} (perm : lengths₁.Perm lengths₂) :
    longest lengths₁ = longest lengths₂ :=
  longest_congr fun _ => perm.mem_iff

/-! ## The least offending constant name -/

/-- The least of some names is one of them, and none of them is less. -/
theorem Compiler.leastName?_least {names : List String} {least : String}
    (found : Compiler.leastName? names = some least) :
    least ∈ names ∧ ∀ name ∈ names, ¬name < least := by
  -- the fold reads the names from the left: induction on the last one
  induction names using List.reverseRecOn generalizing least with
  | nil => cases found
  | append_singleton names last inductionHypothesis =>
    simp only [Compiler.leastName?, List.foldl_append, List.foldl_cons, List.foldl_nil] at found
    split at found
    · next held before =>
      obtain ⟨listed, leastBefore⟩ := inductionHypothesis before
      split at found
      · next lower =>
        cases found
        refine ⟨List.mem_append_right _ (List.mem_singleton_self _), fun name mem => ?_⟩
        rcases List.mem_append.mp mem with old | new
        · exact fun below => leastBefore name old (lt_trans below lower)
        · rw [List.mem_singleton.mp new]
          exact lt_irrefl _
      · next notLower =>
        cases found
        refine ⟨List.mem_append_left _ listed, fun name mem => ?_⟩
        rcases List.mem_append.mp mem with old | new
        · exact leastBefore name old
        · rw [List.mem_singleton.mp new]
          exact notLower
    · next before =>
      cases found
      rw [Compiler.leastName?_eq_none before, List.nil_append]
      exact ⟨List.mem_singleton_self _, fun name mem => by
        rw [List.mem_singleton.mp mem]
        exact lt_irrefl _⟩

/-- The least of some names does not depend on their order. -/
theorem Compiler.leastName?_perm {names₁ names₂ : List String} (perm : names₁.Perm names₂) :
    Compiler.leastName? names₁ = Compiler.leastName? names₂ := by
  cases found₁ : Compiler.leastName? names₁ with
  | none =>
    rw [Compiler.leastName?_eq_none found₁] at perm
    rw [← perm.nil_eq]
    rfl
  | some least₁ =>
    cases found₂ : Compiler.leastName? names₂ with
    | none =>
      rw [Compiler.leastName?_eq_none found₂] at perm
      rw [perm.eq_nil] at found₁
      cases found₁
    | some least₂ =>
      obtain ⟨listed₁, lowest₁⟩ := Compiler.leastName?_least found₁
      obtain ⟨listed₂, lowest₂⟩ := Compiler.leastName?_least found₂
      -- neither is less than the other
      have notBelow := lowest₁ least₂ (perm.mem_iff.mpr listed₂)
      have notAbove := lowest₂ least₁ (perm.mem_iff.mp listed₁)
      rw [((lt_trichotomy least₁ least₂).resolve_left notAbove).resolve_right notBelow]

/-! ## Tables listed in another order -/

namespace ConstantTable

variable {t₁ t₂ : ConstantTable}

theorem names_perm (perm : t₁.entries.Perm t₂.entries) : t₁.names.Perm t₂.names :=
  perm.map _

theorem contains_perm (perm : t₁.entries.Perm t₂.entries) : t₁.contains = t₂.contains := by
  funext name
  unfold contains
  rw [Bool.eq_iff_iff, List.any_eq_true, List.any_eq_true]
  exact ⟨fun ⟨entry, listed, isName⟩ => ⟨entry, perm.mem_iff.mp listed, isName⟩,
    fun ⟨entry, listed, isName⟩ => ⟨entry, perm.mem_iff.mpr listed, isName⟩⟩

theorem find?_perm (perm : t₁.entries.Perm t₂.entries) (distinct : t₁.names.Nodup) :
    t₁.find? = t₂.find? := by
  funext name
  unfold find?
  rw [find?_key_perm perm distinct name]

/-- Registering a constant keeps the names of a table distinct. -/
theorem names_nodup_insert {t : ConstantTable} (distinct : t.names.Nodup) (name : String)
    (value : ComplexFloat) : (t.insert name value).names.Nodup := by
  unfold insert
  split
  · -- a name already present has its value replaced in place
    have same : (t.entries.map fun entry =>
        if entry.1 == name then (name, value) else entry).map (·.1) = t.names := by
      rw [List.map_map]
      refine List.map_congr_left fun entry _ => ?_
      by_cases isName : entry.1 = name
      · simp [isName]
      · simp [isName]
    unfold names
    rw [same]
    exact distinct
  · next absent =>
    -- a new name goes last
    show ((t.entries ++ [(name, value)]).map (·.1)).Nodup
    rw [List.map_append, List.nodup_append]
    refine ⟨distinct, List.nodup_singleton _, ?_⟩
    intro other held newName new same
    rw [List.map_singleton, List.mem_singleton] at new
    obtain ⟨entry, listed, rfl⟩ := List.mem_map.mp held
    exact absent (List.any_eq_true.mpr ⟨entry, listed, by rw [same, new, beq_self_eq_true]⟩)

/-- Every table built on the built-in one has distinct names. -/
theorem names_nodup_withExtra (extra : List (String × ComplexFloat)) :
    (withExtra extra).names.Nodup := by
  unfold withExtra
  -- each registration keeps the names distinct: induction on the entries, from any table
  suffices kept : ∀ t : ConstantTable, t.names.Nodup →
      (extra.foldl (fun table entry => table.insert entry.1 entry.2) t).names.Nodup from
    kept builtin (by decide)
  induction extra with
  | nil => exact fun t distinct => distinct
  | cons entry rest inductionHypothesis =>
    exact fun t distinct => inductionHypothesis _ (names_nodup_insert distinct entry.1 entry.2)

end ConstantTable

theorem Compiler.checkConstants_perm {t₁ t₂ : ConstantTable}
    (perm : t₁.entries.Perm t₂.entries) :
    Compiler.checkConstants t₁ = Compiler.checkConstants t₂ := by
  unfold Compiler.checkConstants
  rw [Compiler.leastName?_perm ((ConstantTable.names_perm perm).filter _)]

theorem Compiler.declareVariables_perm {t₁ t₂ : ConstantTable}
    (perm : t₁.entries.Perm t₂.entries) (names : List String) :
    Compiler.declareVariables t₁ names = Compiler.declareVariables t₂ names := by
  unfold Compiler.declareVariables
  rw [ConstantTable.contains_perm perm]

/-- Two scopes with the same constants, possibly listed in another order, and the same
declared variables; the constants have distinct names. -/
structure Scope.Reordered (s₁ s₂ : Scope) : Prop where
  constants : s₁.constants.entries.Perm s₂.constants.entries
  distinct : s₁.constants.names.Nodup
  variableNames : s₁.variableNames = s₂.variableNames

/-- Two workspaces with the same counters, occurrences and pending placeholders, these
possibly listed in another order; the placeholders are minted and distinct. -/
structure Workspace.Reordered (w₁ w₂ : Workspace) : Prop where
  minted : w₁.minted = w₂.minted
  nextLeaf : w₁.nextLeaf = w₂.nextLeaf
  occurrences : w₁.occurrences = w₂.occurrences
  pending : w₁.pending.Perm w₂.pending
  fresh : w₁.Fresh
  distinct : (w₁.pending.map (·.1)).Nodup

theorem Workspace.reordered_initial : Workspace.initial.Reordered Workspace.initial :=
  ⟨rfl, rfl, rfl, List.Perm.refl _, Workspace.fresh_initial, List.nodup_nil⟩

namespace Workspace.Reordered

variable {w₁ w₂ : Workspace}

theorem withMinted (reordered : w₁.Reordered w₂) (node : Tree) :
    (w₁.withMinted node).Reordered (w₂.withMinted node) where
  minted := congrArg (· + 1) reordered.minted
  nextLeaf := reordered.nextLeaf
  occurrences := reordered.occurrences
  pending := by
    simp only [Workspace.withMinted]
    rw [reordered.minted]
    exact reordered.pending.append_right _
  fresh := reordered.fresh.mint node
  distinct := reordered.fresh.nodup_mint reordered.distinct node

theorem without (reordered : w₁.Reordered w₂) (key : List Char) :
    (w₁.without key).Reordered (w₂.without key) where
  minted := reordered.minted
  nextLeaf := reordered.nextLeaf
  occurrences := reordered.occurrences
  pending := reordered.pending.filter _
  fresh entry kept := reordered.fresh entry (Workspace.mem_without kept)
  distinct := (List.filter_sublist.map _).nodup reordered.distinct

theorem withLeaf (reordered : w₁.Reordered w₂) (name : String) :
    (w₁.withLeaf name).Reordered (w₂.withLeaf name) where
  minted := reordered.minted
  nextLeaf := congrArg (· + 1) reordered.nextLeaf
  occurrences := by
    simp only [Workspace.withLeaf]
    rw [reordered.occurrences, reordered.nextLeaf]
  pending := reordered.pending
  fresh := reordered.fresh
  distinct := reordered.distinct

end Workspace.Reordered

section Searches

variable {s₁ s₂ : Scope} {w₁ w₂ : Workspace}

theorem constantOccurrences_perm (scopes : s₁.Reordered s₂) (text : List Char) :
    (constantOccurrences s₁ text).Perm (constantOccurrences s₂ text) := by
  unfold constantOccurrences variableRanges
  rw [scopes.variableNames]
  exact (((ConstantTable.names_perm scopes.constants).map _).filter _).filterMap _

/-- The entity a span splits around does not depend on the order of the tables. -/
theorem findEntity_reordered (scopes : s₁.Reordered s₂) (workspaces : w₁.Reordered w₂)
    (text : List Char) : findEntity s₁ w₁ text = findEntity s₂ w₂ text := by
  have placeholders := earliestLongest_perm
    (firstOccurrences_perm (workspaces.pending.map (·.1)) text)
    (occurring_firstOccurrences _ text)
  have constants := earliestLongest_perm (constantOccurrences_perm scopes text)
    (occurring_constantOccurrences s₁ text)
  unfold findEntity
  rw [placeholders, constants, scopes.variableNames]

theorem atomNames_perm (scopes : s₁.Reordered s₂) (workspaces : w₁.Reordered w₂) :
    (atomNames s₁ w₁).Perm (atomNames s₂ w₂) := by
  unfold atomNames
  rw [scopes.variableNames]
  exact (((workspaces.pending.map _).append
    ((ConstantTable.names_perm scopes.constants).map _)).append_right _).filter _

theorem trailingAtomLength_reordered (scopes : s₁.Reordered s₂) (workspaces : w₁.Reordered w₂)
    (head : List Char) : trailingAtomLength s₁ w₁ head = trailingAtomLength s₂ w₂ head := by
  unfold trailingAtomLength
  rw [longest_perm (((atomNames_perm scopes workspaces).filter _).map _)]

theorem leadingAtomLength_reordered (scopes : s₁.Reordered s₂) (workspaces : w₁.Reordered w₂)
    (tail : List Char) : leadingAtomLength s₁ w₁ tail = leadingAtomLength s₂ w₂ tail := by
  unfold leadingAtomLength
  dsimp only
  rw [longest_perm (((atomNames_perm scopes workspaces).filter _).map _)]

end Searches

/-! ## Runs side by side -/

/-- Two results of runs with tables listed in different orders: both failed with the same
error, or both succeeded with the same value and states that differ only in order. -/
def RunsReordered {α : Type} :
    Except CompileError (α × Workspace) → Except CompileError (α × Workspace) → Prop
  | .ok r₁, .ok r₂ => r₁.1 = r₂.1 ∧ r₁.2.Reordered r₂.2
  | .error e₁, .error e₂ => e₁ = e₂
  | _, _ => False

/-- What is read off two runs so related, the value and the occurrence index, is the same. -/
theorem RunsReordered.bind_eq {α β : Type} {x₁ x₂ : Except CompileError (α × Workspace)}
    (runs : RunsReordered x₁ x₂) {g : α × Workspace → Except CompileError β}
    (reads : ∀ a w₁ w₂, w₁.Reordered w₂ → g (a, w₁) = g (a, w₂)) : x₁ >>= g = x₂ >>= g := by
  cases x₁ with
  | error e₁ =>
    cases x₂ with
    | error e₂ =>
      rw [show e₁ = e₂ from runs]
    | ok r₂ => exact runs.elim
  | ok r₁ =>
    cases x₂ with
    | error e₂ => exact runs.elim
    | ok r₂ =>
      obtain ⟨a₁, v₁⟩ := r₁
      obtain ⟨a₂, v₂⟩ := r₂
      obtain ⟨same, reordered⟩ := runs
      dsimp only at same
      subst same
      exact reads a₁ v₁ v₂ reordered

/-- Two computations that, from any two states differing only in order, run so. -/
def Resolve.Reorders {α : Type} (x₁ x₂ : Resolve α) : Prop :=
  ∀ w₁ w₂, w₁.Reordered w₂ → RunsReordered (x₁ w₁) (x₂ w₂)

namespace Resolve.Reorders

variable {α β : Type}

theorem pure (a : α) : Reorders (pure a : Resolve α) (pure a) := fun _ _ reordered =>
  ⟨rfl, reordered⟩

theorem thrown (e : CompileError) : Reorders (throw e : Resolve α) (throw e) :=
  fun _ _ _ => rfl

theorem unparseableToken (text : List Char) :
    Reorders (unparseable text : Resolve α) (unparseable text) :=
  thrown _

theorem bind {x₁ x₂ : Resolve α} {f₁ f₂ : α → Resolve β} (first : Reorders x₁ x₂)
    (rest : ∀ a, Reorders (f₁ a) (f₂ a)) : Reorders (x₁ >>= f₁) (x₂ >>= f₂) := by
  intro w₁ w₂ reordered
  have ran := first w₁ w₂ reordered
  change RunsReordered (x₁ w₁ >>= fun r => f₁ r.1 r.2) (x₂ w₂ >>= fun r => f₂ r.1 r.2)
  -- the first runs fail together with one error, or succeed together
  cases ran₁ : x₁ w₁ with
  | error e₁ =>
    cases ran₂ : x₂ w₂ with
    | error e₂ =>
      rw [ran₁, ran₂] at ran
      exact ran
    | ok r₂ =>
      rw [ran₁, ran₂] at ran
      exact ran.elim
  | ok r₁ =>
    cases ran₂ : x₂ w₂ with
    | error e₂ =>
      rw [ran₁, ran₂] at ran
      exact ran.elim
    | ok r₂ =>
      rw [ran₁, ran₂] at ran
      obtain ⟨same, later⟩ := ran
      show RunsReordered (f₁ r₁.1 r₁.2) (f₂ r₂.1 r₂.2)
      rw [same]
      exact rest r₂.1 r₁.2 r₂.2 later

theorem get_bind {f₁ f₂ : Workspace → Resolve α}
    (rest : ∀ w₁ w₂, w₁.Reordered w₂ → Reorders (f₁ w₁) (f₂ w₂)) :
    Reorders (get >>= f₁) (get >>= f₂) := by
  intro w₁ w₂ reordered
  rw [Resolve.bind_of_ok (Resolve.get_apply w₁), Resolve.bind_of_ok (Resolve.get_apply w₂)]
  exact rest w₁ w₂ reordered w₁ w₂ reordered

end Resolve.Reorders

/-! ## The resolvers -/

section Resolvers

open Resolve

variable {s₁ s₂ : Scope}

theorem mint_reorders (node : Tree) : Reorders (mint node) (mint node) := by
  intro w₁ w₂ reordered
  rw [mint_apply, mint_apply]
  exact ⟨congrArg (· + 1) reordered.minted, reordered.withMinted node⟩

theorem newVariable_reorders (same : s₁.variableNames = s₂.variableNames) (slot : Nat) :
    Reorders (newVariable s₁ slot) (newVariable s₂ slot) := by
  intro w₁ w₂ reordered
  show RunsReordered (.ok (Tree.var w₁.nextLeaf slot,
      w₁.withLeaf ((s₁.variableNames[slot]?).getD "")))
    (.ok (Tree.var w₂.nextLeaf slot, w₂.withLeaf ((s₂.variableNames[slot]?).getD "")))
  rw [same]
  exact ⟨by rw [reordered.nextLeaf], reordered.withLeaf _⟩

theorem takePlaceholder_reorders (key : List Char) :
    Reorders (takePlaceholder key) (takePlaceholder key) := by
  unfold takePlaceholder
  refine Reorders.get_bind fun w₁ w₂ reordered => ?_
  rw [find?_key_perm reordered.pending reordered.distinct key]
  cases w₂.pending.find? (·.1 == key) with
  | some entry => exact fun _ _ _ => ⟨rfl, reordered.without key⟩
  | none => exact Reorders.unparseableToken key

variable (scopes : s₁.Reordered s₂)
include scopes

theorem entityNode_reorders (name : List Char) (entity : Entity) :
    Reorders (entityNode s₁ name entity) (entityNode s₂ name entity) := by
  -- the constructors are the placeholder, a constant and a variable
  rcases entity with _ | _ | slot
  · exact takePlaceholder_reorders name
  · simp only [entityNode]
    rw [ConstantTable.find?_perm scopes.constants scopes.distinct]
    cases s₂.constants.find? (String.ofList name) with
    | some value => exact Reorders.pure _
    | none => exact Reorders.unparseableToken name
  · exact newVariable_reorders scopes.variableNames slot

theorem resolveLeaf_reorders (text : List Char) :
    Reorders (resolveLeaf s₁ text) (resolveLeaf s₂ text) := by
  induction text using resolveLeaf.induct with
  | case1 =>
    rw [resolveLeaf, resolveLeaf, if_pos rfl, if_pos rfl]
    exact Reorders.pure _
  | case2 =>
    rw [resolveLeaf, resolveLeaf, if_neg (by decide), if_pos rfl, if_neg (by decide), if_pos rfl]
    exact Reorders.pure _
  | case3 text notMinus notPlus value valued =>
    rw [resolveLeaf, resolveLeaf, if_neg notMinus, if_neg notPlus, if_neg notMinus,
      if_neg notPlus]
    simp only [valued]
    exact Reorders.pure _
  | case4 text notMinus notPlus notValued afterHypothesis beforeHypothesis =>
    rw [resolveLeaf, resolveLeaf, if_neg notMinus, if_neg notPlus, if_neg notMinus,
      if_neg notPlus]
    simp only [notValued]
    refine Reorders.get_bind fun w₁ w₂ reordered => ?_
    rw [findEntity_reordered scopes reordered]
    cases findEntity s₂ w₂ text with
    | none => exact Reorders.unparseableToken _
    | some found =>
      obtain ⟨span, entity⟩ := found
      -- the entity, then the parts before and after it, each a shorter span
      refine Reorders.bind (entityNode_reorders scopes _ entity) fun matched => ?_
      have afterPart : ∀ withBefore,
          Reorders
            (if (text.drop (span.start + span.length)).isEmpty then Pure.pure withBefore else do
              let right ← resolveLeaf s₁ (text.drop (span.start + span.length))
              Pure.pure (Tree.binary .mul withBefore right) : Resolve Tree)
            (if (text.drop (span.start + span.length)).isEmpty then Pure.pure withBefore else do
              let right ← resolveLeaf s₂ (text.drop (span.start + span.length))
              Pure.pure (Tree.binary .mul withBefore right) : Resolve Tree) := by
        intro withBefore
        split
        · exact Reorders.pure _
        · exact Reorders.bind (afterHypothesis span) fun _ => Reorders.pure _
      split
      · exact Reorders.bind (Reorders.pure _) afterPart
      · exact Reorders.bind (beforeHypothesis span) fun _ =>
          Reorders.bind (Reorders.pure _) afterPart

theorem resolveProduct_reorders (text : List Char) :
    Reorders (resolveProduct s₁ text) (resolveProduct s₂ text) := by
  induction text using resolveProduct.induct with
  | case1 text idx found inductionHypothesis =>
    rw [resolveProduct_of_some found, resolveProduct_of_some found]
    exact Reorders.bind (resolveLeaf_reorders scopes _) fun _ =>
      Reorders.bind inductionHypothesis fun _ => Reorders.pure _
  | case2 text noneFound =>
    rw [resolveProduct_of_none noneFound, resolveProduct_of_none noneFound]
    exact resolveLeaf_reorders scopes text

theorem resolveSum_reorders (text : List Char) :
    Reorders (resolveSum s₁ text) (resolveSum s₂ text) := by
  induction text using resolveSum.induct with
  | case1 text idx found inductionHypothesis =>
    rw [resolveSum_of_some found, resolveSum_of_some found]
    exact Reorders.bind inductionHypothesis fun _ =>
      Reorders.bind (resolveProduct_reorders scopes _) fun _ => Reorders.pure _
  | case2 text noneFound =>
    rw [resolveSum_of_none noneFound, resolveSum_of_none noneFound]
    exact resolveProduct_reorders scopes text

theorem resolvePowers_reorders (text : List Char) :
    Reorders (resolvePowers s₁ text) (resolvePowers s₂ text) := by
  induction text using resolvePowers.induct with
  | case1 text noneFound =>
    rw [resolvePowers_of_none noneFound, resolvePowers_of_none noneFound]
    exact Reorders.pure _
  | case2 text pos found inductionHypothesis =>
    rw [resolvePowers_of_some found, resolvePowers_of_some found]
    refine Reorders.get_bind fun w₁ w₂ reordered => ?_
    -- both runs read the same operand lengths
    rw [trailingAtomLength_reordered scopes reordered,
      leadingAtomLength_reordered scopes reordered]
    cases trailingAtomLength s₂ w₂ (text.take pos) with
    | none => exact Reorders.unparseableToken _
    | some baseLength =>
      cases leadingAtomLength s₂ w₂ (text.drop (pos + 1)) with
      | none => exact Reorders.unparseableToken _
      | some exponentLength =>
        exact Reorders.bind (resolveLeaf_reorders scopes _) fun _ =>
          Reorders.bind (resolveLeaf_reorders scopes _) fun _ =>
            Reorders.bind (mint_reorders _) fun n => inductionHypothesis _ _ n

theorem resolveOperators_reorders (text : List Char) :
    Reorders (resolveOperators s₁ text) (resolveOperators s₂ text) := by
  unfold resolveOperators
  cases text.getLast? with
  | none => exact Reorders.unparseableToken _
  | some last =>
    dsimp only
    by_cases operator : isOperatorChar last = true
    · rw [if_pos operator, if_pos operator]
      exact Reorders.unparseableToken _
    · rw [if_neg operator, if_neg operator]
      exact Reorders.bind (resolvePowers_reorders scopes text) (resolveSum_reorders scopes)

/-- Resolving a text does not depend on the order of the tables: the runs fail with the same
error, or give the same tree with the same counters and occurrences. -/
theorem resolveExpression_reorders (text : List Char) :
    Reorders (resolveExpression s₁ text) (resolveExpression s₂ text) := by
  induction text using resolveExpression.induct with
  | case1 text opening found unclosed =>
    rw [resolveExpression_of_unclosed found unclosed, resolveExpression_of_unclosed found unclosed]
    exact Reorders.thrown _
  | case2 text opening found offset closes _ _ _ innerHypothesis restHypothesis =>
    rw [resolveExpression_of_group found closes, resolveExpression_of_group found closes]
    exact Reorders.bind innerHypothesis fun _ => Reorders.bind (mint_reorders _) restHypothesis
  | case3 text noneFound closing =>
    rw [resolveExpression_of_none noneFound, resolveExpression_of_none noneFound,
      if_pos closing, if_pos closing]
    exact Reorders.thrown _
  | case4 text noneFound notClosing operators =>
    rw [resolveExpression_of_none noneFound, resolveExpression_of_none noneFound,
      if_neg notClosing, if_neg notClosing, if_pos operators, if_pos operators]
    exact resolveOperators_reorders scopes text
  | case5 text noneFound notClosing noOperators =>
    rw [resolveExpression_of_none noneFound, resolveExpression_of_none noneFound,
      if_neg notClosing, if_neg notClosing, if_neg noOperators, if_neg noOperators]
    exact resolveLeaf_reorders scopes text

end Resolvers

/-! ## Compilation -/

/-- Compiling with a constant table listed in another order gives the same answer: the same
tree, variables and occurrences, or the same error. -/
theorem Compiler.compile_eq_of_perm {c₁ c₂ : Compiler}
    (constants : c₁.constants.entries.Perm c₂.constants.entries)
    (distinct : c₁.constants.names.Nodup) (glyphs : c₁.glyphs = c₂.glyphs)
    (folding : c₁.folding = c₂.folding) (expression : String) (names : List String) :
    c₁.compile expression names = c₂.compile expression names := by
  obtain ⟨t₁, g, f⟩ := c₁
  obtain ⟨t₂, g₂, f₂⟩ := c₂
  dsimp only at constants distinct glyphs folding
  subst glyphs folding
  unfold Compiler.compile
  rw [Compiler.checkConstants_perm constants, Compiler.declareVariables_perm constants]
  -- the same text, checks and declared variables; then the two resolutions
  cases normalize g expression with
  | error e => rfl
  | ok text =>
    cases Compiler.checkConstants t₂ with
    | error e => rfl
    | ok u =>
      cases Compiler.declareVariables t₂ names with
      | error e => rfl
      | ok declared =>
        have scopes : Scope.Reordered ⟨t₁, declared⟩ ⟨t₂, declared⟩ := ⟨constants, distinct, rfl⟩
        have runs := resolveExpression_reorders scopes text.toList _ _ Workspace.reordered_initial
        exact runs.bind_eq fun raw w₁ w₂ reordered => by
          dsimp only
          rw [reordered.occurrences]

/-- Compilation does not depend on the order of its tables. Listing the constants of a table
in another order gives the same answer, and every table built on the built-in one has the
distinct names this asks for; resolving a text from workspaces whose pending placeholders are
listed in other orders fails with the same error, or gives the same tree, counters and
occurrences. -/
theorem compile_independent_of_table_order :
    (∀ (c₁ c₂ : Compiler) (expression : String) (names : List String),
      c₁.constants.entries.Perm c₂.constants.entries → c₁.constants.names.Nodup →
      c₁.glyphs = c₂.glyphs → c₁.folding = c₂.folding →
      c₁.compile expression names = c₂.compile expression names) ∧
    (∀ extra, (ConstantTable.withExtra extra).names.Nodup) ∧
    (∀ (s₁ s₂ : Scope) (text : List Char) (w₁ w₂ : Workspace), s₁.Reordered s₂ →
      w₁.Reordered w₂ →
      RunsReordered (resolveExpression s₁ text w₁) (resolveExpression s₂ text w₂)) :=
  ⟨fun _ _ expression names constants distinct glyphs folding =>
      Compiler.compile_eq_of_perm constants distinct glyphs folding expression names,
    ConstantTable.names_nodup_withExtra,
    fun _ _ text w₁ w₂ scopes workspaces =>
      resolveExpression_reorders scopes text w₁ w₂ workspaces⟩

/-- The built-in table listed backwards compiles `2pi*x` as the table does, and two pending
placeholders listed in either order are resolved alike. -/
theorem compile_reversed_builtin :
    (Compiler.standard.constants.entries.Perm ConstantTable.builtin.entries.reverse ∧
      Compiler.standard.constants.names.Nodup ∧
      Compiler.standard.compile "2pi*x" ["x"] =
        Compiler.compile ⟨⟨ConstantTable.builtin.entries.reverse⟩, BracketGlyphs.standard, true⟩
          "2pi*x" ["x"]) ∧
    (Scope.Reordered ⟨ConstantTable.builtin, ["x"]⟩
        ⟨⟨ConstantTable.builtin.entries.reverse⟩, ["x"]⟩ ∧
      Workspace.Reordered
        ⟨2, 1, [(placeholderText 1, .var 0 0), (placeholderText 2, .var 1 0)],
          OccurrenceIndex.empty⟩
        ⟨2, 1, [(placeholderText 2, .var 1 0), (placeholderText 1, .var 0 0)],
          OccurrenceIndex.empty⟩ ∧
      RunsReordered
        (resolveExpression ⟨ConstantTable.builtin, ["x"]⟩ "|_1_|*|_2_|".toList
          ⟨2, 1, [(placeholderText 1, .var 0 0), (placeholderText 2, .var 1 0)],
            OccurrenceIndex.empty⟩)
        (resolveExpression ⟨⟨ConstantTable.builtin.entries.reverse⟩, ["x"]⟩ "|_1_|*|_2_|".toList
          ⟨2, 1, [(placeholderText 2, .var 1 0), (placeholderText 1, .var 0 0)],
            OccurrenceIndex.empty⟩)) := by
  have reversed := (List.reverse_perm ConstantTable.builtin.entries).symm
  have distinct := compile_independent_of_table_order.2.1 []
  have scopes : Scope.Reordered ⟨ConstantTable.builtin, ["x"]⟩
      ⟨⟨ConstantTable.builtin.entries.reverse⟩, ["x"]⟩ := ⟨reversed, distinct, rfl⟩
  have workspaces : Workspace.Reordered
      ⟨2, 1, [(placeholderText 1, .var 0 0), (placeholderText 2, .var 1 0)], OccurrenceIndex.empty⟩
      ⟨2, 1, [(placeholderText 2, .var 1 0), (placeholderText 1, .var 0 0)],
        OccurrenceIndex.empty⟩ := by
    refine ⟨rfl, rfl, rfl, List.Perm.swap _ _ _, fun entry held => ?_, by decide⟩
    simp only [List.mem_cons, List.not_mem_nil, or_false] at held
    rcases held with rfl | rfl
    · exact ⟨1, by decide, rfl⟩
    · exact ⟨2, by decide, rfl⟩
  exact ⟨⟨reversed, distinct,
      compile_independent_of_table_order.1 _ _ "2pi*x" ["x"] reversed distinct rfl rfl⟩,
    scopes, workspaces,
    compile_independent_of_table_order.2.2 _ _ "|_1_|*|_2_|".toList _ _ scopes workspaces⟩

end ComplexFormula
