import ComplexFormula.Proofs.Precedence
import ComplexFormula.Proofs.Registry

/-!
# What a run of the resolvers takes and makes

The resolvers share one workspace: the subtrees of the placeholders still in the text, the
counters of placeholders and leaves, and the occurrence index. This module keeps its books.
A workspace is `Sound` when its pending placeholders are distinct and already minted, its
index is ordered and lists each leaf number below the counter under one name, and every leaf
of a pending subtree is registered under the name of its slot. Every run keeps this, and a
run that resolves a text into a tree (`Resolved`) balances two accounts:

* bars: the bars of the text, two for each placeholder the run takes out of the pending ones,
  less two for each it leaves pending (`Resolved.bars`);
* leaves: the leaf numbers of the tree and of the pending subtrees afterwards are those of the
  pending subtrees before and those the run created, each as often (`Resolved.leaves`).

Each resolver is shown to keep the books by induction along its own recursion; the power
pass, which rewrites text into text, balances the same accounts (`Rewrote`).
-/

namespace ComplexFormula

/-! ## Running resolvers -/

theorem Resolve.bind_eq_ok {α β : Type} {x : Resolve α} {f : α → Resolve β} {w : Workspace}
    {r : β × Workspace} :
    (x >>= f) w = .ok r ↔ ∃ a w₁, x w = .ok (a, w₁) ∧ f a w₁ = .ok r := by
  show (x w >>= fun p => f p.1 p.2) = .ok r ↔ _
  cases ran : x w with
  | error e => simp [bind, Except.bind]
  | ok p =>
    obtain ⟨a, w₁⟩ := p
    simp only [bind, Except.bind, Except.ok.injEq, Prod.mk.injEq]
    constructor
    · intro rest
      exact ⟨a, w₁, ⟨rfl, rfl⟩, rest⟩
    · rintro ⟨_, _, ⟨rfl, rfl⟩, rest⟩
      exact rest

theorem Resolve.pure_eq_ok {α : Type} {a : α} {w : Workspace} {r : α × Workspace}
    (ran : (pure a : Resolve α) w = .ok r) : r = (a, w) :=
  (Except.ok.inj ran).symm

/-- A successful run of two computations whose results are then joined. -/
theorem Resolve.bind_bind_pure_eq_ok {α β γ : Type} {x : Resolve α} {y : Resolve β}
    {f : α → β → γ} {w w' : Workspace} {t : γ}
    (ran : (do let a ← x; let b ← y; pure (f a b)) w = .ok (t, w')) :
    ∃ a w₁ b, x w = .ok (a, w₁) ∧ y w₁ = .ok (b, w') ∧ t = f a b := by
  obtain ⟨a, w₁, first, rest⟩ := Resolve.bind_eq_ok.mp ran
  obtain ⟨b, w₂, second, joined⟩ := Resolve.bind_eq_ok.mp rest
  obtain ⟨rfl, rfl⟩ := Prod.mk.inj (Resolve.pure_eq_ok joined)
  exact ⟨a, w₁, b, first, second, rfl⟩

theorem Resolve.unparseable_ne_ok {α : Type} {text : List Char} {w : Workspace}
    {r : α × Workspace} : (unparseable text : Resolve α) w ≠ .ok r := by
  intro ran
  cases ran

/-- What a successful run of the leaf resolver did on a span that is no lone sign and no
literal: it found an entity and made its subtree, then resolved the text before the entity
and the text after it, each when there is some, joining the trees by products. -/
theorem resolveLeaf_around_entity {scope : Scope} {text : List Char} {w w' : Workspace}
    {t : Tree} (notMinus : text ≠ ['-']) (notPlus : text ≠ ['+'])
    (notLiteral : Literal.value? text = none) (ran : resolveLeaf scope text w = .ok (t, w')) :
    ∃ (span : Span text) (entity : Entity) (matched withBefore : Tree) (w₁ w₂ : Workspace),
      findEntity scope w text = some (span, entity) ∧
      entityNode scope (Text.slice text span.start (span.start + span.length)) entity w =
        .ok (matched, w₁) ∧
      ((text.take span.start = [] ∧ withBefore = matched ∧ w₂ = w₁) ∨
        ∃ left, text.take span.start ≠ [] ∧
          resolveLeaf scope (text.take span.start) w₁ = .ok (left, w₂) ∧
          withBefore = .binary .mul left matched) ∧
      ((text.drop (span.start + span.length) = [] ∧ t = withBefore ∧ w' = w₂) ∨
        ∃ right, text.drop (span.start + span.length) ≠ [] ∧
          resolveLeaf scope (text.drop (span.start + span.length)) w₂ = .ok (right, w') ∧
          t = .binary .mul withBefore right) := by
  rw [resolveLeaf, if_neg notMinus, if_neg notPlus] at ran
  simp only [notLiteral] at ran
  rw [Resolve.bind_of_ok (Resolve.get_apply w)] at ran
  cases found : findEntity scope w text with
  | none =>
    simp only [found] at ran
    exact absurd ran Resolve.unparseable_ne_ok
  | some entry =>
    obtain ⟨span, entity⟩ := entry
    simp only [found] at ran
    obtain ⟨matched, w₁, made, rest⟩ := Resolve.bind_eq_ok.mp ran
    -- the text after the entity is resolved last, whatever came before it
    have afterCases : ∀ withBefore w₂,
        (if (text.drop (span.start + span.length)).isEmpty then pure withBefore else do
          let right ← resolveLeaf scope (text.drop (span.start + span.length))
          pure (Tree.binary .mul withBefore right)) w₂ = .ok (t, w') →
        (text.drop (span.start + span.length) = [] ∧ t = withBefore ∧ w' = w₂) ∨
          ∃ right, text.drop (span.start + span.length) ≠ [] ∧
            resolveLeaf scope (text.drop (span.start + span.length)) w₂ = .ok (right, w') ∧
            t = .binary .mul withBefore right := by
      intro withBefore w₂ afterRun
      by_cases noAfter : (text.drop (span.start + span.length)).isEmpty = true
      · simp only [noAfter, if_true] at afterRun
        obtain ⟨rfl, rfl⟩ := Prod.mk.inj (Resolve.pure_eq_ok afterRun)
        exact Or.inl ⟨List.isEmpty_iff.mp noAfter, rfl, rfl⟩
      · simp only [noAfter, Bool.false_eq_true, if_false] at afterRun
        obtain ⟨right, w₃, rightRun, joined⟩ := Resolve.bind_eq_ok.mp afterRun
        obtain ⟨rfl, rfl⟩ := Prod.mk.inj (Resolve.pure_eq_ok joined)
        exact Or.inr ⟨right, fun empty => noAfter (List.isEmpty_iff.mpr empty), rightRun, rfl⟩
    by_cases noBefore : (text.take span.start).isEmpty = true
    · simp only [noBefore, if_true] at rest
      rw [Resolve.bind_of_ok (Resolve.pure_apply _ _)] at rest
      exact ⟨span, entity, matched, matched, w₁, w₁, rfl, made,
        Or.inl ⟨List.isEmpty_iff.mp noBefore, rfl, rfl⟩, afterCases _ _ rest⟩
    · simp only [noBefore, Bool.false_eq_true, if_false] at rest
      obtain ⟨left, w₂, leftRun, rest⟩ := Resolve.bind_eq_ok.mp rest
      rw [Resolve.bind_of_ok (Resolve.pure_apply _ _)] at rest
      exact ⟨span, entity, matched, _, w₁, w₂, rfl, made,
        Or.inr ⟨left, fun empty => noBefore (List.isEmpty_iff.mpr empty), leftRun, rfl⟩,
        afterCases _ _ rest⟩

/-! ## The books of a workspace -/

/-- The leaves of the subtrees still pending. -/
def Workspace.pendingLeaves (w : Workspace) : List (Nat × Nat) := w.pending.flatMap (·.2.leaves)

/-- The leaf numbers created on the way from `w` to `w'`. -/
def Workspace.createdLeaves (w w' : Workspace) : List Nat :=
  List.range' w.nextLeaf (w'.nextLeaf - w.nextLeaf)

/-- A leaf is registered: its slot has a declared name, and the index lists the leaf under
that name. -/
def Scope.Registered (scope : Scope) (index : OccurrenceIndex) (leaf : Nat × Nat) : Prop :=
  ∃ name, scope.variableNames[leaf.2]? = some name ∧ index.Mem name leaf.1

/-- What every state of a compilation satisfies. -/
structure Workspace.Sound (scope : Scope) (w : Workspace) : Prop where
  fresh : w.Fresh
  distinct : (w.pending.map (·.1)).Nodup
  ordered : w.occurrences.Ordered
  below : ∀ name leaf, w.occurrences.Mem name leaf → leaf < w.nextLeaf
  oneName : ∀ name name' leaf, w.occurrences.Mem name leaf → w.occurrences.Mem name' leaf →
    name = name'
  registered : ∀ leaf ∈ w.pendingLeaves, scope.Registered w.occurrences leaf

theorem Workspace.sound_initial (scope : Scope) : Workspace.initial.Sound scope where
  fresh := Workspace.fresh_initial
  distinct := List.nodup_nil
  ordered := OccurrenceIndex.ordered_empty
  below name leaf listed := absurd listed (OccurrenceIndex.not_mem_empty name leaf)
  oneName name _ leaf listed := absurd listed (OccurrenceIndex.not_mem_empty name leaf)
  registered leaf held := by cases held

/-- What a run from `w` to `w'` keeps: soundness, counters that only grow, an index that only
grows, and no pending placeholder but those pending before and those minted on the way. -/
structure Workspace.Ran (scope : Scope) (w w' : Workspace) : Prop where
  sound : w'.Sound scope
  minted : w.minted ≤ w'.minted
  nextLeaf : w.nextLeaf ≤ w'.nextLeaf
  indexed : ∀ name leaf, w.occurrences.Mem name leaf → w'.occurrences.Mem name leaf
  kept : ∀ entry ∈ w'.pending, entry ∈ w.pending ∨
    ∃ n, w.minted < n ∧ entry.1 = placeholderText n

namespace Workspace.Ran

variable {scope : Scope} {w w₁ w₂ : Workspace}

theorem refl (sound : w.Sound scope) : w.Ran scope w :=
  ⟨sound, Nat.le_refl _, Nat.le_refl _, fun _ _ listed => listed, fun _ held => Or.inl held⟩

theorem trans (first : w.Ran scope w₁) (second : w₁.Ran scope w₂) : w.Ran scope w₂ where
  sound := second.sound
  minted := Nat.le_trans first.minted second.minted
  nextLeaf := Nat.le_trans first.nextLeaf second.nextLeaf
  indexed name leaf listed := second.indexed name leaf (first.indexed name leaf listed)
  kept entry held := by
    rcases second.kept entry held with old | ⟨n, later, key⟩
    · exact first.kept entry old
    · exact Or.inr ⟨n, Nat.lt_of_le_of_lt first.minted later, key⟩

/-- A registered leaf stays registered. -/
theorem registered (ran : w.Ran scope w') {leaf : Nat × Nat}
    (before : scope.Registered w.occurrences leaf) : scope.Registered w'.occurrences leaf := by
  obtain ⟨name, named, listed⟩ := before
  exact ⟨name, named, ran.indexed name leaf.1 listed⟩

end Workspace.Ran

theorem count_createdLeaves_self (w : Workspace) (leaf : Nat) :
    (w.createdLeaves w).count leaf = 0 := by
  simp [Workspace.createdLeaves]

/-- The leaves created on the way through a middle state are those created on the way there
and those created after it. -/
theorem count_createdLeaves_trans {w w₁ w₂ : Workspace} (first : w.nextLeaf ≤ w₁.nextLeaf)
    (second : w₁.nextLeaf ≤ w₂.nextLeaf) (leaf : Nat) :
    (w.createdLeaves w₁).count leaf + (w₁.createdLeaves w₂).count leaf =
      (w.createdLeaves w₂).count leaf := by
  unfold Workspace.createdLeaves
  rw [← List.count_append]
  congr 1
  have whole : w₂.nextLeaf - w.nextLeaf = (w₁.nextLeaf - w.nextLeaf) +
      (w₂.nextLeaf - w₁.nextLeaf) := by omega
  rw [whole, ← List.range'_append_1, show w.nextLeaf + (w₁.nextLeaf - w.nextLeaf) = w₁.nextLeaf
    by omega]

/-! ## Resolving a text into a tree -/

/-- A run from `w` to `w'` that resolved a text holding `bars` bars into `t`: its leaves are
registered, each pending placeholder it took accounts for two bars of the text, and its leaf
numbers, with those left pending, are those pending before and those it created. -/
structure Resolved (scope : Scope) (bars : Nat) (w : Workspace) (t : Tree) (w' : Workspace) :
    Prop where
  ran : w.Ran scope w'
  registered : ∀ leaf ∈ t.leaves, scope.Registered w'.occurrences leaf
  bars : bars + 2 * w'.pending.length = 2 * w.pending.length
  leaves : ∀ leaf, (t.leaves.map (·.1)).count leaf + (w'.pendingLeaves.map (·.1)).count leaf =
    (w.pendingLeaves.map (·.1)).count leaf + (w.createdLeaves w').count leaf

namespace Resolved

variable {scope : Scope} {w w₁ w₂ : Workspace}

theorem const (sound : w.Sound scope) (z : ComplexFloat) : Resolved scope 0 w (.const z) w where
  ran := .refl sound
  registered leaf held := by cases held
  bars := by omega
  leaves leaf := by simp [Tree.leaves, count_createdLeaves_self]

/-- Two runs one after the other, their trees joined by an operator. -/
theorem binary {b₁ b₂ : Nat} {t₁ t₂ : Tree} (first : Resolved scope b₁ w t₁ w₁)
    (second : Resolved scope b₂ w₁ t₂ w₂) (op : BinaryOp) :
    Resolved scope (b₁ + b₂) w (.binary op t₁ t₂) w₂ where
  ran := first.ran.trans second.ran
  registered leaf held := by
    rcases List.mem_append.mp held with left | right
    · exact second.ran.registered (first.registered leaf left)
    · exact second.registered leaf right
  bars := by
    have := first.bars
    have := second.bars
    omega
  leaves leaf := by
    have firstCount := first.leaves leaf
    have secondCount := second.leaves leaf
    have created := count_createdLeaves_trans first.ran.nextLeaf second.ran.nextLeaf leaf
    simp only [Tree.leaves, List.map_append, List.count_append]
    omega

/-- The operands of a joined tree may stand in either order. -/
theorem swap {b : Nat} {t₁ t₂ : Tree} {op : BinaryOp} (resolved : Resolved scope b w
    (.binary op t₁ t₂) w₁) (op' : BinaryOp) : Resolved scope b w (.binary op' t₂ t₁) w₁ where
  ran := resolved.ran
  registered leaf held := resolved.registered leaf (by
    simp only [Tree.leaves, List.mem_append] at held ⊢
    exact held.symm)
  bars := resolved.bars
  leaves leaf := by
    have := resolved.leaves leaf
    simp only [Tree.leaves, List.map_append, List.count_append] at this ⊢
    omega

end Resolved

/-! ## The steps of a run -/

/-- The workspace after minting a placeholder for `node`. -/
def Workspace.withMinted (w : Workspace) (node : Tree) : Workspace :=
  { w with minted := w.minted + 1,
           pending := w.pending ++ [(placeholderText (w.minted + 1), node)] }

/-- The workspace after taking the placeholder `key` out of the pending ones. -/
def Workspace.without (w : Workspace) (key : List Char) : Workspace :=
  { w with pending := w.pending.filter (·.1 != key) }

/-- The workspace after creating a leaf for a variable called `name`. -/
def Workspace.withLeaf (w : Workspace) (name : String) : Workspace :=
  { w with nextLeaf := w.nextLeaf + 1, occurrences := w.occurrences.register name w.nextLeaf }

theorem mint_apply (node : Tree) (w : Workspace) :
    mint node w = .ok (w.minted + 1, w.withMinted node) := rfl

/-- What a successful run of the power pass did at its first `^`: it read the base the text
before ends with and the exponent the text after starts with, resolved both, minted their
power, and went on with the text that holds its placeholder in their place. -/
theorem resolvePowers_step_eq_ok {scope : Scope} {text flat : List Char} {pos : Nat}
    {w w' : Workspace} (found : text.findIdx? (· == '^') = some pos)
    (ran : resolvePowers scope text w = .ok (flat, w')) :
    ∃ (baseLength exponentLength : Nat) (base exponent : Tree) (w₁ w₂ : Workspace),
      trailingAtomLength scope w (text.take pos) = some baseLength ∧
      leadingAtomLength scope w (text.drop (pos + 1)) = some exponentLength ∧
      resolveLeaf scope ((text.take pos).drop (pos - baseLength)) w = .ok (base, w₁) ∧
      resolveLeaf scope ((text.drop (pos + 1)).take exponentLength) w₁ = .ok (exponent, w₂) ∧
      resolvePowers scope (Text.splice text (pos - baseLength) (pos + 1 + exponentLength)
        (placeholderText (w₂.minted + 1))) (w₂.withMinted (.binary .pow base exponent)) =
          .ok (flat, w') := by
  rw [resolvePowers_of_some found, Resolve.bind_of_ok (Resolve.get_apply w)] at ran
  cases trailing : trailingAtomLength scope w (text.take pos) with
  | none =>
    simp only [trailing] at ran
    exact absurd ran Resolve.unparseable_ne_ok
  | some baseLength =>
    cases leading : leadingAtomLength scope w (text.drop (pos + 1)) with
    | none =>
      simp only [trailing, leading] at ran
      exact absurd ran Resolve.unparseable_ne_ok
    | some exponentLength =>
      simp only [trailing, leading] at ran
      obtain ⟨base, w₁, baseRun, ran⟩ := Resolve.bind_eq_ok.mp ran
      obtain ⟨exponent, w₂, exponentRun, ran⟩ := Resolve.bind_eq_ok.mp ran
      rw [Resolve.bind_of_ok (mint_apply _ w₂)] at ran
      exact ⟨baseLength, exponentLength, base, exponent, w₁, w₂, rfl, rfl, baseRun, exponentRun,
        ran⟩

section Steps

variable {scope : Scope} {w w' : Workspace}

/-- Minting keeps a workspace sound when the leaves of the minted tree are registered. -/
theorem Workspace.Sound.withMinted (sound : w.Sound scope) {node : Tree}
    (registered : ∀ leaf ∈ node.leaves, scope.Registered w.occurrences leaf) :
    (w.withMinted node).Sound scope := by
  refine ⟨sound.fresh.mint node, sound.fresh.nodup_mint sound.distinct node, sound.ordered,
    sound.below, sound.oneName, ?_⟩
  intro leaf held
  simp only [Workspace.withMinted, Workspace.pendingLeaves, List.flatMap_append,
    List.flatMap_singleton, List.mem_append] at held
  rcases held with old | new
  · exact sound.registered leaf old
  · exact registered leaf new

theorem Workspace.Ran.mint (sound : w.Sound scope) {node : Tree}
    (registered : ∀ leaf ∈ node.leaves, scope.Registered w.occurrences leaf) :
    w.Ran scope (w.withMinted node) := by
  refine ⟨sound.withMinted registered, Nat.le_succ _, Nat.le_refl _, fun _ _ listed => listed,
    fun entry held => ?_⟩
  rcases List.mem_append.mp held with old | new
  · exact Or.inl old
  · rw [List.mem_singleton.mp new]
    exact Or.inr ⟨_, Nat.lt_succ_self _, rfl⟩

/-- In a list whose keys are distinct, the entries with a given key are at most one. -/
theorem filter_key_eq_singleton {pending : List (List Char × Tree)}
    (distinct : (pending.map (·.1)).Nodup) {key : List Char} {entry : List Char × Tree}
    (held : entry ∈ pending) (isKey : entry.1 = key) :
    pending.filter (·.1 == key) = [entry] := by
  induction pending with
  | nil => cases held
  | cons first rest inductionHypothesis =>
    rw [List.map_cons, List.nodup_cons] at distinct
    rw [List.filter_cons]
    rcases List.mem_cons.mp held with rfl | later
    · have none : rest.filter (·.1 == entry.1) = [] := by
        rw [List.filter_eq_nil_iff]
        intro other inRest same
        exact distinct.1 (List.mem_map.mpr ⟨other, inRest, by simpa using same⟩)
      simp [← isKey, none]
    · have other : first.1 ≠ key := by
        intro same
        refine distinct.1 ?_
        rw [same, ← isKey]
        exact List.mem_map.mpr ⟨entry, later, rfl⟩
      simp [other, inductionHypothesis distinct.2 later]

theorem Workspace.mem_without {key : List Char} {entry : List Char × Tree}
    (kept : entry ∈ (w.without key).pending) : entry ∈ w.pending :=
  (List.mem_filter.mp kept).1

theorem Workspace.Sound.without (sound : w.Sound scope) (key : List Char) :
    (w.without key).Sound scope := by
  refine ⟨fun entry kept => sound.fresh entry (Workspace.mem_without kept), ?_, sound.ordered,
    sound.below, sound.oneName, fun leaf inLeft => sound.registered leaf ?_⟩
  · exact (List.Sublist.map Prod.fst List.filter_sublist).nodup sound.distinct
  · simp only [Workspace.pendingLeaves, List.mem_flatMap] at inLeft ⊢
    obtain ⟨entry, kept, inEntry⟩ := inLeft
    exact ⟨entry, Workspace.mem_without kept, inEntry⟩

theorem Workspace.Ran.without (sound : w.Sound scope) (key : List Char) :
    w.Ran scope (w.without key) :=
  ⟨sound.without key, Nat.le_refl _, Nat.le_refl _, fun _ _ listed => listed,
    fun _ kept => Or.inl (Workspace.mem_without kept)⟩

/-- Taking a placeholder out: its text is a placeholder's, and the run accounts for its two
bars and hands out the leaves it held. -/
theorem takePlaceholder_resolved (sound : w.Sound scope) {key : List Char} {t : Tree}
    (taken : takePlaceholder key w = .ok (t, w')) :
    (∃ n, key = placeholderText n) ∧ Resolved scope 2 w t w' := by
  unfold takePlaceholder at taken
  rw [Resolve.bind_of_ok (Resolve.get_apply w)] at taken
  cases found : w.pending.find? (·.1 == key) with
  | none =>
    simp only [found] at taken
    exact absurd taken Resolve.unparseable_ne_ok
  | some entry =>
    obtain ⟨k, node⟩ := entry
    simp only [found] at taken
    have result : (node, w.without key) = (t, w') := Except.ok.inj taken
    obtain ⟨rfl, rfl⟩ := Prod.mk.inj result
    have held := List.mem_of_find?_eq_some found
    have isKey : k = key := by simpa using List.find?_some found
    subst isKey
    -- the pending entries are the one taken and those left
    have split : w.pending.Perm ((k, node) :: (w.without k).pending) := by
      have parts := (List.filter_append_perm (·.1 == k) w.pending).symm
      rw [filter_key_eq_singleton sound.distinct held rfl] at parts
      exact parts
    have leftLeaves : w.pendingLeaves.Perm (node.leaves ++ (w.without k).pendingLeaves) := by
      simpa [Workspace.pendingLeaves] using split.flatMap_right (·.2.leaves)
    obtain ⟨n, -, isPlaceholder⟩ := sound.fresh _ held
    refine ⟨⟨n, isPlaceholder⟩, Workspace.Ran.without sound k,
      fun leaf inNode => sound.registered leaf ?_, ?_, fun leaf => ?_⟩
    · simp only [Workspace.pendingLeaves, List.mem_flatMap]
      exact ⟨_, held, inNode⟩
    · have := split.length_eq
      simp only [List.length_cons] at this
      omega
    · have counted := (leftLeaves.map (·.1)).count_eq leaf
      simp only [List.map_append, List.count_append] at counted
      rw [show w.createdLeaves (w.without k) = [] by simp [Workspace.createdLeaves,
        Workspace.without]]
      simp only [List.count_nil]
      omega

/-- Registering a new leaf keeps a workspace sound. -/
theorem Workspace.Sound.withLeaf (sound : w.Sound scope) (name : String) :
    (w.withLeaf name).Sound scope := by
  -- the new leaf number is above every number listed so far
  have fresh : ∀ n, ¬w.occurrences.Mem n w.nextLeaf := fun n listed =>
    Nat.lt_irrefl _ (sound.below n _ listed)
  refine ⟨sound.fresh, sound.distinct, sound.ordered.register name w.nextLeaf, ?_, ?_, ?_⟩
  · intro n l listed
    rcases OccurrenceIndex.mem_register.mp listed with old | ⟨-, rfl⟩
    · exact Nat.lt_succ_of_lt (sound.below n l old)
    · exact Nat.lt_succ_self _
  · intro n n' l listed listed'
    rcases OccurrenceIndex.mem_register.mp listed with old | ⟨rfl, rfl⟩ <;>
      rcases OccurrenceIndex.mem_register.mp listed' with old' | ⟨rfl, same⟩
    · exact sound.oneName n n' l old old'
    · exact absurd (same ▸ old) (fresh n)
    · exact absurd old' (fresh n')
    · rfl
  · intro leaf held
    obtain ⟨n, slotName, listed⟩ := sound.registered leaf held
    exact ⟨n, slotName, OccurrenceIndex.mem_register.mpr (Or.inl listed)⟩

/-- A new leaf for a declared variable is registered under its name, and created. -/
theorem newVariable_resolved (sound : w.Sound scope) {slot : Nat} {name : String}
    (named : scope.variableNames[slot]? = some name) {t : Tree}
    (made : newVariable scope slot w = .ok (t, w')) : Resolved scope 0 w t w' := by
  have result : (Tree.var w.nextLeaf slot, w.withLeaf name) = (t, w') := by
    have made' := Except.ok.inj made
    simp only [named, Option.getD_some] at made'
    exact made'
  obtain ⟨rfl, rfl⟩ := Prod.mk.inj result
  refine ⟨⟨sound.withLeaf name, Nat.le_refl _, Nat.le_succ _,
    fun _ _ listed => OccurrenceIndex.mem_register.mpr (Or.inl listed), fun _ held => Or.inl held⟩,
    fun leaf held => ?_, by simp [Workspace.withLeaf], fun leaf => ?_⟩
  · rw [Tree.leaves, List.mem_singleton] at held
    subst held
    exact ⟨name, named, OccurrenceIndex.mem_register.mpr (Or.inr ⟨rfl, rfl⟩)⟩
  · simp [Tree.leaves, Workspace.pendingLeaves, Workspace.createdLeaves, Workspace.withLeaf,
      List.count_singleton, Nat.add_comm]

end Steps

/-! ## Rewriting a text -/

/-- A run from `w` to `w'` that rewrote a text holding `bars` bars into one holding `bars'`:
the placeholders it minted account for the bars it added, two each, and the leaves pending
afterwards are those pending before and those it created. -/
structure Rewrote (scope : Scope) (bars bars' : Nat) (w w' : Workspace) : Prop where
  ran : w.Ran scope w'
  bars : bars' + 2 * w.pending.length = bars + 2 * w'.pending.length
  leaves : ∀ leaf, (w'.pendingLeaves.map (·.1)).count leaf =
    (w.pendingLeaves.map (·.1)).count leaf + (w.createdLeaves w').count leaf

namespace Rewrote

variable {scope : Scope} {w w₁ w₂ : Workspace}

theorem refl (sound : w.Sound scope) (bars : Nat) : Rewrote scope bars bars w w where
  ran := .refl sound
  bars := rfl
  leaves leaf := by rw [count_createdLeaves_self, Nat.add_zero]

theorem trans {b b' b'' : Nat} (first : Rewrote scope b b' w w₁)
    (second : Rewrote scope b' b'' w₁ w₂) : Rewrote scope b b'' w w₂ where
  ran := first.ran.trans second.ran
  bars := by
    have := first.bars
    have := second.bars
    omega
  leaves leaf := by
    have := first.leaves leaf
    have := second.leaves leaf
    have := count_createdLeaves_trans first.ran.nextLeaf second.ran.nextLeaf leaf
    omega

/-- A part of the text resolved into a tree, and a placeholder minted for a node with the
same leaves: the placeholder's two bars stand for the part's. -/
theorem mint {b bars bars' : Nat} {m node : Tree} (inner : Resolved scope b w m w₁)
    (sameLeaves : node.leaves = m.leaves) (total : bars' + b = bars + 2) :
    Rewrote scope bars bars' w (w₁.withMinted node) where
  ran := inner.ran.trans (Workspace.Ran.mint inner.ran.sound (sameLeaves ▸ inner.registered))
  bars := by
    have := inner.bars
    simp only [Workspace.withMinted, List.length_append, List.length_singleton]
    omega
  leaves leaf := by
    have := inner.leaves leaf
    simp only [Workspace.withMinted, Workspace.pendingLeaves, Workspace.createdLeaves,
      List.flatMap_append, List.flatMap_singleton, List.map_append, List.count_append,
      sameLeaves] at this ⊢
    omega

end Rewrote

/-- A rewriting run, then a run that resolves the rewritten text. -/
theorem Resolved.of_rewrote {scope : Scope} {w w₁ w₂ : Workspace} {b b' : Nat} {t : Tree}
    (rewrote : Rewrote scope b b' w w₁) (rest : Resolved scope b' w₁ t w₂) :
    Resolved scope b w t w₂ where
  ran := rewrote.ran.trans rest.ran
  registered := rest.registered
  bars := by
    have := rewrote.bars
    have := rest.bars
    omega
  leaves leaf := by
    have := rewrote.leaves leaf
    have := rest.leaves leaf
    have := count_createdLeaves_trans rewrote.ran.nextLeaf rest.ran.nextLeaf leaf
    omega


/-! ## Counting the characters of a text -/

namespace Text

/-- A text is the part before a span, the span and the part after it. -/
theorem take_append_slice_append_drop (text : List Char) {start stop : Nat}
    (ordered : start ≤ stop) :
    text.take start ++ slice text start stop ++ text.drop stop = text := by
  have rest : text.drop stop = (text.drop start).drop (stop - start) := by
    rw [List.drop_drop, Nat.add_sub_cancel' ordered]
  rw [slice, List.append_assoc, rest, List.take_append_drop, List.take_append_drop]

theorem count_slice (c : Char) (text : List Char) {start stop : Nat} (ordered : start ≤ stop) :
    text.count c = (text.take start).count c + (slice text start stop).count c +
      (text.drop stop).count c := by
  conv => lhs; rw [← take_append_slice_append_drop text ordered]
  rw [List.count_append, List.count_append]

/-- Replacing a span by a piece trades the span's characters for the piece's. -/
theorem count_splice (c : Char) (text piece : List Char) {start stop : Nat}
    (ordered : start ≤ stop) :
    (splice text start stop piece).count c + (slice text start stop).count c =
      text.count c + piece.count c := by
  rw [count_slice c text ordered, splice, List.count_append, List.count_append]
  omega

/-- A span across a position: the part of it before the position, the character there, and
the part after it. -/
theorem slice_across (text : List Char) {start pos stop : Nat} (before : start ≤ pos)
    (after : pos < stop) (inside : pos < text.length) :
    slice text start stop =
      (text.take pos).drop start ++ text[pos] :: (text.drop (pos + 1)).take (stop - pos - 1) := by
  have front : text.drop start = (text.take pos).drop start ++ text.drop pos := by
    conv => lhs; rw [← List.take_append_drop pos text]
    rw [List.drop_append_of_le_length (by simp; omega)]
  rw [slice, front, List.drop_eq_getElem_cons inside, List.take_append,
    List.take_of_length_le (by simp; omega), List.length_drop, List.length_take,
    Nat.min_eq_left (Nat.le_of_lt inside),
    show stop - start - (pos - start) = stop - pos - 1 + 1 by omega, List.take_succ_cons]

end Text

/-! ## The entity a span is split around -/

/-- What the text of an entity names: a pending placeholder, a registered constant, or the
declared variable of its slot. -/
def Entity.Names (scope : Scope) (w : Workspace) (name : List Char) : Entity → Prop
  | .placeholder => name ∈ w.pending.map (·.1)
  | .constant => name ∈ scope.constants.names.map String.toList
  | .variable slot => ∃ declared, scope.variableNames[slot]? = some declared ∧
      name = declared.toList

theorem mem_of_earliestLongest {α : Type} {candidates : List (Nat × Nat × α)}
    {best : Nat × Nat × α} (found : earliestLongest candidates = some best) :
    best ∈ candidates := by
  cases candidates with
  | nil => cases found
  | cons first rest =>
    obtain ⟨chosen, listed, same, -⟩ := earliestLongest_spec (List.cons_ne_nil first rest)
    rw [found, Option.some.injEq] at same
    exact same ▸ listed

/-- Where a pattern occurs, the slice of its length is the pattern. -/
theorem slice_of_occurs {pattern text : List Char} {start : Nat}
    (occurs : pattern <+: text.drop start) :
    Text.slice text start (start + pattern.length) = pattern := by
  rw [Text.slice, Nat.add_sub_cancel_left]
  exact (List.prefix_iff_eq_take.mp occurs).symm

theorem constantOccurrences_occurs {scope : Scope} {text : List Char}
    {c : Nat × Nat × List Char} (listed : c ∈ constantOccurrences scope text) :
    c.2.2 ∈ scope.constants.names.map String.toList ∧ c.2.1 = c.2.2.length ∧
      c.2.2 <+: text.drop c.1 := by
  unfold constantOccurrences at listed
  obtain ⟨name, kept, found⟩ := List.mem_filterMap.mp listed
  obtain ⟨start, first, rfl⟩ := Option.map_eq_some_iff.mp found
  exact ⟨(List.mem_filter.mp kept).1, rfl,
    Text.occurs_of_mem_matchStarts (List.mem_of_find?_eq_some first)⟩

theorem Span.of?_start {text : List Char} {start length : Nat} {span : Span text}
    (made : Span.of? text start length = some span) :
    span.start = start ∧ span.length = length := by
  unfold Span.of? at made
  split at made
  · cases made
    exact ⟨rfl, rfl⟩
  · cases made

/-- The span made of a candidate found in the text. -/
theorem toSpan_names {text : List Char} {c : Nat × Nat × List Char} {span : Span text}
    (lengthOf : c.2.1 = c.2.2.length) (occurs : c.2.2 <+: text.drop c.1)
    (made : Span.of? text c.1 c.2.1 = some span) :
    Text.slice text span.start (span.start + span.length) = c.2.2 := by
  obtain ⟨start, length⟩ := Span.of?_start made
  rw [start, length, lengthOf]
  exact slice_of_occurs occurs

/-- The text of the entity found in a span names it. -/
theorem findEntity_names {scope : Scope} {w : Workspace} {text : List Char} {span : Span text}
    {entity : Entity} (found : findEntity scope w text = some (span, entity)) :
    entity.Names scope w (Text.slice text span.start (span.start + span.length)) := by
  unfold findEntity at found
  split at found
  · next c earliest =>
    -- a pending placeholder
    simp only [Option.bind_some, Option.map_eq_some_iff, Prod.mk.injEq] at found
    obtain ⟨span', made, rfl, rfl⟩ := found
    obtain ⟨named, lengthOf, occurs⟩ := firstOccurrences_occurs (mem_of_earliestLongest earliest)
    show _ ∈ _
    rw [toSpan_names lengthOf occurs made]
    exact named
  · split at found
    · next c earliest =>
      -- a constant
      simp only [Option.bind_some, Option.map_eq_some_iff, Prod.mk.injEq] at found
      obtain ⟨span', made, rfl, rfl⟩ := found
      obtain ⟨named, lengthOf, occurs⟩ :=
        constantOccurrences_occurs (mem_of_earliestLongest earliest)
      show _ ∈ _
      rw [toSpan_names lengthOf occurs made]
      exact named
    · -- a variable, in the slot of its name
      simp only [Option.bind_eq_some_iff, Option.map_eq_some_iff, Prod.mk.injEq] at found
      obtain ⟨c, earliest, span', made, rfl, rfl⟩ := found
      obtain ⟨named, lengthOf, occurs⟩ :=
        firstOccurrences_occurs (mem_of_earliestLongest earliest)
      obtain ⟨declared, isDeclared, same⟩ := List.mem_map.mp named
      refine ⟨declared, ?_, by rw [toSpan_names lengthOf occurs made, same]⟩
      rw [← same, idxOf_map_toList, List.getElem?_eq_getElem
        (List.idxOf_lt_length_iff.mpr isDeclared), List.getElem_idxOf]

/-- The subtree of an entity that its text names: a placeholder's two bars are accounted for,
and a name has none. -/
theorem entityNode_resolved {scope : Scope} (wf : scope.WellFormed) {w w' : Workspace}
    (sound : w.Sound scope) {name : List Char} {entity : Entity}
    (names : entity.Names scope w name) {t : Tree}
    (made : entityNode scope name entity w = .ok (t, w')) :
    Resolved scope (name.count '|') w t w' := by
  rcases entity with _ | _ | slot
  · -- a placeholder
    obtain ⟨⟨n, rfl⟩, resolved⟩ := takePlaceholder_resolved sound made
    rwa [count_bar_placeholderText]
  · -- a constant
    obtain ⟨constant, registered, rfl⟩ := List.mem_map.mp names
    have noBar : constant.toList.count '|' = 0 := List.count_eq_zero.mpr
      (Text.not_mem_identifier (wf.constantsNamed constant registered) (by simp [Text.punctuation]))
    rw [noBar]
    cases valued : scope.constants.find? (String.ofList constant.toList) with
    | some value =>
      simp only [entityNode, valued] at made
      obtain ⟨rfl, rfl⟩ := Prod.mk.inj (Resolve.pure_eq_ok made)
      exact Resolved.const sound _
    | none =>
      simp only [entityNode, valued] at made
      exact absurd made Resolve.unparseable_ne_ok
  · -- a variable
    obtain ⟨declared, named, rfl⟩ := names
    have noBar : declared.toList.count '|' = 0 := List.count_eq_zero.mpr
      (Text.not_mem_identifier (wf.variablesNamed declared (List.mem_of_getElem? named))
        (by simp [Text.punctuation]))
    rw [noBar]
    exact newVariable_resolved sound named made

end ComplexFormula
