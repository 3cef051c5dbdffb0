import Mathlib
import ComplexFormula.Proofs.Pieces

/-!
# Runs on texts whose placeholders are numbered apart

A placeholder is numbered by the count of placeholders minted before it. Two compilations
that resolved different brackets therefore go on with the same text but for the numbers of
its placeholders, and so with texts of different lengths. The resolvers never read a number:
the first placeholder of a span is the entity it splits around, and every scan for brackets,
operators, literals and names sees a placeholder as one bar (`Pieces`). So two runs on such
texts, whose placeholders stand for subtrees equal up to leaf numbers, make the same
decisions: both fail, or both succeed with trees equal up to leaf numbers (`RunsAlike`).

Texts are related piece by piece (`Piece.Alike`, `Renumbered`). A run takes no pending
placeholder but those of its own text (`Workspace.TakesOnly`), so the placeholders of the
rest of the text are still pending for the runs that follow it. Each resolver is shown to
run alike by induction along its own recursion.
-/

namespace ComplexFormula

open Piece

variable {α β γ δ : Type}

/-! ## Two runs side by side -/

/-- Two results of runs: both failed, or both succeeded with values and states related. -/
def RunsAlike (related : α × Workspace → β × Workspace → Prop) :
    Except CompileError (α × Workspace) → Except CompileError (β × Workspace) → Prop
  | .ok r₁, .ok r₂ => related r₁ r₂
  | .error _, .error _ => True
  | _, _ => False

namespace RunsAlike

variable {R R' : α × Workspace → β × Workspace → Prop}
  {S : γ × Workspace → δ × Workspace → Prop}

theorem ok {r₁ : α × Workspace} {r₂ : β × Workspace} (related : R r₁ r₂) :
    RunsAlike R (.ok r₁) (.ok r₂) := related

theorem error (e₁ e₂ : CompileError) :
    RunsAlike R (.error e₁ : Except CompileError (α × Workspace)) (.error e₂) := trivial

theorem mono (weaker : ∀ r₁ r₂, R r₁ r₂ → R' r₁ r₂) {x₁ : Except CompileError (α × Workspace)}
    {x₂ : Except CompileError (β × Workspace)} (alike : RunsAlike R x₁ x₂) :
    RunsAlike R' x₁ x₂ := by
  cases x₁ <;> cases x₂
  · exact trivial
  · exact alike.elim
  · exact alike.elim
  · exact weaker _ _ alike

/-- Two runs that go on alike from related results run alike. -/
theorem bind {x₁ : Resolve α} {x₂ : Resolve β} {f₁ : α → Resolve γ} {f₂ : β → Resolve δ}
    {w₁ w₂ : Workspace} (first : RunsAlike R (x₁ w₁) (x₂ w₂))
    (rest : ∀ a₁ v₁ a₂ v₂, x₁ w₁ = .ok (a₁, v₁) → x₂ w₂ = .ok (a₂, v₂) →
      R (a₁, v₁) (a₂, v₂) → RunsAlike S (f₁ a₁ v₁) (f₂ a₂ v₂)) :
    RunsAlike S ((x₁ >>= f₁) w₁) ((x₂ >>= f₂) w₂) := by
  show RunsAlike S (x₁ w₁ >>= fun r => f₁ r.1 r.2) (x₂ w₂ >>= fun r => f₂ r.1 r.2)
  cases ran₁ : x₁ w₁ with
  | error e₁ =>
    cases ran₂ : x₂ w₂ with
    | error e₂ => exact trivial
    | ok r₂ =>
      rw [ran₁, ran₂] at first
      exact first.elim
  | ok r₁ =>
    cases ran₂ : x₂ w₂ with
    | error e₂ =>
      rw [ran₁, ran₂] at first
      exact first.elim
    | ok r₂ =>
      rw [ran₁, ran₂] at first
      exact rest r₁.1 r₁.2 r₂.1 r₂.2 ran₁ ran₂ first

theorem related {x₁ : Except CompileError (α × Workspace)}
    {x₂ : Except CompileError (β × Workspace)}
    (alike : RunsAlike R x₁ x₂) {r₁ : α × Workspace} {r₂ : β × Workspace} (first : x₁ = .ok r₁)
    (second : x₂ = .ok r₂) : R r₁ r₂ := by
  subst first second
  exact alike

end RunsAlike

/-! ## What a run takes -/

/-- A run from `w` to `w'` that took no pending placeholder but those numbered in `taken`:
every other one is still pending, with its subtree. -/
structure Workspace.TakesOnly (scope : Scope) (w : Workspace) (taken : List Nat) (w' : Workspace) :
    Prop where
  ran : w.Ran scope w'
  kept : ∀ entry ∈ w.pending, (∀ n ∈ taken, entry.1 ≠ placeholderText n) → entry ∈ w'.pending

namespace Workspace.TakesOnly

variable {scope : Scope} {w w₁ w₂ : Workspace} {taken taken' : List Nat}

theorem refl (sound : w.Sound scope) (taken : List Nat) : w.TakesOnly scope taken w :=
  ⟨.refl sound, fun _ held _ => held⟩

theorem trans (first : w.TakesOnly scope taken w₁) (second : w₁.TakesOnly scope taken' w₂) :
    w.TakesOnly scope (taken ++ taken') w₂ where
  ran := first.ran.trans second.ran
  kept entry held other :=
    second.kept entry
      (first.kept entry held fun n listed => other n (List.mem_append_left _ listed))
      fun n listed => other n (List.mem_append_right _ listed)

theorem mono (taking : w.TakesOnly scope taken w₁) (more : taken ⊆ taken') :
    w.TakesOnly scope taken' w₁ :=
  ⟨taking.ran, fun entry held other => taking.kept entry held fun n listed => other n (more listed)⟩

/-- Numbers above the count of the first state were never pending in it. -/
theorem forget (fresh : w.Fresh) (taking : w.TakesOnly scope (taken ++ taken') w₁)
    (new : ∀ n ∈ taken', w.minted < n) : w.TakesOnly scope taken w₁ := by
  refine ⟨taking.ran, fun entry held other => taking.kept entry held fun n listed same => ?_⟩
  rcases List.mem_append.mp listed with old | later
  · exact other n old same
  · obtain ⟨k, bounded, key⟩ := fresh entry held
    rw [key] at same
    have := new n later
    have := placeholderText_injective same
    omega

theorem without (sound : w.Sound scope) (n : Nat) :
    w.TakesOnly scope [n] (w.without (placeholderText n)) := by
  refine ⟨.without sound _, fun entry held other => List.mem_filter.mpr ⟨held, ?_⟩⟩
  simpa using other n List.mem_cons_self

theorem withLeaf (sound : w.Sound scope) (name : String) :
    w.TakesOnly scope [] (w.withLeaf name) :=
  ⟨⟨sound.withLeaf name, Nat.le_refl _, Nat.le_succ _,
    fun _ _ listed => OccurrenceIndex.mem_register.mpr (Or.inl listed), fun _ held => Or.inl held⟩,
    fun _ held _ => held⟩

theorem mint (sound : w.Sound scope) {node : Tree}
    (registered : ∀ leaf ∈ node.leaves, scope.Registered w.occurrences leaf) :
    w.TakesOnly scope [] (w.withMinted node) :=
  ⟨.mint sound registered, fun _ held _ => List.mem_append_left _ held⟩

end Workspace.TakesOnly

/-- Two runs that resolved texts into trees equal up to leaf numbers, each taking no
placeholder but those numbered in its list. -/
structure Settled (scope : Scope) (w₁ : Workspace) (taken₁ : List Nat) (w₂ : Workspace)
    (taken₂ : List Nat) (r₁ r₂ : Tree × Workspace) : Prop where
  same : r₁.1.eraseLeaves = r₂.1.eraseLeaves
  first : w₁.TakesOnly scope taken₁ r₁.2
  second : w₂.TakesOnly scope taken₂ r₂.2

namespace Settled

variable {scope : Scope} {w₁ w₂ v₁ v₂ : Workspace} {taken₁ taken₂ later₁ later₂ : List Nat}
  {r₁ r₂ : Tree × Workspace}

/-- Runs that settled after runs that took some placeholders settled from where those began. -/
theorem after (first : w₁.TakesOnly scope taken₁ v₁) (second : w₂.TakesOnly scope taken₂ v₂)
    (later : Settled scope v₁ later₁ v₂ later₂ r₁ r₂) :
    Settled scope w₁ (taken₁ ++ later₁) w₂ (taken₂ ++ later₂) r₁ r₂ :=
  ⟨later.same, first.trans later.first, second.trans later.second⟩

theorem mono (settled : Settled scope w₁ taken₁ w₂ taken₂ r₁ r₂) (more₁ : taken₁ ⊆ later₁)
    (more₂ : taken₂ ⊆ later₂) : Settled scope w₁ later₁ w₂ later₂ r₁ r₂ :=
  ⟨settled.same, settled.first.mono more₁, settled.second.mono more₂⟩

end Settled

/-! ## Texts that differ in their numbers -/

/-- Two pieces that stand for the same, each over its own workspace: one character, not a bar,
or two pending placeholders whose subtrees are equal up to leaf numbers. -/
def Piece.Alike (w₁ w₂ : Workspace) : Piece → Piece → Prop
  | .char c, .char d => c = d ∧ c ≠ '|'
  | .held m, .held n => ∃ t₁ t₂, (placeholderText m, t₁) ∈ w₁.pending ∧
      (placeholderText n, t₂) ∈ w₂.pending ∧ t₁.eraseLeaves = t₂.eraseLeaves
  | _, _ => False

/-- Two working texts, each over its own sound workspace, that are the same pieces but for the
numbers of their placeholders; neither holds a placeholder twice. -/
structure Renumbered (scope : Scope) (ps₁ : List Piece) (w₁ : Workspace) (ps₂ : List Piece)
    (w₂ : Workspace) : Prop where
  alike : List.Forall₂ (Piece.Alike w₁ w₂) ps₁ ps₂
  distinct₁ : (numbers ps₁).Nodup
  distinct₂ : (numbers ps₂).Nodup
  sound₁ : w₁.Sound scope
  sound₂ : w₂.Sound scope

namespace Piece

variable {w₁ w₂ v₁ v₂ : Workspace}

theorem Alike.glyph_eq {p q : Piece} (alike : Piece.Alike w₁ w₂ p q) : p.glyph = q.glyph := by
  cases p <;> cases q
  · exact alike.1
  · exact alike.elim
  · exact alike.elim
  · rfl

theorem shape_eq_of_alike {ps₁ ps₂ : List Piece}
    (alike : List.Forall₂ (Piece.Alike w₁ w₂) ps₁ ps₂) :
    shape ps₁ = shape ps₂ := by
  induction alike with
  | nil => rfl
  | cons head _ inductionHypothesis =>
    rw [shape_cons, shape_cons, head.glyph_eq, inductionHypothesis]

/-- Characters are alike only to themselves. -/
theorem eq_of_alike_map_char {cs : List Char} {qs : List Piece}
    (alike : List.Forall₂ (Piece.Alike w₁ w₂) (cs.map char) qs) : qs = cs.map char ∧ '|' ∉ cs := by
  induction cs generalizing qs with
  | nil => exact ⟨List.forall₂_nil_left_iff.mp alike, List.not_mem_nil⟩
  | cons c cs inductionHypothesis =>
    obtain ⟨q, qs, head, tail, rfl⟩ := List.forall₂_cons_left_iff.mp alike
    cases q with
    | held n => exact head.elim
    | char d =>
      obtain ⟨rfl, notBar⟩ := head
      obtain ⟨rfl, noBar⟩ := inductionHypothesis tail
      refine ⟨rfl, ?_⟩
      rw [List.mem_cons, not_or]
      exact ⟨notBar.symm, noBar⟩

theorem alike_map_char {cs : List Char} (noBar : '|' ∉ cs) :
    List.Forall₂ (Piece.Alike w₁ w₂) (cs.map char) (cs.map char) := by
  rw [List.forall₂_same]
  intro p listed
  obtain ⟨c, inText, rfl⟩ := List.mem_map.mp listed
  exact ⟨rfl, fun same => noBar (same ▸ inText)⟩

/-- A placeholder is alike in later states that still hold both subtrees. -/
theorem Alike.keep {p q : Piece} (alike : Piece.Alike w₁ w₂ p q)
    (first : ∀ n t, p = held n → (placeholderText n, t) ∈ w₁.pending →
      (placeholderText n, t) ∈ v₁.pending)
    (second : ∀ n t, q = held n → (placeholderText n, t) ∈ w₂.pending →
      (placeholderText n, t) ∈ v₂.pending) :
    Piece.Alike v₁ v₂ p q := by
  cases p <;> cases q
  · exact alike
  · exact alike.elim
  · exact alike.elim
  · obtain ⟨t₁, t₂, held₁, held₂, same⟩ := alike
    exact ⟨t₁, t₂, first _ _ rfl held₁, second _ _ rfl held₂, same⟩

end Piece

namespace Renumbered

variable {scope : Scope} {ps₁ ps₂ : List Piece} {w₁ w₂ v₁ v₂ : Workspace}

theorem length_eq (renumbered : Renumbered scope ps₁ w₁ ps₂ w₂) : ps₁.length = ps₂.length :=
  renumbered.alike.length_eq

theorem shape_eq (renumbered : Renumbered scope ps₁ w₁ ps₂ w₂) : shape ps₁ = shape ps₂ :=
  shape_eq_of_alike renumbered.alike

theorem take (renumbered : Renumbered scope ps₁ w₁ ps₂ w₂) (k : Nat) :
    Renumbered scope (ps₁.take k) w₁ (ps₂.take k) w₂ where
  alike := List.forall₂_take k renumbered.alike
  distinct₁ := ((List.take_sublist k ps₁).filterMap _).nodup renumbered.distinct₁
  distinct₂ := ((List.take_sublist k ps₂).filterMap _).nodup renumbered.distinct₂
  sound₁ := renumbered.sound₁
  sound₂ := renumbered.sound₂

theorem drop (renumbered : Renumbered scope ps₁ w₁ ps₂ w₂) (k : Nat) :
    Renumbered scope (ps₁.drop k) w₁ (ps₂.drop k) w₂ where
  alike := List.forall₂_drop k renumbered.alike
  distinct₁ := ((List.drop_sublist k ps₁).filterMap _).nodup renumbered.distinct₁
  distinct₂ := ((List.drop_sublist k ps₂).filterMap _).nodup renumbered.distinct₂
  sound₁ := renumbered.sound₁
  sound₂ := renumbered.sound₂

/-- The same characters are renumbered texts over any two sound workspaces. -/
theorem chars {cs : List Char} (noBar : '|' ∉ cs) (sound₁ : w₁.Sound scope)
    (sound₂ : w₂.Sound scope) : Renumbered scope (cs.map char) w₁ (cs.map char) w₂ :=
  ⟨alike_map_char noBar, by simp, by simp, sound₁, sound₂⟩

/-- The pieces stay renumbered after runs that took none of their placeholders. -/
theorem after (renumbered : Renumbered scope ps₁ w₁ ps₂ w₂) {taken₁ taken₂ : List Nat}
    (first : w₁.TakesOnly scope taken₁ v₁) (second : w₂.TakesOnly scope taken₂ v₂)
    (apart₁ : ∀ n ∈ numbers ps₁, n ∉ taken₁) (apart₂ : ∀ n ∈ numbers ps₂, n ∉ taken₂) :
    Renumbered scope ps₁ v₁ ps₂ v₂ := by
  have keep : ∀ {w v : Workspace} {taken : List Nat} {qs : List Piece},
      w.TakesOnly scope taken v → (∀ n ∈ numbers qs, n ∉ taken) →
      ∀ p ∈ qs, ∀ n t, p = held n → (placeholderText n, t) ∈ w.pending →
        (placeholderText n, t) ∈ v.pending := by
    intro w v taken qs taking apart p listed n t isHeld pending
    subst isHeld
    have numbered : n ∈ numbers qs := List.mem_filterMap.mpr ⟨held n, listed, rfl⟩
    exact taking.kept _ pending fun m inTaken same => apart n numbered
      (placeholderText_injective same ▸ inTaken)
  refine ⟨?_, renumbered.distinct₁, renumbered.distinct₂, first.ran.sound, second.ran.sound⟩
  have alike := renumbered.alike
  rw [List.forall₂_iff_get] at alike ⊢
  refine ⟨alike.1, fun i below₁ below₂ => (alike.2 i below₁ below₂).keep ?_ ?_⟩
  · exact keep first apart₁ _ (List.getElem_mem below₁)
  · exact keep second apart₂ _ (List.getElem_mem below₂)

end Renumbered

/-- A list related entry by entry to one with an element in the middle has an element there,
related to it. -/
theorem forall₂_append_cons {R : α → β → Prop} {xs zs : List α} {y : α} {l : List β}
    (related : List.Forall₂ R (xs ++ y :: zs) l) :
    ∃ xs' y' zs', l = xs' ++ y' :: zs' ∧
      List.Forall₂ R xs xs' ∧ R y y' ∧ List.Forall₂ R zs zs' := by
  induction xs generalizing l with
  | nil =>
    obtain ⟨y', zs', head, tail, rfl⟩ := List.forall₂_cons_left_iff.mp related
    exact ⟨[], y', zs', rfl, .nil, head, tail⟩
  | cons x xs inductionHypothesis =>
    obtain ⟨x', l', head, tail, rfl⟩ := List.forall₂_cons_left_iff.mp related
    obtain ⟨xs', y', zs', rfl, front, middle, back⟩ := inductionHypothesis tail
    exact ⟨x' :: xs', y', zs', rfl, .cons head front, middle, back⟩

/-- Renumbered texts have their first placeholders after the same characters; the rest of the
texts after them are renumbered too. -/
theorem Renumbered.first_held {scope : Scope} {cs : List Char} {m : Nat} {rest₁ ps₂ : List Piece}
    {w₁ w₂ : Workspace} (renumbered : Renumbered scope (cs.map char ++ held m :: rest₁) w₁ ps₂ w₂) :
    ∃ n rest₂ t₁ t₂, ps₂ = cs.map char ++ held n :: rest₂ ∧ '|' ∉ cs ∧
      (placeholderText m, t₁) ∈ w₁.pending ∧ (placeholderText n, t₂) ∈ w₂.pending ∧
      t₁.eraseLeaves = t₂.eraseLeaves ∧ m ∉ numbers rest₁ ∧ n ∉ numbers rest₂ ∧
      Renumbered scope rest₁ w₁ rest₂ w₂ := by
  obtain ⟨front, q, rest₂, rfl, alikeFront, alikeHeld, alikeRest⟩ :=
    forall₂_append_cons renumbered.alike
  obtain ⟨rfl, noBar⟩ := eq_of_alike_map_char alikeFront
  cases q with
  | char c => exact alikeHeld.elim
  | held n =>
    obtain ⟨t₁, t₂, held₁, held₂, same⟩ := alikeHeld
    have distinct₁ := renumbered.distinct₁
    have distinct₂ := renumbered.distinct₂
    simp only [numbers_append, numbers_map_char, numbers_held_cons, List.nil_append,
      List.nodup_cons] at distinct₁ distinct₂
    exact ⟨n, rest₂, t₁, t₂, rfl, noBar, held₁, held₂, same, distinct₁.1, distinct₂.1,
      alikeRest, distinct₁.2, distinct₂.2, renumbered.sound₁, renumbered.sound₂⟩

/-! ## Leaves -/

section Leaves

variable {scope : Scope}

/-- In a list of distinct keys, a pending key is found with its own subtree. -/
theorem find?_key_of_mem {pending : List (List Char × Tree)} (distinct : (pending.map (·.1)).Nodup)
    {key : List Char} {t : Tree} (held : (key, t) ∈ pending) :
    pending.find? (·.1 == key) = some (key, t) := by
  rw [← List.head?_filter, filter_key_eq_singleton distinct held rfl]
  rfl

/-- The subtree of a constant or a variable is made alike in any two sound states, and no
placeholder is taken. -/
theorem entityNode_settled {w₁ w₂ : Workspace} (sound₁ : w₁.Sound scope)
    (sound₂ : w₂.Sound scope) (name : List Char) {entity : Entity}
    (notHeld : entity ≠ .placeholder) :
    RunsAlike (Settled scope w₁ [] w₂ []) (entityNode scope name entity w₁)
      (entityNode scope name entity w₂) := by
  -- the constructors are the placeholder, a constant and a variable
  rcases entity with _ | _ | slot
  · exact absurd rfl notHeld
  · simp only [entityNode]
    cases scope.constants.find? (String.ofList name) with
    | some value => exact ⟨rfl, .refl sound₁ [], .refl sound₂ []⟩
    | none => exact trivial
  · exact ⟨rfl, .withLeaf sound₁ _, .withLeaf sound₂ _⟩

/-- The parts of a span before and after its entity, resolved alike, are joined alike to
subtrees of the entity equal up to leaf numbers. -/
theorem joined_settled {B₁ B₂ A₁ A₂ : List Char} {before₁ before₂ after₁ after₂ : List Nat}
    {v₁ v₂ : Workspace} (sound₁ : v₁.Sound scope) (sound₂ : v₂.Sound scope) {m₁ m₂ : Tree}
    (matched : m₁.eraseLeaves = m₂.eraseLeaves) (emptyBefore : B₁ = [] ↔ B₂ = [])
    (emptyAfter : A₁ = [] ↔ A₂ = [])
    (left : B₁ ≠ [] → RunsAlike (Settled scope v₁ before₁ v₂ before₂)
      (resolveLeaf scope B₁ v₁) (resolveLeaf scope B₂ v₂))
    (right : A₁ ≠ [] → ∀ u₁ u₂, v₁.TakesOnly scope before₁ u₁ → v₂.TakesOnly scope before₂ u₂ →
      RunsAlike (Settled scope u₁ after₁ u₂ after₂)
        (resolveLeaf scope A₁ u₁) (resolveLeaf scope A₂ u₂)) :
    RunsAlike (Settled scope v₁ (before₁ ++ after₁) v₂ (before₂ ++ after₂))
      ((do
        let withBefore ← if B₁.isEmpty then pure m₁ else do
          let left ← resolveLeaf scope B₁
          pure (Tree.binary .mul left m₁)
        if A₁.isEmpty then pure withBefore else do
          let right ← resolveLeaf scope A₁
          pure (Tree.binary .mul withBefore right)) v₁)
      ((do
        let withBefore ← if B₂.isEmpty then pure m₂ else do
          let left ← resolveLeaf scope B₂
          pure (Tree.binary .mul left m₂)
        if A₂.isEmpty then pure withBefore else do
          let right ← resolveLeaf scope A₂
          pure (Tree.binary .mul withBefore right)) v₂) := by
  -- the part after the entity, from whatever the part before it left
  have second : ∀ b₁ b₂ u₁ u₂, Settled scope v₁ before₁ v₂ before₂ (b₁, u₁) (b₂, u₂) →
      RunsAlike (Settled scope v₁ (before₁ ++ after₁) v₂ (before₂ ++ after₂))
        ((if A₁.isEmpty then pure b₁ else do
            let right ← resolveLeaf scope A₁
            pure (Tree.binary .mul b₁ right) : Resolve Tree) u₁)
        ((if A₂.isEmpty then pure b₂ else do
            let right ← resolveLeaf scope A₂
            pure (Tree.binary .mul b₂ right) : Resolve Tree) u₂) := by
    intro b₁ b₂ u₁ u₂ settled
    by_cases empty : A₁ = []
    · rw [empty, emptyAfter.mp empty]
      simp only [List.isEmpty_nil, ↓reduceIte]
      exact settled.mono (List.subset_append_left _ _) (List.subset_append_left _ _)
    · have nonempty : A₂ ≠ [] := fun other => empty (emptyAfter.mpr other)
      simp only [List.isEmpty_iff, empty, nonempty, ↓reduceIte]
      refine RunsAlike.bind (right empty u₁ u₂ settled.first settled.second)
        fun r₁ x₁ r₂ x₂ _ _ later => ?_
      exact ⟨by simp only [Tree.eraseLeaves, settled.same, later.same],
        settled.first.trans later.first, settled.second.trans later.second⟩
  by_cases empty : B₁ = []
  · rw [empty, emptyBefore.mp empty]
    simp only [List.isEmpty_nil, ↓reduceIte, pure_bind]
    exact second m₁ m₂ v₁ v₂ ⟨matched, .refl sound₁ _, .refl sound₂ _⟩
  · have filled₁ : B₁.isEmpty = false := List.isEmpty_eq_false_iff.mpr empty
    have filled₂ : B₂.isEmpty = false :=
      List.isEmpty_eq_false_iff.mpr fun other => empty (emptyBefore.mpr other)
    simp only [filled₁, filled₂, Bool.false_eq_true, ↓reduceIte, pure_bind]
    refine RunsAlike.bind (left empty) fun l₁ u₁ l₂ u₂ _ _ settled => ?_
    exact second (.binary .mul l₁ m₁) (.binary .mul l₂ m₂) u₁ u₂
      ⟨by simp only [Tree.eraseLeaves, settled.same, matched], settled.first, settled.second⟩

/-- A span without bars is resolved alike in any two sound states, and no placeholder is
taken. -/
theorem resolveLeaf_plain_settled (text : List Char) :
    '|' ∉ text → ∀ {w₁ w₂ : Workspace}, w₁.Sound scope → w₂.Sound scope →
      RunsAlike (Settled scope w₁ [] w₂ []) (resolveLeaf scope text w₁)
        (resolveLeaf scope text w₂) := by
  induction text using resolveLeaf.induct with
  | case1 =>
    intro _ w₁ w₂ sound₁ sound₂
    rw [resolveLeaf, if_pos rfl]
    exact ⟨rfl, .refl sound₁ [], .refl sound₂ []⟩
  | case2 =>
    intro _ w₁ w₂ sound₁ sound₂
    rw [resolveLeaf, if_neg (by decide), if_pos rfl]
    exact ⟨rfl, .refl sound₁ [], .refl sound₂ []⟩
  | case3 text notMinus notPlus value valued =>
    intro _ w₁ w₂ sound₁ sound₂
    rw [resolveLeaf, if_neg notMinus, if_neg notPlus]
    simp only [valued]
    exact ⟨rfl, .refl sound₁ [], .refl sound₂ []⟩
  | case4 text notMinus notPlus notValued afterHypothesis beforeHypothesis =>
    intro noBar w₁ w₂ sound₁ sound₂
    rw [resolveLeaf, if_neg notMinus, if_neg notPlus]
    simp only [notValued]
    rw [Resolve.bind_of_ok (Resolve.get_apply w₁), Resolve.bind_of_ok (Resolve.get_apply w₂),
      findEntity_of_noBar scope sound₁.keys noBar, findEntity_of_noBar scope sound₂.keys noBar]
    cases found : findEntity scope Workspace.initial text with
    | none => exact trivial
    | some entry =>
      obtain ⟨span, entity⟩ := entry
      refine RunsAlike.bind (entityNode_settled sound₁ sound₂ _
        (findEntity_initial_ne_placeholder found)) fun m₁ v₁ m₂ v₂ _ _ settled => ?_
      -- the parts around the entity are spans without bars
      have joined := joined_settled settled.first.ran.sound settled.second.ran.sound settled.same
        Iff.rfl Iff.rfl
        (fun _ => beforeHypothesis span (fun mem => noBar (List.mem_of_mem_take mem))
          settled.first.ran.sound settled.second.ran.sound)
        (fun _ u₁ u₂ first second => afterHypothesis span
          (fun mem => noBar (List.mem_of_mem_drop mem)) first.ran.sound second.ran.sound)
      exact joined.mono fun r₁ r₂ later =>
        (later.after settled.first settled.second).mono (by simp) (by simp)

/-- Renumbered spans are resolved alike, each run taking the placeholders of its own span. -/
theorem resolveLeaf_renumbered {ps₁ ps₂ : List Piece} {w₁ w₂ : Workspace}
    (renumbered : Renumbered scope ps₁ w₁ ps₂ w₂) :
    RunsAlike (Settled scope w₁ (numbers ps₁) w₂ (numbers ps₂))
      (resolveLeaf scope (join ps₁) w₁) (resolveLeaf scope (join ps₂) w₂) := by
  obtain ⟨size, sized⟩ : ∃ size, ps₁.length = size := ⟨_, rfl⟩
  -- strong induction on the number of pieces: the span after the first placeholder is shorter
  induction size using Nat.strongRecOn generalizing ps₁ ps₂ w₁ w₂ with
  | ind size inductionHypothesis =>
  obtain ⟨cs, back, rfl, starting⟩ := exists_leading_chars ps₁
  rcases starting with rfl | ⟨m, rest₁, rfl⟩
  · -- no placeholder: both spans are the same characters
    rw [List.append_nil] at renumbered ⊢
    obtain ⟨rfl, noBar⟩ := eq_of_alike_map_char renumbered.alike
    simpa using resolveLeaf_plain_settled cs noBar renumbered.sound₁ renumbered.sound₂
  · obtain ⟨n, rest₂, t₁, t₂, rfl, noBar, held₁, held₂, same, fresh₁, fresh₂, rest⟩ :=
      renumbered.first_held
    have sound₁ := renumbered.sound₁
    have sound₂ := renumbered.sound₂
    have text : ∀ (k : Nat) (more : List Piece),
        join (cs.map char ++ held k :: more) = cs ++ placeholderText k ++ join more := by
      intro k more
      simp
    rw [text, text, resolveLeaf_first_held scope sound₁.keys noBar
      (find?_key_of_mem sound₁.distinct held₁), resolveLeaf_first_held scope sound₂.keys noBar
      (find?_key_of_mem sound₂.distinct held₂)]
    -- the rest of the span is renumbered in every state the placeholders' runs lead to
    have apart : ∀ {k : Nat} {ks : List Nat}, k ∉ ks → ∀ j ∈ ks, j ∉ [k] ++ [] := by
      intro k ks fresh j listed taken
      rw [List.append_nil, List.mem_singleton] at taken
      exact fresh (taken ▸ listed)
    have after : ∀ u₁ u₂, (w₁.without (placeholderText m)).TakesOnly scope [] u₁ →
        (w₂.without (placeholderText n)).TakesOnly scope [] u₂ →
        Renumbered scope rest₁ u₁ rest₂ u₂ := fun u₁ u₂ first second =>
      rest.after ((Workspace.TakesOnly.without sound₁ m).trans first)
        ((Workspace.TakesOnly.without sound₂ n).trans second)
        (apart fresh₁) (apart fresh₂)
    have joined := joined_settled (sound₁.without _) (sound₂.without _) same Iff.rfl
      (by rw [join_eq_nil_iff, join_eq_nil_iff, ← List.length_eq_zero_iff,
        ← List.length_eq_zero_iff, rest.length_eq])
      (fun _ => resolveLeaf_plain_settled cs noBar (sound₁.without _) (sound₂.without _))
      (fun _ u₁ u₂ first second => inductionHypothesis rest₁.length
        (by simp only [← sized, List.length_append, List.length_cons]; omega)
        (after u₁ u₂ first second) rfl)
    exact joined.mono fun r₁ r₂ later =>
      (later.after (.without sound₁ m) (.without sound₂ n)).mono (by simp) (by simp)

end Leaves

/-! ## Products and sums -/

namespace Piece

/-- A glyph other than a bar shows a character piece. -/
theorem getElem?_of_shape {ps : List Piece} {k : Nat} {c : Char} (found : (shape ps)[k]? = some c)
    (notBar : c ≠ '|') : ps[k]? = some (char c) := by
  rw [shape, List.getElem?_map, Option.map_eq_some_iff] at found
  obtain ⟨p, atK, glyph⟩ := found
  cases p with
  | char d =>
    rw [glyph_char] at glyph
    rw [atK, glyph]
  | held n => exact absurd glyph.symm notBar

/-- The text after a character piece is the text of the pieces after it. -/
theorem drop_join_succ {ps : List Piece} {k : Nat} {c : Char} (atK : ps[k]? = some (char c)) :
    (join ps).drop (offset ps k + 1) = join (ps.drop (k + 1)) := by
  rw [← drop_join, offset_succ atK, text_char, List.length_singleton]

theorem splitOperator_join (ps : List Piece) (k : Nat) :
    splitOperator (join ps) (offset ps k) = splitOperator (shape ps) k := by
  unfold splitOperator
  rw [getElem?_join_offset]

/-- Of pieces with distinct numbers, those from one index on have none of the numbers before
another index no later. -/
theorem numbers_apart {ps : List Piece} (distinct : (numbers ps).Nodup) {k j : Nat} (le : k ≤ j) :
    ∀ n ∈ numbers (ps.drop j), n ∉ numbers (ps.take k) := by
  intro n later earlier
  rw [← List.take_append_drop k ps, numbers_append, List.nodup_append] at distinct
  have within : n ∈ numbers (ps.drop k) := by
    rw [show j = k + (j - k) by omega, ← List.drop_drop] at later
    exact ((List.drop_sublist _ _).filterMap _).subset later
  exact distinct.2.2 n earlier n within rfl

theorem numbers_around_subset (ps : List Piece) (k : Nat) :
    numbers (ps.take k) ++ numbers (ps.drop (k + 1)) ⊆ numbers ps := by
  intro n listed
  rw [← List.take_append_drop k ps, numbers_append]
  rcases List.mem_append.mp listed with left | right
  · exact List.mem_append_left _ left
  · rw [← List.drop_drop] at right
    exact List.mem_append_right _ (((List.drop_sublist _ _).filterMap _).subset right)

end Piece

section Operators

variable {scope : Scope}

/-- Two operands on either side of the same piece, resolved alike one after the other, are
joined alike by one operator. -/
theorem around_settled {ps₁ ps₂ : List Piece} {w₁ w₂ : Workspace}
    (renumbered : Renumbered scope ps₁ w₁ ps₂ w₂) (k : Nat) {x₁ x₂ y₁ y₂ : Resolve Tree}
    (op : BinaryOp)
    (left : RunsAlike (Settled scope w₁ (numbers (ps₁.take k)) w₂ (numbers (ps₂.take k)))
      (x₁ w₁) (x₂ w₂))
    (right : ∀ u₁ u₂, Renumbered scope (ps₁.drop (k + 1)) u₁ (ps₂.drop (k + 1)) u₂ →
      RunsAlike (Settled scope u₁ (numbers (ps₁.drop (k + 1))) u₂ (numbers (ps₂.drop (k + 1))))
        (y₁ u₁) (y₂ u₂)) :
    RunsAlike (Settled scope w₁ (numbers ps₁) w₂ (numbers ps₂))
      ((do
        let l ← x₁
        let r ← y₁
        pure (Tree.binary op l r)) w₁)
      ((do
        let l ← x₂
        let r ← y₂
        pure (Tree.binary op l r)) w₂) := by
  refine RunsAlike.bind left fun l₁ u₁ l₂ u₂ _ _ first => ?_
  have rest := (renumbered.drop (k + 1)).after first.first first.second
    (numbers_apart renumbered.distinct₁ (Nat.le_succ k))
    (numbers_apart renumbered.distinct₂ (Nat.le_succ k))
  refine RunsAlike.bind (right u₁ u₂ rest) fun r₁ v₁ r₂ v₂ _ _ second => ?_
  exact ⟨by simp only [Tree.eraseLeaves, first.same, second.same],
    (first.first.trans second.first).mono (numbers_around_subset ps₁ k),
    (first.second.trans second.second).mono (numbers_around_subset ps₂ k)⟩

theorem quiet_product : Quiet (fun c => c == '*' || c == '/') := by
  intro c placeholderChar
  have star : (c == '*') = false := quiet_beq (by decide) (by decide) (by decide) c placeholderChar
  have slash : (c == '/') = false := quiet_beq (by decide) (by decide) (by decide) c placeholderChar
  show (c == '*' || c == '/') = false
  rw [star, slash, Bool.or_false]

/-- Renumbered products are resolved alike. -/
theorem resolveProduct_renumbered {ps₁ ps₂ : List Piece} {w₁ w₂ : Workspace}
    (renumbered : Renumbered scope ps₁ w₁ ps₂ w₂) :
    RunsAlike (Settled scope w₁ (numbers ps₁) w₂ (numbers ps₂))
      (resolveProduct scope (join ps₁) w₁) (resolveProduct scope (join ps₂) w₂) := by
  obtain ⟨size, sized⟩ : ∃ size, ps₁.length = size := ⟨_, rfl⟩
  -- strong induction on the number of pieces: the product after the first operator is shorter
  induction size using Nat.strongRecOn generalizing ps₁ ps₂ w₁ w₂ with
  | ind size inductionHypothesis =>
  have found₁ := findIdx?_join quiet_product ps₁
  have found₂ := findIdx?_join quiet_product ps₂
  rw [← renumbered.shape_eq] at found₂
  cases split : (shape ps₁).findIdx? (fun c => c == '*' || c == '/') with
  | none =>
    rw [split, Option.map_none] at found₁ found₂
    rw [resolveProduct_of_none found₁, resolveProduct_of_none found₂]
    exact resolveLeaf_renumbered renumbered
  | some k =>
    rw [split, Option.map_some] at found₁ found₂
    obtain ⟨inside, operator, -⟩ := List.findIdx?_eq_some_iff_getElem.mp split
    have notBar : (shape ps₁)[k] ≠ '|' := fun bar => by simp [bar] at operator
    have atK₁ := getElem?_of_shape (List.getElem?_eq_getElem inside) notBar
    have atK₂ : ps₂[k]? = some (char (shape ps₁)[k]) := getElem?_of_shape
      (by rw [← renumbered.shape_eq]; exact List.getElem?_eq_getElem inside) notBar
    rw [resolveProduct_of_some found₁, resolveProduct_of_some found₂, take_join, take_join,
      drop_join_succ atK₁, drop_join_succ atK₂, splitOperator_join, splitOperator_join,
      ← renumbered.shape_eq]
    rw [length_shape] at inside
    exact around_settled renumbered k _ (resolveLeaf_renumbered (renumbered.take k))
      fun u₁ u₂ rest => inductionHypothesis _ (by rw [List.length_drop]; omega) rest rfl

/-- Renumbered sums are resolved alike. -/
theorem resolveSum_renumbered {ps₁ ps₂ : List Piece} {w₁ w₂ : Workspace}
    (renumbered : Renumbered scope ps₁ w₁ ps₂ w₂) :
    RunsAlike (Settled scope w₁ (numbers ps₁) w₂ (numbers ps₂))
      (resolveSum scope (join ps₁) w₁) (resolveSum scope (join ps₂) w₂) := by
  obtain ⟨size, sized⟩ : ∃ size, ps₁.length = size := ⟨_, rfl⟩
  -- strong induction on the number of pieces: the sum before the last split is shorter
  induction size using Nat.strongRecOn generalizing ps₁ ps₂ w₁ w₂ with
  | ind size inductionHypothesis =>
  have found₁ := additiveSplit?_join ps₁
  have found₂ := additiveSplit?_join ps₂
  rw [← renumbered.shape_eq] at found₂
  cases split : additiveSplit? (shape ps₁) with
  | none =>
    rw [split, Option.map_none] at found₁ found₂
    rw [resolveSum_of_none found₁, resolveSum_of_none found₂]
    exact resolveProduct_renumbered renumbered
  | some k =>
    rw [split, Option.map_some] at found₁ found₂
    obtain ⟨-, room, splits, -⟩ := (additiveSplit?_eq_some_iff _ k).mp split
    rw [length_shape] at room
    -- the split is at a character piece, in both texts
    obtain ⟨σ₁, atK₁⟩ := exists_char_of_isAdditiveSplit splits
    obtain ⟨σ₂, atK₂⟩ := exists_char_of_isAdditiveSplit (renumbered.shape_eq ▸ splits)
    rw [resolveSum_of_some found₁, resolveSum_of_some found₂, take_join, take_join,
      drop_join_succ atK₁, drop_join_succ atK₂, splitOperator_join, splitOperator_join,
      ← renumbered.shape_eq]
    exact around_settled renumbered k _
      (inductionHypothesis _ (by rw [List.length_take]; omega) (renumbered.take k) rfl)
      fun u₁ u₂ rest => resolveProduct_renumbered rest

end Operators

end ComplexFormula
