import Mathlib
import ComplexFormula.Proofs.Placeholders

/-!
# The occurrence index agrees with the tree

Compilation registers a leaf in the occurrence index as it creates it, resolves the whole
text, folds the tree if asked, and then keeps in the index only the leaves still in the tree.
By the books of `Proofs/Ledger`, a successful compilation leaves every leaf it created in
the raw tree exactly once, each registered under the name of its slot, and folding drops no
leaf (`Tree.leaves_fold`). So nothing is removed from the index, and the index lists a leaf
under a name exactly when the tree has that leaf in a slot of that name
(`Compiler.compile_indexed`); what the index answers follows
(`compile_indexes_exactly_the_leaves`).
-/

namespace ComplexFormula

namespace Tree

theorem leaves_eq_nil_of_isConstWith {p : ComplexFloat → Bool} {t : Tree}
    (isConst : t.isConstWith p = true) : t.leaves = [] := by
  cases t with
  | const z => rfl
  | var leaf slot => simp [isConstWith] at isConst
  | unary f arg => simp [isConstWith] at isConst
  | binary op left right => simp [isConstWith] at isConst

/-- Joining two folded operands keeps their leaves: a neutral operand that is dropped is a
constant. -/
theorem leaves_foldBinary (op : BinaryOp) (left right : Tree) :
    (foldBinary op left right).leaves = left.leaves ++ right.leaves := by
  unfold foldBinary
  split
  · rfl
  · -- a neutral operand that is dropped is a constant, which has no leaves
    cases op with
    | add =>
      dsimp only
      split
      · next zero => simp [leaves_eq_nil_of_isConstWith zero]
      · split
        · next zero => simp [leaves_eq_nil_of_isConstWith zero]
        · rfl
    | sub =>
      dsimp only
      split
      · next zero => simp [leaves_eq_nil_of_isConstWith zero]
      · rfl
    | mul =>
      dsimp only
      split
      · next one => simp [leaves_eq_nil_of_isConstWith one]
      · split
        · next one => simp [leaves_eq_nil_of_isConstWith one]
        · rfl
    | div =>
      dsimp only
      split
      · next one => simp [leaves_eq_nil_of_isConstWith one]
      · rfl
    | pow =>
      dsimp only
      split
      · next one => simp [leaves_eq_nil_of_isConstWith one]
      · rfl

/-- Folding keeps every variable leaf, in order. -/
theorem leaves_fold (t : Tree) : t.fold.leaves = t.leaves := by
  induction t with
  | const z => rfl
  | var leaf slot => rfl
  | unary f arg inductionHypothesis =>
    rw [fold]
    split
    · next folded =>
      -- a function of a constant becomes a constant, and its argument had no leaves
      show [] = arg.leaves
      rw [← inductionHypothesis, folded]
      rfl
    · exact inductionHypothesis
  | binary op left right leftHypothesis rightHypothesis =>
    rw [fold, leaves_foldBinary, leftHypothesis, rightHypothesis]
    rfl

/-- The tree a compilation returns, folded or not, has the leaves of the raw tree. -/
theorem leaves_fold_if (folding : Bool) (t : Tree) :
    (if folding then t.fold else t).leaves = t.leaves := by
  split
  · exact leaves_fold t
  · rfl

end Tree
/-- After a run from the initial workspace, the index lists a leaf under a name exactly when
the tree has that leaf in a slot of that name. -/
theorem Resolved.mem_iff {scope : Scope} {b : Nat} {t : Tree} {w : Workspace}
    (resolved : Resolved scope b Workspace.initial t w) (name : String) (leaf : Nat) :
    w.occurrences.Mem name leaf ↔
      ∃ slot, (leaf, slot) ∈ t.leaves ∧ scope.variableNames[slot]? = some name := by
  obtain ⟨-, -, numbered⟩ := resolved.of_initial
  have sound := resolved.ran.sound
  constructor
  · intro listed
    -- a listed leaf was created, so it is in the tree, where it is registered under one name
    have inTree : leaf ∈ t.leaves.map (·.1) :=
      numbered.mem_iff.mpr (List.mem_range.mpr (sound.below name leaf listed))
    obtain ⟨⟨_, slot⟩, held, rfl⟩ := List.mem_map.mp inTree
    obtain ⟨name', named, listed'⟩ := resolved.registered _ held
    exact ⟨slot, held, (sound.oneName _ _ _ listed listed') ▸ named⟩
  · rintro ⟨slot, held, named⟩
    obtain ⟨name', named', listed⟩ := resolved.registered _ held
    rw [named, Option.some.injEq] at named'
    exact named' ▸ listed

/-- The index of a run from the initial workspace lists only leaves of its tree, folded or not,
so keeping the leaves present keeps the whole index. -/
theorem Resolved.retainPresent_eq {scope : Scope} {b : Nat} {raw : Tree} {w : Workspace}
    (books : Resolved scope b Workspace.initial raw w) (folding : Bool) :
    w.occurrences.retainPresent ((if folding then raw.fold else raw).leaves.map (·.1)) =
      w.occurrences := by
  obtain ⟨-, -, numbered⟩ := books.of_initial
  have sound := books.ran.sound
  apply OccurrenceIndex.retainPresent_of_present sound.ordered
  intro name leaf listed
  rw [Tree.leaves_fold_if]
  exact numbered.mem_iff.mpr (List.mem_range.mpr (sound.below name leaf listed))

/-- The tree and index of a successful compilation: the leaf numbers are `0, …, k - 1`, each
once; every leaf's slot has a declared name; the index is ordered, and lists a leaf under a
name exactly when the tree has that leaf in a slot of that name. -/
theorem Compiler.compile_indexed {c : Compiler} {expression : String} {names : List String}
    {e : Compiled} (compiled : c.compile expression names = .ok e) :
    ∃ k, (e.root.leaves.map (·.1)).Perm (List.range k) ∧
      (∀ leaf ∈ e.root.leaves, ∃ name, e.variableNames[leaf.2]? = some name) ∧
      e.occurrences.Ordered ∧
      ∀ name leaf, e.occurrences.Mem name leaf ↔
        ∃ slot, (leaf, slot) ∈ e.root.leaves ∧ e.variableNames[slot]? = some name := by
  obtain ⟨text, declared, raw, w, -, -, -, books, rfl⟩ := Compiler.compile_resolved compiled
  obtain ⟨-, -, numbered⟩ := books.of_initial
  have sound := books.ran.sound
  dsimp only
  rw [books.retainPresent_eq, Tree.leaves_fold_if]
  refine ⟨w.nextLeaf, numbered, fun leaf held => ?_, sound.ordered, books.mem_iff⟩
  obtain ⟨name, named, -⟩ := books.registered leaf held
  exact ⟨name, named⟩

/-- The occurrence index of a compiled expression agrees with its tree, whose compilation
created `k` leaves. The leaf numbers of the tree are `0, …, k - 1`, each once, and every slot
is a declared variable's. The index finds a name exactly when a leaf of the tree is in a slot
of that name, and then finds the leaves of the tree in such slots, increasing; it holds no
other name and no empty bucket. -/
structure Compiled.IndexesLeaves (e : Compiled) (k : Nat) : Prop where
  numbered : (e.root.leaves.map (·.1)).Perm (List.range k)
  slots : ∀ leaf ∈ e.root.leaves, leaf.2 < e.variableNames.length
  contains : ∀ name, e.occurrences.contains name = true ↔
    ∃ leaf ∈ e.root.leaves, e.variableNames[leaf.2]? = some name
  found : ∀ name, (∃ leaves, e.occurrences.leaves? name = some leaves) ↔
    ∃ leaf ∈ e.root.leaves, e.variableNames[leaf.2]? = some name
  exact : ∀ name leaves, e.occurrences.leaves? name = some leaves →
    leaves.Pairwise (· < ·) ∧ ∀ leaf, leaf ∈ leaves ↔
      ∃ slot, (leaf, slot) ∈ e.root.leaves ∧ e.variableNames[slot]? = some name
  nonempty : ∀ bucket ∈ e.occurrences.buckets, bucket.2 ≠ []

/-- Every compiled expression, folded or not, indexes exactly the leaves of its tree, and
that tree keeps every leaf the resolving run created: its leaf numbers are those below the
run's counter. -/
theorem compile_indexes_exactly_the_leaves {c : Compiler} {expression : String}
    {names : List String} {e : Compiled} (compiled : c.compile expression names = .ok e) :
    ∃ text raw w, normalize c.glyphs expression = .ok text ∧
      resolveExpression ⟨c.constants, e.variableNames⟩ text.toList Workspace.initial =
        .ok (raw, w) ∧
      e.root = (if c.folding then raw.fold else raw) ∧ e.IndexesLeaves w.nextLeaf := by
  obtain ⟨-, -, named, ordered, listed⟩ := Compiler.compile_indexed compiled
  obtain ⟨text, declared, raw, w, normalized, -, resolved, books, built⟩ :=
    Compiler.compile_resolved compiled
  have root : e.root = (if c.folding then raw.fold else raw) := by rw [built]
  have declaredNames : e.variableNames = declared := by rw [built]
  have numbered : (e.root.leaves.map (·.1)).Perm (List.range w.nextLeaf) := by
    rw [root, Tree.leaves_fold_if]
    exact books.of_initial.2.2
  -- a name with a listed leaf is a name in whose slot the tree has a leaf
  have occurs : ∀ name, (∃ leaf, e.occurrences.Mem name leaf) ↔
      ∃ leaf ∈ e.root.leaves, e.variableNames[leaf.2]? = some name := by
    intro name
    simp only [listed]
    constructor
    · rintro ⟨leaf, slot, held, isNamed⟩
      exact ⟨(leaf, slot), held, isNamed⟩
    · rintro ⟨⟨leaf, slot⟩, held, isNamed⟩
      exact ⟨leaf, slot, held, isNamed⟩
  refine ⟨text, raw, w, normalized, declaredNames ▸ resolved, root, numbered, fun leaf held => ?_,
    fun name => ?_, fun name => ?_, fun name leaves found => ?_,
    fun bucket held => (ordered.leaves bucket held).1⟩
  · obtain ⟨name, isNamed⟩ := named leaf held
    exact (List.getElem?_eq_some_iff.mp isNamed).1
  · rw [ordered.contains_iff_mem, occurs]
  · rw [ordered.leaves?_isSome, occurs]
  · refine ⟨(ordered.leaves _ (ordered.leaves?_eq_some.mp found)).2, fun leaf => ?_⟩
    rw [ordered.mem_of_leaves? found, listed]

set_option maxRecDepth 4000 in
/-- `x*y+x` numbers its leaves from the left and lists both leaves of `x` under its name. -/
theorem compile_x_mul_y_add_x :
    Compiler.standard.compile "x*y+x" ["x", "y"] =
      .ok ⟨.binary .add (.binary .mul (.var 0 0) (.var 1 1)) (.var 2 0), ["x", "y"],
        ⟨[("x", [0, 2]), ("y", [1])]⟩⟩ := by
  cbv

/-- `x*y+x` creates three leaves, all kept, and a name that occurs twice has both leaves in
its bucket. -/
theorem compile_indexes_repeated_name :
    ∃ e, Compiler.standard.compile "x*y+x" ["x", "y"] = .ok e ∧ e.IndexesLeaves 3 ∧
      e.occurrences.leaves? "x" = some [0, 2] := by
  obtain ⟨text, raw, w, -, -, -, indexes⟩ :=
    compile_indexes_exactly_the_leaves compile_x_mul_y_add_x
  -- the three leaves of the tree are all the run created
  have created : w.nextLeaf = 3 := by simpa [Tree.leaves] using indexes.numbered.length_eq.symm
  exact ⟨_, compile_x_mul_y_add_x, created ▸ indexes, rfl⟩

end ComplexFormula
