import ComplexFormula.Occurrence

/-!
# The occurrence index as a registry of leaves

Compilation registers every variable leaf it creates under the name of its variable, and
afterwards keeps only the leaves still in the tree. This module states what the index holds
after such operations, as a relation `Mem name leaf`:

* registering adds exactly the one pair (`mem_register`);
* buckets are ordered by name, and each bucket's leaves increase and are never empty, which
  registering keeps (`Ordered.register`); so a name has one bucket and its leaves form a set;
* keeping the leaves that are present changes nothing when every listed leaf is present
  (`retainPresent_of_present`).
-/

namespace ComplexFormula.OccurrenceIndex

/-- `leaf` is listed under `name`. -/
def Mem (index : OccurrenceIndex) (name : String) (leaf : Nat) : Prop :=
  ∃ leaves, (name, leaves) ∈ index.buckets ∧ leaf ∈ leaves

/-- Names increase along the buckets, and the leaves of a bucket increase and are not
empty. -/
structure Ordered (index : OccurrenceIndex) : Prop where
  names : (index.buckets.map (·.1)).Pairwise (· < ·)
  leaves : ∀ bucket ∈ index.buckets, bucket.2 ≠ [] ∧ bucket.2.Pairwise (· < ·)

theorem not_mem_empty (name : String) (leaf : Nat) : ¬empty.Mem name leaf := by
  rintro ⟨leaves, listed, -⟩
  cases listed

theorem ordered_empty : empty.Ordered := ⟨List.Pairwise.nil, fun _ listed => by cases listed⟩

/-! ## Inserting a leaf -/

theorem mem_insertLeaf {l leaf : Nat} {leaves : List Nat} :
    l ∈ insertLeaf leaf leaves ↔ l = leaf ∨ l ∈ leaves := by
  induction leaves with
  | nil => simp [insertLeaf]
  | cons first rest inductionHypothesis =>
    simp only [insertLeaf]
    split
    · simp
    · split
      · next same =>
        subst same
        simp
      · simp only [List.mem_cons, inductionHypothesis, or_left_comm]

theorem insertLeaf_ne_nil (leaf : Nat) (leaves : List Nat) : insertLeaf leaf leaves ≠ [] :=
  List.ne_nil_of_mem (mem_insertLeaf.mpr (Or.inl rfl))

theorem insertLeaf_pairwise {leaf : Nat} {leaves : List Nat}
    (increasing : leaves.Pairwise (· < ·)) : (insertLeaf leaf leaves).Pairwise (· < ·) := by
  induction leaves with
  | nil => simp [insertLeaf]
  | cons first rest inductionHypothesis =>
    obtain ⟨aboveFirst, restIncreasing⟩ := List.pairwise_cons.mp increasing
    simp only [insertLeaf]
    split
    · next below =>
      refine List.pairwise_cons.mpr ⟨fun l listed => ?_, increasing⟩
      rcases List.mem_cons.mp listed with rfl | later
      · exact below
      · exact Nat.lt_trans below (aboveFirst l later)
    · split
      · exact increasing
      · next notBelow notSame =>
        refine List.pairwise_cons.mpr ⟨fun l listed => ?_, inductionHypothesis restIncreasing⟩
        rcases mem_insertLeaf.mp listed with rfl | later
        · omega
        · exact aboveFirst l later

/-! ## Registering a leaf -/

/-- A bucket list holds `leaf` under `name`. -/
theorem mem_insertInto {name n : String} {leaf l : Nat} (buckets : List (String × List Nat)) :
    (∃ leaves, (n, leaves) ∈ insertInto name leaf buckets ∧ l ∈ leaves) ↔
      (∃ leaves, (n, leaves) ∈ buckets ∧ l ∈ leaves) ∨ (n = name ∧ l = leaf) := by
  induction buckets with
  | nil =>
    simp only [insertInto, List.mem_singleton, Prod.mk.injEq, List.not_mem_nil, false_and,
      exists_false, false_or]
    constructor
    · rintro ⟨_, ⟨rfl, rfl⟩, held⟩
      exact ⟨rfl, List.mem_singleton.mp held⟩
    · rintro ⟨rfl, rfl⟩
      exact ⟨_, ⟨rfl, rfl⟩, List.mem_singleton_self _⟩
  | cons bucket rest inductionHypothesis =>
    obtain ⟨first, leaves⟩ := bucket
    simp only [insertInto]
    -- the bucket of the name is this one, comes before it, or comes later
    split
    · next same =>
      subst same
      simp only [List.mem_cons, Prod.mk.injEq]
      constructor
      · rintro ⟨found, (⟨rfl, rfl⟩ | later), held⟩
        · rcases mem_insertLeaf.mp held with rfl | old
          · exact Or.inr ⟨rfl, rfl⟩
          · exact Or.inl ⟨leaves, Or.inl ⟨rfl, rfl⟩, old⟩
        · exact Or.inl ⟨found, Or.inr later, held⟩
      · rintro (⟨found, (⟨rfl, rfl⟩ | later), held⟩ | ⟨rfl, rfl⟩)
        · exact ⟨_, Or.inl ⟨rfl, rfl⟩, mem_insertLeaf.mpr (Or.inr held)⟩
        · exact ⟨found, Or.inr later, held⟩
        · exact ⟨_, Or.inl ⟨rfl, rfl⟩, mem_insertLeaf.mpr (Or.inl rfl)⟩
    · split
      · simp only [List.mem_cons, Prod.mk.injEq]
        constructor
        · rintro ⟨found, (⟨rfl, rfl⟩ | ⟨rfl, rfl⟩ | later), held⟩
          · exact Or.inr ⟨rfl, List.mem_singleton.mp held⟩
          · exact Or.inl ⟨_, Or.inl ⟨rfl, rfl⟩, held⟩
          · exact Or.inl ⟨found, Or.inr later, held⟩
        · rintro (⟨found, (⟨rfl, rfl⟩ | later), held⟩ | ⟨rfl, rfl⟩)
          · exact ⟨_, Or.inr (Or.inl ⟨rfl, rfl⟩), held⟩
          · exact ⟨found, Or.inr (Or.inr later), held⟩
          · exact ⟨_, Or.inl ⟨rfl, rfl⟩, List.mem_singleton_self _⟩
      · simp only [List.mem_cons, Prod.mk.injEq]
        constructor
        · rintro ⟨found, (⟨rfl, rfl⟩ | later), held⟩
          · exact Or.inl ⟨_, Or.inl ⟨rfl, rfl⟩, held⟩
          · rcases inductionHypothesis.mp ⟨found, later, held⟩ with ⟨old, inRest, kept⟩ | new
            · exact Or.inl ⟨old, Or.inr inRest, kept⟩
            · exact Or.inr new
        · rintro (⟨found, (⟨rfl, rfl⟩ | later), held⟩ | new)
          · exact ⟨_, Or.inl ⟨rfl, rfl⟩, held⟩
          · obtain ⟨moved, inRest, kept⟩ := inductionHypothesis.mpr (Or.inl ⟨found, later, held⟩)
            exact ⟨moved, Or.inr inRest, kept⟩
          · obtain ⟨moved, inRest, kept⟩ := inductionHypothesis.mpr (Or.inr new)
            exact ⟨moved, Or.inr inRest, kept⟩

/-- Registering lists exactly one more pair. -/
theorem mem_register {index : OccurrenceIndex} {name n : String} {leaf l : Nat} :
    (index.register name leaf).Mem n l ↔ index.Mem n l ∨ (n = name ∧ l = leaf) :=
  mem_insertInto index.buckets

/-- The names of the buckets after an insertion: the name and the names before. -/
theorem names_insertInto {name n : String} {leaf : Nat} (buckets : List (String × List Nat)) :
    n ∈ (insertInto name leaf buckets).map (·.1) ↔ n = name ∨ n ∈ buckets.map (·.1) := by
  induction buckets with
  | nil => simp [insertInto]
  | cons bucket rest inductionHypothesis =>
    obtain ⟨first, leaves⟩ := bucket
    simp only [insertInto]
    split
    · next same =>
      subst same
      simp
    · split
      · simp
      · simp only [List.map_cons, List.mem_cons, inductionHypothesis]
        exact or_left_comm

theorem insertInto_names {name : String} {leaf : Nat} {buckets : List (String × List Nat)}
    (names : (buckets.map (·.1)).Pairwise (· < ·)) :
    ((insertInto name leaf buckets).map (·.1)).Pairwise (· < ·) := by
  induction buckets with
  | nil => simp [insertInto]
  | cons bucket rest inductionHypothesis =>
    obtain ⟨first, leaves⟩ := bucket
    obtain ⟨aboveFirst, restNames⟩ := List.pairwise_cons.mp names
    simp only [insertInto]
    split
    · next same =>
      subst same
      exact names
    · split
      · next different below =>
        refine List.pairwise_cons.mpr ⟨fun n listed => ?_, names⟩
        rcases List.mem_cons.mp listed with rfl | later
        · exact below
        · exact String.lt_trans below (aboveFirst n later)
      · next different notBelow =>
        -- the name comes after this bucket's
        have above : first < name := by
          rcases Std.lt_trichotomy name first with below | same | above
          · exact absurd below notBelow
          · exact absurd same different
          · exact above
        refine List.pairwise_cons.mpr ⟨fun n listed => ?_, inductionHypothesis restNames⟩
        rcases (names_insertInto rest).mp listed with rfl | old
        · exact above
        · exact aboveFirst n old

theorem insertInto_leaves {name : String} {leaf : Nat} {buckets : List (String × List Nat)}
    (leaves : ∀ bucket ∈ buckets, bucket.2 ≠ [] ∧ bucket.2.Pairwise (· < ·)) :
    ∀ bucket ∈ insertInto name leaf buckets, bucket.2 ≠ [] ∧ bucket.2.Pairwise (· < ·) := by
  induction buckets with
  | nil =>
    intro bucket listed
    rw [insertInto, List.mem_singleton] at listed
    subst listed
    simp
  | cons bucket rest inductionHypothesis =>
    obtain ⟨first, firstLeaves⟩ := bucket
    have firstBucket := leaves (first, firstLeaves) List.mem_cons_self
    have restLeaves : ∀ b ∈ rest, b.2 ≠ [] ∧ b.2.Pairwise (· < ·) :=
      fun b listed => leaves b (List.mem_cons_of_mem _ listed)
    intro b listed
    simp only [insertInto] at listed
    split at listed
    · rcases List.mem_cons.mp listed with rfl | later
      · exact ⟨insertLeaf_ne_nil _ _, insertLeaf_pairwise firstBucket.2⟩
      · exact restLeaves b later
    · split at listed
      · rcases List.mem_cons.mp listed with rfl | later
        · simp
        · exact leaves b later
      · rcases List.mem_cons.mp listed with rfl | later
        · exact firstBucket
        · exact inductionHypothesis restLeaves b later

theorem Ordered.register {index : OccurrenceIndex} (ordered : index.Ordered) (name : String)
    (leaf : Nat) : (index.register name leaf).Ordered :=
  ⟨insertInto_names ordered.names, insertInto_leaves ordered.leaves⟩

/-! ## Looking up a name -/

/-- When names increase along the buckets, a name has at most one bucket. -/
theorem eq_of_mem_buckets {buckets : List (String × List Nat)}
    (names : (buckets.map (·.1)).Pairwise (· < ·)) {name : String} {leaves leaves' : List Nat}
    (listed : (name, leaves) ∈ buckets) (listed' : (name, leaves') ∈ buckets) :
    leaves = leaves' := by
  induction buckets with
  | nil => cases listed
  | cons bucket rest inductionHypothesis =>
    obtain ⟨aboveFirst, restNames⟩ := List.pairwise_cons.mp names
    have named : ∀ {l}, (name, l) ∈ rest → bucket.1 < name := fun later =>
      aboveFirst name (List.mem_map.mpr ⟨_, later, rfl⟩)
    rcases List.mem_cons.mp listed with rfl | later <;>
      rcases List.mem_cons.mp listed' with same | later'
    · exact (Prod.mk.inj same).2.symm
    · exact absurd (named later') (String.lt_irrefl _)
    · subst same
      exact absurd (named later) (String.lt_irrefl _)
    · exact inductionHypothesis restNames later later'

theorem Ordered.eq_of_mem {index : OccurrenceIndex} (ordered : index.Ordered) {name : String}
    {leaves leaves' : List Nat} (listed : (name, leaves) ∈ index.buckets)
    (listed' : (name, leaves') ∈ index.buckets) : leaves = leaves' :=
  eq_of_mem_buckets ordered.names listed listed'

/-- The leaves found for a name are those of its bucket. -/
theorem Ordered.leaves?_eq_some {index : OccurrenceIndex} (ordered : index.Ordered)
    {name : String} {leaves : List Nat} :
    index.leaves? name = some leaves ↔ (name, leaves) ∈ index.buckets := by
  unfold leaves?
  constructor
  · intro found
    obtain ⟨bucket, hit, rfl⟩ := Option.map_eq_some_iff.mp found
    have same : bucket.1 = name := by simpa using List.find?_some hit
    have listed := List.mem_of_find?_eq_some hit
    rw [← same]
    exact listed
  · intro listed
    cases hit : index.buckets.find? (·.1 == name) with
    | none =>
      have missing := List.find?_eq_none.mp hit _ listed
      simp at missing
    | some bucket =>
      have same : bucket.1 = name := by simpa using List.find?_some hit
      obtain ⟨first, found⟩ := bucket
      simp only at same
      subst same
      simp only [Option.map_some, Option.some.injEq]
      exact ordered.eq_of_mem (List.mem_of_find?_eq_some hit) listed

theorem contains_iff {index : OccurrenceIndex} {name : String} :
    index.contains name = true ↔ ∃ leaves, (name, leaves) ∈ index.buckets := by
  simp only [contains, List.any_eq_true, beq_iff_eq]
  constructor
  · rintro ⟨⟨n, leaves⟩, listed, rfl⟩
    exact ⟨leaves, listed⟩
  · rintro ⟨leaves, listed⟩
    exact ⟨_, listed, rfl⟩

/-- The leaves found for a name are exactly the leaves listed under it. -/
theorem Ordered.mem_of_leaves? {index : OccurrenceIndex} (ordered : index.Ordered) {name : String}
    {leaves : List Nat} (found : index.leaves? name = some leaves) (leaf : Nat) :
    leaf ∈ leaves ↔ index.Mem name leaf := by
  have listed := ordered.leaves?_eq_some.mp found
  constructor
  · intro held
    exact ⟨leaves, listed, held⟩
  · rintro ⟨leaves', listed', held⟩
    rwa [ordered.eq_of_mem listed listed']

/-- A name is found exactly when some leaf is listed under it: no bucket is empty. -/
theorem Ordered.leaves?_isSome {index : OccurrenceIndex} (ordered : index.Ordered)
    {name : String} : (∃ leaves, index.leaves? name = some leaves) ↔ ∃ leaf, index.Mem name leaf := by
  constructor
  · rintro ⟨leaves, found⟩
    have listed := ordered.leaves?_eq_some.mp found
    obtain ⟨leaf, held⟩ := List.exists_mem_of_ne_nil _ (ordered.leaves _ listed).1
    exact ⟨leaf, leaves, listed, held⟩
  · rintro ⟨leaf, leaves, listed, -⟩
    exact ⟨leaves, ordered.leaves?_eq_some.mpr listed⟩

theorem Ordered.contains_iff_mem {index : OccurrenceIndex} (ordered : index.Ordered)
    {name : String} : index.contains name = true ↔ ∃ leaf, index.Mem name leaf := by
  rw [contains_iff, ← ordered.leaves?_isSome]
  exact exists_congr fun leaves => ordered.leaves?_eq_some.symm

/-! ## Keeping the leaves that are present -/

/-- When every listed leaf is present, keeping the present leaves keeps the whole index. -/
theorem retainPresent_of_present {index : OccurrenceIndex} (ordered : index.Ordered)
    {present : List Nat} (all : ∀ name leaf, index.Mem name leaf → leaf ∈ present) :
    index.retainPresent present = index := by
  obtain ⟨buckets⟩ := index
  unfold retainPresent
  simp only [OccurrenceIndex.mk.injEq]
  have kept : buckets.map (fun bucket => (bucket.1, bucket.2.filter (present.contains ·))) =
      buckets := by
    have same : ∀ bucket ∈ buckets,
        (bucket.1, bucket.2.filter (present.contains ·)) = id bucket := by
      intro bucket listed
      obtain ⟨name, leaves⟩ := bucket
      simp only [id, Prod.mk.injEq, true_and, List.filter_eq_self, List.contains_iff_mem]
      intro leaf held
      exact all name leaf ⟨leaves, listed, held⟩
    rw [List.map_congr_left same, List.map_id]
  rw [kept, List.filter_eq_self]
  intro bucket listed
  simpa using (ordered.leaves bucket listed).1

end ComplexFormula.OccurrenceIndex
