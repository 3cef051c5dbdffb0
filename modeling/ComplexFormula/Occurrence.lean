/-!
# The occurrence index

For every variable that occurs in an expression, the leaves created for its occurrences.
Names are kept in increasing code point order and the leaves of a name in increasing order,
so the index reads the same however the leaves were registered.
-/

namespace ComplexFormula

/-- Leaf numbers by variable name: names increasing, each with its leaves increasing and
without repetition. -/
structure OccurrenceIndex where
  buckets : List (String × List Nat)
deriving Repr, DecidableEq

namespace OccurrenceIndex

/-- The index without names. -/
def empty : OccurrenceIndex := ⟨[]⟩

/-- Inserts a leaf into an increasing list of leaves, keeping it increasing. -/
def insertLeaf (leaf : Nat) : List Nat → List Nat
  | [] => [leaf]
  | l :: rest =>
    if leaf < l then leaf :: l :: rest
    else if leaf = l then l :: rest
    else l :: insertLeaf leaf rest

/-- Adds a leaf to the bucket of a name, creating the bucket in its place if needed. -/
def insertInto (name : String) (leaf : Nat) : List (String × List Nat) → List (String × List Nat)
  | [] => [(name, [leaf])]
  | (n, leaves) :: rest =>
    if name = n then (n, insertLeaf leaf leaves) :: rest
    else if name < n then (name, [leaf]) :: (n, leaves) :: rest
    else (n, leaves) :: insertInto name leaf rest

/-- Records that `leaf` is an occurrence of `name`. -/
def register (index : OccurrenceIndex) (name : String) (leaf : Nat) : OccurrenceIndex :=
  ⟨insertInto name leaf index.buckets⟩

/-- Keeps only the leaves in `present`, and only the names left with a leaf. -/
def retainPresent (index : OccurrenceIndex) (present : List Nat) : OccurrenceIndex :=
  ⟨(index.buckets.map fun bucket => (bucket.1, bucket.2.filter (present.contains ·))).filter
    fun bucket => !bucket.2.isEmpty⟩

/-- Whether a name has a bucket. -/
def contains (index : OccurrenceIndex) (name : String) : Bool :=
  index.buckets.any (·.1 == name)

/-- The leaves of a name, if it has a bucket. -/
def leaves? (index : OccurrenceIndex) (name : String) : Option (List Nat) :=
  (index.buckets.find? (·.1 == name)).map (·.2)

end OccurrenceIndex

end ComplexFormula
